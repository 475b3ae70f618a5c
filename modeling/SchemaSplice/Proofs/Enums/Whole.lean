import Mathlib.Algebra.Group.Nat.Defs
import SchemaSplice.Binary64.Read
/-!
# Whole numbers

A whole number below 2^53 is a double-precision number itself, so sums and differences of such numbers are rounded to what
they are as integers.
-/

namespace SchemaSplice.Binary64

/-! ### Words -/

theorem code_ofCode (negative : Bool) {c : Nat} (h : c < signWeight) : (ofCode negative c).code = c := by
  unfold signWeight at h
  unfold ofCode code signWeight
  cases negative <;> simp only [Bool.false_eq_true, if_true, if_false, UInt64.toNat_ofNat'] <;> omega

theorem isNegative_ofCode (negative : Bool) {c : Nat} (h : c < signWeight) : (ofCode negative c).isNegative = negative := by
  unfold signWeight at h
  unfold ofCode isNegative signWeight
  cases negative <;> simp only [Bool.false_eq_true, if_true, if_false, UInt64.toNat_ofNat', decide_eq_true_eq,
    decide_eq_false_iff_not] <;> omega

theorem code_lt (x : Binary64) : x.code < signWeight := Nat.mod_lt _ (by decide)

/-- A number is its sign and its code. -/
theorem ofCode_code (x : Binary64) : ofCode x.isNegative x.code = x := by
  obtain ⟨bits⟩ := x
  have hlt := bits.toNat_lt
  rw [ofCode, mk.injEq, ← UInt64.toNat_inj]
  unfold isNegative code signWeight
  simp only [decide_eq_true_eq, UInt64.toNat_ofNat']
  split <;> omega

theorem neg_neg (x : Binary64) : x.neg.neg = x := by
  rw [neg, neg, isNegative_ofCode _ x.code_lt, code_ofCode _ x.code_lt, Bool.not_not, ofCode_code]

/-! ### Rounding -/

/-- A significand of 53 bits, shifted, is not changed by rounding. -/
theorem roundCode_significand {q e : Nat} (hlow : exponentWeight ≤ q) (hhigh : q < 2 * exponentWeight) (he : 0 < e)
    (hbound : e < 2045) :
    roundCode (q * 2 ^ e) 1 = e * exponentWeight + q ∧ unitsOfCode (e * exponentWeight + q) = q * 2 ^ e := by
  have hpos : 0 < 2 ^ e := Nat.two_pow_pos e
  have hlog : (q * 2 ^ e).log2 = e + 52 := by
    have hne : q * 2 ^ e ≠ 0 := Nat.mul_ne_zero (by unfold exponentWeight at hlow; omega) (by omega)
    rw [Nat.log2_eq_iff hne, Nat.add_assoc, Nat.add_comm e, Nat.add_comm e, Nat.pow_add, Nat.pow_add]
    exact ⟨Nat.mul_le_mul_right _ hlow, Nat.mul_lt_mul_of_pos_right hhigh hpos⟩
  have hlarge : ¬ q * 2 ^ e < 2 * exponentWeight := by
    have htwo : 2 ≤ 2 ^ e := Nat.le_self_pow (by omega) 2
    rw [Nat.not_lt, Nat.mul_comm q]
    exact Nat.mul_le_mul htwo hlow
  constructor
  · simp only [roundCode, Nat.div_one, if_neg hlarge, hlog, Nat.add_sub_cancel, Nat.one_mul, Nat.pow_eq,
      Nat.mul_div_cancel _ hpos, Nat.mul_mod_left, Nat.mul_zero]
    rw [if_neg (by simp; omega)]
    unfold infinityCode exponentWeight at *
    omega
  · have hdiv : (e * exponentWeight + q) / exponentWeight = e + 1 := by
      unfold exponentWeight at *
      omega
    have hmod : exponentWeight + (e * exponentWeight + q) % exponentWeight = q := by
      unfold exponentWeight at *
      omega
    rw [unitsOfCode, if_neg (by unfold exponentWeight at *; omega), hdiv, hmod]
    rfl

theorem unitsPerOne_eq {e : Nat} (h : e = 1074) : unitsPerOne = 2 ^ e := by
  rw [h]
  rfl

/-- A whole number of at most 53 bits is not changed by rounding. -/
theorem roundCode_whole {n : Nat} (h : n < 2 ^ 53) :
    roundCode (n * unitsPerOne) 1 < infinityCode ∧
      unitsOfCode (roundCode (n * unitsPerOne) 1) = n * unitsPerOne := by
  rcases Nat.eq_zero_or_pos n with rfl | hn
  · rw [Nat.zero_mul]
    exact ⟨by decide, by decide⟩
  -- `n` has `k + 1` bits; the first one becomes the first bit of a significand.
  obtain ⟨k, hk⟩ : ∃ k, n.log2 = k := ⟨_, rfl⟩
  obtain ⟨hlow, hhigh⟩ := (Nat.log2_eq_iff (by omega)).mp hk
  have hk52 : k ≤ 52 := by
    have : k < 53 := (Nat.pow_lt_pow_iff_right (by decide)).mp (Nat.lt_of_le_of_lt hlow h)
    omega
  obtain ⟨q, hq⟩ : ∃ q, n * 2 ^ (52 - k) = q := ⟨_, rfl⟩
  have hqlow : exponentWeight ≤ q := by
    have := Nat.mul_le_mul_right (2 ^ (52 - k)) hlow
    rwa [← Nat.pow_add, Nat.add_sub_cancel' hk52, hq] at this
  have hqhigh : q < 2 * exponentWeight := by
    have := Nat.mul_lt_mul_of_pos_right hhigh (Nat.two_pow_pos (52 - k))
    have hexp : k + 1 + (52 - k) = 53 := by omega
    rwa [← Nat.pow_add, hq, hexp] at this
  have hunits : n * unitsPerOne = q * 2 ^ (k + 1022) := by
    rw [← hq, Nat.mul_assoc, ← Nat.pow_add, @unitsPerOne_eq (52 - k + (k + 1022)) (by omega)]
  obtain ⟨hcode, hvalue⟩ := roundCode_significand hqlow hqhigh (e := k + 1022) (by omega) (by omega)
  rw [hunits, hcode, hvalue]
  refine ⟨?_, rfl⟩
  unfold infinityCode exponentWeight at *
  omega

/-! ### Sums -/

/-- The number nearest to an integer. -/
def ofInt (n : Int) : Binary64 := ofUnits (decide (n < 0)) (n.natAbs * unitsPerOne) 1

def IsWhole (x : Binary64) (n : Int) : Prop := x.isFinite = true ∧ x.signedUnits = n * unitsPerOne

theorem infinityCode_lt : infinityCode < signWeight := by decide

theorem unitsPerOne_pos : (0 : Int) < unitsPerOne := by
  rw [unitsPerOne_eq rfl]
  exact Int.natCast_pos.mpr (Nat.two_pow_pos _)

variable {x y : Binary64} {n m : Int}

theorem isNegative_ofInt (h : n.natAbs < 2 ^ 53) : (ofInt n).isNegative = decide (n < 0) :=
  isNegative_ofCode _ (Nat.lt_trans (roundCode_whole h).1 infinityCode_lt)

theorem isWhole_ofInt (h : n.natAbs < 2 ^ 53) : (ofInt n).IsWhole n := by
  obtain ⟨hfinite, hvalue⟩ := roundCode_whole h
  have hcode : (ofInt n).code = roundCode (n.natAbs * unitsPerOne) 1 :=
    code_ofCode _ (Nat.lt_trans hfinite infinityCode_lt)
  refine ⟨by rw [isFinite, hcode]; simpa using hfinite, ?_⟩
  rw [signedUnits, isNegative_ofInt h, units, hcode, hvalue]
  by_cases hneg : n < 0
  · rw [if_pos (by simpa using hneg), Int.natCast_mul, Int.ofNat_natAbs_of_nonpos (by omega), Int.neg_mul, Int.neg_neg]
  · rw [if_neg (by simpa using hneg), Int.natCast_mul, Int.natAbs_of_nonneg (by omega)]

theorem IsWhole.unique (hn : x.IsWhole n) (hm : x.IsWhole m) : n = m := by
  have h := hn.2.symm.trans hm.2
  exact Int.eq_of_mul_eq_mul_right (Int.ne_of_gt unitsPerOne_pos) h

theorem ofInt_inj (hn : n.natAbs < 2 ^ 53) (hm : m.natAbs < 2 ^ 53) (h : ofInt n = ofInt m) : n = m := by
  have hwhole := isWhole_ofInt hn
  rw [h] at hwhole
  exact hwhole.unique (isWhole_ofInt hm)

/-- The sum of two whole numbers is that of the integers; the sign of a zero is positive unless both numbers are negative. -/
theorem IsWhole.add (hx : x.IsWhole n) (hy : y.IsWhole m) (hzero : n + m = 0 → (x.isNegative && y.isNegative) = false) :
    x.add y = ofInt (n + m) := by
  obtain ⟨hxfinite, hxunits⟩ := hx
  obtain ⟨hyfinite, hyunits⟩ := hy
  have hNaN : ∀ z : Binary64, z.isFinite = true → z.isNaN = false ∧ z.isInfinite = false := by
    intro z hz
    simp only [isFinite, decide_eq_true_eq] at hz
    simp only [isNaN, isInfinite, decide_eq_false_iff_not, beq_eq_false_iff_ne]
    omega
  have hsum : x.signedUnits + y.signedUnits = (n + m) * unitsPerOne := by rw [hxunits, hyunits, Int.add_mul]
  have hsign : (if (n + m) * (unitsPerOne : Int) == 0 then x.isNegative && y.isNegative
      else decide ((n + m) * (unitsPerOne : Int) < 0)) = decide (n + m < 0) := by
    rcases Int.lt_trichotomy (n + m) 0 with h | h | h
    · have hneg := Int.mul_neg_of_neg_of_pos h unitsPerOne_pos
      rw [if_neg fun hzero => Int.ne_of_lt hneg (eq_of_beq hzero), decide_eq_true hneg, decide_eq_true h]
    · rw [h, Int.zero_mul, hzero h]
      rfl
    · have hpos := Int.mul_pos h unitsPerOne_pos
      rw [if_neg fun hzero => Int.ne_of_gt hpos (eq_of_beq hzero), decide_eq_false (Int.lt_asymm hpos),
        decide_eq_false (Int.lt_asymm h)]
  unfold Binary64.add
  rw [(hNaN x hxfinite).1, (hNaN y hyfinite).1, (hNaN x hxfinite).2, (hNaN y hyfinite).2]
  simp only [Bool.or_self, Bool.false_eq_true, if_false, hsum, hsign]
  rw [ofInt, Int.natAbs_mul, Int.natAbs_natCast]

theorem isWhole_one : one.IsWhole 1 := by
  have h : one = ofInt 1 := by decide +kernel
  rw [h]
  exact isWhole_ofInt (by decide)

/-- Counting on from a whole number is counting integers. -/
theorem IsWhole.add_one (hx : x.IsWhole n) : x.add .one = ofInt (n + 1) :=
  hx.add isWhole_one fun _ => by rw [show one.isNegative = false by decide, Bool.and_false]

theorem ofNat_eq_ofInt (n : Nat) : ofNat n = ofInt n := by
  rw [ofNat, ofInt, Int.natAbs_natCast, decide_eq_false (by omega)]

theorem IsWhole.add_ofNat {k : Nat} (hx : x.IsWhole n) (hk : k < 2 ^ 53) : x.add (.ofNat k) = ofInt (n + k) := by
  have hbound : (k : Int).natAbs < 2 ^ 53 := by simpa using hk
  rw [ofNat_eq_ofInt]
  refine hx.add (isWhole_ofInt hbound) fun _ => ?_
  rw [isNegative_ofInt hbound, decide_eq_false (by omega), Bool.and_false]

/-- Adding one to an integer and taking it away again. -/
theorem sub_one_add_one (hn : n.natAbs + 1 < 2 ^ 53) : ((ofInt n).add .one).sub .one = ofInt n := by
  have hneg : one.neg = ofInt (-1) := by decide +kernel
  have hnext : (n + 1).natAbs < 2 ^ 53 := by omega
  rw [(isWhole_ofInt (by omega)).add_one, sub, hneg, (isWhole_ofInt hnext).add (isWhole_ofInt (by decide))]
  · rw [Int.add_neg_cancel_right]
  · intro hzero
    rw [isNegative_ofInt hnext, decide_eq_false (by omega), Bool.false_and]

end SchemaSplice.Binary64
