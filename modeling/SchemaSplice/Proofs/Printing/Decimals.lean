import Mathlib.Data.List.TakeWhile
import Mathlib.Tactic.Positivity
import Mathlib.Tactic.Ring
import SchemaSplice.Binary64.Written
import SchemaSplice.Proofs.Enums.Whole
/-!
# Printed numbers are decimals

Seventeen digits always suffice: a grid of seventeen digits is finer than the interval of reals that round to a number,
so one of the number's two neighbours on the grid lies inside. Hence the search for the shortest decimal ends with
digits, and what is printed of a finite number after its sign is a run of digits, or two of them around a point.
-/

namespace SchemaSplice

namespace Binary64

/-! ### Distances between neighbouring numbers -/

/-- How many units lie between the magnitude with a given code and the next one. -/
def gap (code : Nat) : Nat := 2 ^ (code / exponentWeight - 1)

section

variable {r : Nat} (q : Nat) (hr : r < exponentWeight)

include hr

theorem div_exponentWeight : (exponentWeight * q + r) / exponentWeight = q := by
  rw [Nat.mul_add_div (by decide), Nat.div_eq_of_lt hr, Nat.add_zero]

theorem gap_range : gap (exponentWeight * q + r) = 2 ^ (q - 1) := by
  rw [gap, div_exponentWeight q hr]

theorem unitsOfCode_small : unitsOfCode (exponentWeight * 0 + r) = r := by
  rw [Nat.mul_zero, Nat.zero_add, unitsOfCode, if_pos hr]

theorem unitsOfCode_range :
    unitsOfCode (exponentWeight * (q + 1) + r) = (exponentWeight + r) * 2 ^ q := by
  have hlarge : ¬exponentWeight * (q + 1) + r < exponentWeight := by
    rw [Nat.mul_succ]
    omega
  rw [unitsOfCode, if_neg hlarge, div_exponentWeight (q + 1) hr, Nat.mul_add_mod, Nat.mod_eq_of_lt hr, Nat.pow_eq,
    Nat.add_sub_cancel]

end

theorem unitsOfCode_succ (code : Nat) : unitsOfCode (code + 1) = unitsOfCode code + gap code := by
  obtain ⟨q, r, hr, rfl⟩ : ∃ q r, r < exponentWeight ∧ code = exponentWeight * q + r :=
    ⟨code / exponentWeight, code % exponentWeight, Nat.mod_lt _ (by decide), (Nat.div_add_mod _ _).symm⟩
  rw [gap_range q hr]
  by_cases hsame : r + 1 < exponentWeight
  · rw [Nat.add_assoc]
    cases q with
    | zero =>
      rw [unitsOfCode_small hsame, unitsOfCode_small hr]
      rfl
    | succ q =>
      rw [unitsOfCode_range q hsame, unitsOfCode_range q hr, Nat.add_sub_cancel, ← Nat.add_assoc, Nat.succ_mul]
  · -- The next magnitude is the first one whose gap is twice as wide.
    have hlast : r + 1 = exponentWeight := by omega
    have hnext : exponentWeight * q + r + 1 = exponentWeight * (q + 1) + 0 := by
      rw [Nat.mul_succ, Nat.add_assoc, hlast, Nat.add_zero]
    rw [hnext, unitsOfCode_range q (by decide), Nat.add_zero]
    cases q with
    | zero =>
      rw [unitsOfCode_small hr, pow_zero, Nat.mul_one, ← hlast]
    | succ q =>
      rw [unitsOfCode_range q hr, Nat.add_sub_cancel, ← Nat.succ_mul, Nat.succ_eq_add_one, Nat.add_assoc, hlast,
        ← Nat.two_mul, Nat.mul_comm 2, Nat.mul_assoc, ← Nat.pow_succ']

/-- A magnitude has at most 53 significant bits, so the numbers around it are not too near. -/
theorem unitsOfCode_lt_gaps {code : Nat} (h : 0 < code) :
    unitsOfCode code + exponentWeight * unitsOfCode (code - 1) < exponentWeight * unitsOfCode (code + 1) := by
  obtain ⟨c, rfl⟩ : ∃ c, code = c + 1 := ⟨code - 1, by omega⟩
  have hbound : unitsOfCode (c + 1) < exponentWeight * gap c + exponentWeight * gap (c + 1) := by
    obtain ⟨q, r, hr, hqr⟩ : ∃ q r, r < exponentWeight ∧ c + 1 = exponentWeight * q + r :=
      ⟨(c + 1) / exponentWeight, (c + 1) % exponentWeight, Nat.mod_lt _ (by decide), (Nat.div_add_mod _ _).symm⟩
    have hgap : 0 < exponentWeight * gap c := Nat.mul_pos (by decide) (Nat.two_pow_pos _)
    rw [hqr, gap_range q hr]
    cases r with
    | zero =>
      cases q with
      | zero => omega
      | succ q =>
        rw [unitsOfCode_range q hr, Nat.add_sub_cancel, Nat.add_zero]
        omega
    | succ r =>
      obtain rfl : c = exponentWeight * q + r := by omega
      rw [gap_range q (Nat.lt_of_succ_lt hr), ← Nat.mul_add, ← Nat.two_mul, ← Nat.mul_assoc]
      cases q with
      | zero =>
        rw [unitsOfCode_small hr, Nat.zero_sub, pow_zero]
        omega
      | succ q =>
        rw [unitsOfCode_range q hr, Nat.add_sub_cancel]
        exact Nat.mul_lt_mul_of_pos_right (by omega) (Nat.two_pow_pos q)
  rw [unitsOfCode_succ (c + 1), Nat.add_sub_cancel, Nat.mul_add]
  have hsucc := unitsOfCode_succ c
  have hmul := congrArg (exponentWeight * ·) hsucc
  simp only [Nat.mul_add] at hmul
  omega

/-! ### Neighbours on a grid -/

section

variable {code num den a : Nat} {e : Int}

/-- Whether the multiple `a` of the step `num / den` lies in the interval of reals that round to the number with a given
code. -/
def isInside (code num den a : Nat) : Bool :=
  let low := unitsOfCode code + unitsOfCode (code - 1)
  let high := unitsOfCode code + unitsOfCode (code + 1)
  let point := a * num
  if code % 2 == 0 then decide (low * den ≤ point) && decide (point ≤ high * den)
  else decide (low * den < point) && decide (point < high * den)

/-- The last multiple of a step that is not above the number with a given code. -/
def gridBelow (code num den : Nat) : Nat := 2 * unitsOfCode code * den / num

/-- What is found on a grid lies inside, and nothing is found only if both neighbours lie outside. -/
theorem nearestOnGrid?_spec (tie : Tie) (code : Nat) (hgrid : gridStep e = (num, den)) :
    (∃ a, nearestOnGrid? tie code e = some a ∧ isInside code num den a = true) ∨
      nearestOnGrid? tie code e = none ∧ isInside code num den (gridBelow code num den) = false ∧
        isInside code num den (gridBelow code num den + 1) = false := by
  unfold nearestOnGrid?
  rw [hgrid]
  dsimp only
  split
  · next hbelow habove =>
    left
    split
    · exact ⟨_, rfl, habove⟩
    · refine ⟨_, rfl, ?_⟩
      split
      · exact habove
      · exact hbelow
    · exact ⟨_, rfl, hbelow⟩
  · next hbelow _ => exact Or.inl ⟨_, rfl, hbelow⟩
  · next _ habove => exact Or.inl ⟨_, rfl, habove⟩
  · next hbelow habove => exact Or.inr ⟨rfl, hbelow, habove⟩

/-- What lies outside lies below or above. -/
theorem outside_of_isInside_eq_false (h : isInside code num den a = false) :
    a * num ≤ (unitsOfCode code + unitsOfCode (code - 1)) * den ∨
      (unitsOfCode code + unitsOfCode (code + 1)) * den ≤ a * num := by
  unfold isInside at h
  dsimp only at h
  split at h <;> simp only [Bool.and_eq_false_iff, decide_eq_false_iff_not] at h <;> omega

theorem isInside_zero (hcode : 0 < unitsOfCode code) (hden : 0 < den) (num : Nat) : isInside code num den 0 = false := by
  have hlow : 0 < (unitsOfCode code + unitsOfCode (code - 1)) * den := Nat.mul_pos (Nat.add_pos_left hcode _) hden
  unfold isInside
  simp only [Nat.zero_mul]
  split
  · rw [decide_eq_false (Nat.not_le_of_lt hlow), Bool.false_and]
  · rw [decide_eq_false (Nat.not_lt_of_le (Nat.zero_le _)), Bool.false_and]

/-- What is found for a positive number is positive. -/
theorem ne_zero_of_nearestOnGrid? {tie : Tie} (hcode : 0 < unitsOfCode code)
    (h : nearestOnGrid? tie code e = some a) : a ≠ 0 := by
  obtain ⟨num, den, hgrid, hden⟩ : ∃ num den, gridStep e = (num, den) ∧ 0 < den :=
    ⟨_, _, rfl, Nat.pow_pos (by decide)⟩
  rcases nearestOnGrid?_spec tie code hgrid with ⟨b, hb, hinside⟩ | ⟨hnone, -⟩
  · rw [h, Option.some.injEq] at hb
    subst hb
    rintro rfl
    rw [isInside_zero hcode hden] at hinside
    cases hinside
  · rw [h] at hnone
    cases hnone

/-- Nothing is missed on a grid that is finer than the interval. -/
theorem exists_nearestOnGrid? (tie : Tie) (hgrid : gridStep e = (num, den)) (hnum : 0 < num) (hden : 0 < den)
    (hlow : unitsOfCode (code - 1) < unitsOfCode code) (hhigh : unitsOfCode code < unitsOfCode (code + 1))
    (hfine : num + unitsOfCode (code - 1) * den < unitsOfCode (code + 1) * den) :
    ∃ a, nearestOnGrid? tie code e = some a ∧ isInside code num den a = true := by
  refine (nearestOnGrid?_spec tie code hgrid).resolve_right ?_
  rintro ⟨-, hbelow, habove⟩
  have hbelow := outside_of_isInside_eq_false hbelow
  have habove := outside_of_isInside_eq_false habove
  have htarget : gridBelow code num den * num ≤ 2 * unitsOfCode code * den := Nat.div_mul_le_self _ _
  have htarget' : 2 * unitsOfCode code * den < (gridBelow code num den + 1) * num := by
    have hlt := Nat.lt_mul_div_succ (2 * unitsOfCode code * den) hnum
    rwa [Nat.mul_comm num] at hlt
  have hlow' := Nat.mul_lt_mul_of_pos_right hlow hden
  have hhigh' := Nat.mul_lt_mul_of_pos_right hhigh hden
  simp only [Nat.two_mul, Nat.add_mul, Nat.one_mul] at hbelow habove htarget htarget'
  omega

end

/-! ### Seventeen digits -/

/-- The leading power of ten is at most the number itself. -/
theorem leadingExponent_le {units : Nat} (h : 0 < units) :
    10 ^ (leadingExponent units).toNat * unitsPerOne ≤ units * 10 ^ (-leadingExponent units).toNat := by
  have hone : 0 < unitsPerOne := Int.natCast_pos.mp unitsPerOne_pos
  unfold leadingExponent
  generalize unitsPerOne = one at hone
  split
  · obtain ⟨k, hk⟩ : ∃ k, (Decimal.digitsOf (units / one)).length = k + 1 :=
      ⟨_, (Nat.succ_pred_eq_of_pos Nat.length_toDigits_pos).symm⟩
    have hpow : 10 ^ k ≤ units / one := by
      cases k with
      | zero => exact Nat.div_pos ‹_› hone
      | succ k =>
        have hlength := mt (Nat.length_toDigits_le_iff (b := 10) (n := units / one) (by decide) (Nat.succ_pos k)).mpr
          (by rw [← Decimal.digitsOf, hk]; omega)
        exact Nat.le_of_not_lt hlength
    rw [hk, show ((k + 1 : Nat) : Int) - 1 = k by omega, Int.toNat_natCast, Int.toNat_neg_natCast, pow_zero, Nat.mul_one]
    exact Nat.le_trans (Nat.mul_le_mul_right one hpow) (Nat.div_mul_le_self _ _)
  · have hlength := (Nat.length_toDigits_le_iff (b := 10) (n := one / units) (by decide) Nat.length_toDigits_pos).mp
      (Nat.le_refl _)
    rw [← Decimal.digitsOf] at hlength
    rw [Int.neg_neg, Int.toNat_natCast, Int.toNat_neg_natCast, pow_zero, Nat.one_mul]
    exact Nat.le_trans (Nat.le_of_lt (Nat.lt_mul_div_succ one h)) (Nat.mul_le_mul_left units hlength)

/-- On the grid of seventeen digits, one of the neighbours of a positive number lies inside. -/
theorem exists_seventeen_digits (tie : Tie) {code : Nat} (h : 0 < code) :
    ∃ a, nearestOnGrid? tie code (leadingExponent (unitsOfCode code) + 1 - (17 : Nat)) = some a := by
  obtain ⟨c, rfl⟩ : ∃ c, code = c + 1 := ⟨code - 1, by omega⟩
  have hlow : unitsOfCode c < unitsOfCode (c + 1) := by
    rw [unitsOfCode_succ]
    exact Nat.lt_add_of_pos_right (Nat.two_pow_pos _)
  have hhigh : unitsOfCode (c + 1) < unitsOfCode (c + 1 + 1) := by
    rw [unitsOfCode_succ (c + 1)]
    exact Nat.lt_add_of_pos_right (Nat.two_pow_pos _)
  have hleading := leadingExponent_le (Nat.zero_lt_of_lt hlow)
  have hgaps := unitsOfCode_lt_gaps (Nat.succ_pos c)
  rw [Nat.succ_eq_add_one, Nat.add_sub_cancel] at hgaps
  generalize leadingExponent (unitsOfCode (c + 1)) = l at hleading
  obtain ⟨e, he⟩ : ∃ e : Int, l + 1 - (17 : Nat) = e := ⟨_, rfl⟩
  have hnum : (gridStep e).1 = 10 ^ e.toNat * (2 * unitsPerOne) := rfl
  have hden : (gridStep e).2 = 10 ^ (-e).toNat := rfl
  have hone : 0 < unitsPerOne := Int.natCast_pos.mp unitsPerOne_pos
  rw [he]
  generalize hgrid : gridStep e = step at hnum hden
  obtain ⟨num, den⟩ := step
  dsimp only at hnum hden
  generalize unitsPerOne = one at hnum hleading hone
  have hdenPos : 0 < den := hden ▸ Nat.pow_pos (by decide)
  -- The step is the leading power of ten divided by `10 ^ 16`.
  have hstep : num * 10 ^ 16 * 10 ^ (-l).toNat = 2 * (10 ^ l.toNat * one) * den := by
    have hexp : e.toNat + 16 + (-l).toNat = l.toNat + (-e).toNat := by omega
    calc num * 10 ^ 16 * 10 ^ (-l).toNat = 2 * one * 10 ^ (e.toNat + 16 + (-l).toNat) := by rw [hnum]; ring
      _ = 2 * (10 ^ l.toNat * one) * den := by rw [hexp, hden]; ring
  have hcoarse : num * 10 ^ 16 ≤ 2 * unitsOfCode (c + 1) * den := by
    refine Nat.le_of_mul_le_mul_right ?_ (Nat.pow_pos (by decide : 0 < 10) : 0 < 10 ^ (-l).toNat)
    calc num * 10 ^ 16 * 10 ^ (-l).toNat = 2 * (10 ^ l.toNat * one) * den := hstep
      _ ≤ 2 * (unitsOfCode (c + 1) * 10 ^ (-l).toNat) * den :=
        Nat.mul_le_mul_right den (Nat.mul_le_mul_left 2 hleading)
      _ = 2 * unitsOfCode (c + 1) * den * 10 ^ (-l).toNat := by ring
  have hfine : num + unitsOfCode c * den < unitsOfCode (c + 1 + 1) * den := by
    have hgaps' := Nat.mul_lt_mul_of_pos_right hgaps hdenPos
    unfold exponentWeight at hgaps'
    rw [Nat.add_mul, Nat.mul_assoc _ (unitsOfCode c), Nat.mul_assoc _ (unitsOfCode (c + 1 + 1))] at hgaps'
    rw [Nat.mul_assoc] at hcoarse
    omega
  have hlow' : unitsOfCode (c + 1 - 1) < unitsOfCode (c + 1) := hlow
  obtain ⟨a, ha, -⟩ := exists_nearestOnGrid? tie hgrid (hnum ▸ by positivity) hdenPos hlow' hhigh hfine
  exact ⟨a, ha⟩

/-! ### The shortest decimal has digits -/

theorem ofDigitChars_of_zeros {ds : List Char} (h : ∀ c ∈ ds, c = '0') : Nat.ofDigitChars 10 ds 0 = 0 := by
  induction ds with
  | nil => rfl
  | cons c ds ih =>
    rw [Nat.ofDigitChars_cons, h c List.mem_cons_self]
    exact ih fun d hd => h d (List.mem_cons_of_mem _ hd)

theorem trimZeros_digitsOf_ne_nil {a : Nat} (h : a ≠ 0) : Decimal.trimZeros (Decimal.digitsOf a) ≠ [] := by
  intro hnil
  have hzeros : ∀ c ∈ Decimal.digitsOf a, c = '0' := by
    intro c hc
    rw [Decimal.trimZeros, List.reverse_eq_nil_iff, List.dropWhile_eq_nil_iff] at hnil
    exact beq_iff_eq.mp (hnil c (List.mem_reverse.mpr hc))
  have hvalue := @Nat.ofDigitChars_toDigits 10 a (by decide) (by decide)
  rw [← Decimal.digitsOf, ofDigitChars_of_zeros hzeros] at hvalue
  exact h hvalue.symm

/-- The search ends with digits when a neighbour lies inside on one of the grids that are tried. -/
theorem shortestFrom_digits_ne_nil {tie : Tie} {code : Nat} {leading : Int} (hcode : 0 < unitsOfCode code)
    {count tries k : Nat} (hk : k < tries)
    (h : ∃ a, nearestOnGrid? tie code (leading + 1 - (count + k : Nat)) = some a) :
    (shortestFrom tie code leading count tries).digits ≠ [] := by
  fun_induction shortestFrom tie code leading count tries generalizing k with
  | case1 => omega
  | case2 count tries a ha => exact trimZeros_digitsOf_ne_nil (ne_zero_of_nearestOnGrid? hcode ha)
  | case3 count tries hnone ih =>
    cases k with
    | zero =>
      obtain ⟨a, ha⟩ := h
      rw [Nat.add_zero, hnone] at ha
      cases ha
    | succ k =>
      refine ih (Nat.lt_of_succ_lt_succ hk) ?_
      rwa [Nat.add_assoc, Nat.add_comm 1]

theorem unitsOfCode_pos {code : Nat} (h : 0 < code) : 0 < unitsOfCode code := by
  obtain ⟨c, rfl⟩ : ∃ c, code = c + 1 := ⟨code - 1, by omega⟩
  rw [unitsOfCode_succ]
  exact Nat.add_pos_right _ (Nat.two_pow_pos _)

theorem shortestFrom_digits (tie : Tie) (code : Nat) (leading : Int) (count tries : Nat) :
    ∀ c ∈ (shortestFrom tie code leading count tries).digits, c.isDigit = true := by
  fun_induction shortestFrom tie code leading count tries with
  | case1 => simp
  | case2 count tries a _ ds =>
    intro c hc
    have hmem : c ∈ ds := by
      have hdrop := (List.dropWhile_sublist (· == '0') (l := ds.reverse)).mem (List.mem_reverse.mp hc)
      exact List.mem_reverse.mp hdrop
    exact Nat.isDigit_of_mem_toDigits (by decide) (by decide) hmem
  | case3 _ _ _ ih => exact ih

/-- Only zero has no digits. -/
theorem shortest_digits_ne_nil (tie : Tie) {x : Binary64} (h : 0 < x.code) : (x.shortest tie).digits ≠ [] := by
  rw [shortest, if_neg (by simpa using Nat.ne_of_gt h)]
  exact shortestFrom_digits_ne_nil (k := 16) (unitsOfCode_pos h) (by decide) (exists_seventeen_digits tie h)

/-! ### The positional layout -/

end Binary64

/-- A run of digits, or two of them around a point. -/
inductive IsDecimal : List Char → Prop
  | whole {ds : List Char} (hne : ds ≠ []) (hds : ∀ c ∈ ds, c.isDigit = true) : IsDecimal ds
  | pointed {ds fs : List Char} (hne : ds ≠ []) (hds : ∀ c ∈ ds, c.isDigit = true) (hfne : fs ≠ [])
      (hfs : ∀ c ∈ fs, c.isDigit = true) : IsDecimal (ds ++ '.' :: fs)

theorem isDigit_of_mem_replicate {n : Nat} {c : Char} (h : c ∈ List.replicate n '0') : c.isDigit = true := by
  rw [(List.mem_replicate.mp h).2]
  rfl

/-- A decimal below one needs digits to be written by its position. -/
theorem Decimal.isDecimal_positional {d : Decimal} (hdigits : ∀ c ∈ d.digits, c.isDigit = true)
    (hne : d.exponent < 0 → d.digits ≠ []) : IsDecimal d.positional := by
  unfold Decimal.positional
  split
  · next hsmall =>
    have hzeros : ∀ c ∈ List.replicate (-d.exponent - 1).toNat '0' ++ d.digits, c.isDigit = true := by
      intro c hc
      exact (List.mem_append.mp hc).elim isDigit_of_mem_replicate (hdigits c)
    have hpointed := @IsDecimal.pointed ['0'] _ (by simp) (by simp) (by simp [hne hsmall]) hzeros
    simpa using hpointed
  · dsimp only
    generalize hn : d.exponent.toNat + 1 = n
    have hfront : ∀ c ∈ d.digits.take n ++ List.replicate (n - (d.digits.take n).length) '0', c.isDigit = true := by
      intro c hc
      exact (List.mem_append.mp hc).elim (fun hc => hdigits c (List.mem_of_mem_take hc)) isDigit_of_mem_replicate
    have hfne : d.digits.take n ++ List.replicate (n - (d.digits.take n).length) '0' ≠ [] := by
      rw [← List.length_pos_iff, List.length_append, List.length_replicate]
      omega
    split
    · rw [List.append_nil]
      exact .whole hfne hfront
    · next hback =>
      exact .pointed hfne hfront (by simpa using hback) fun c hc => hdigits c (List.mem_of_mem_drop hc)

namespace Binary64

/-- The digits of a finite number: what is printed of it after its sign. -/
def magnitude (x : Binary64) : List Char := (x.shortest .up).positional

theorem isDecimal_magnitude (x : Binary64) : IsDecimal x.magnitude := by
  by_cases hzero : x.code = 0
  · rw [magnitude, shortest, if_pos (by simpa using hzero)]
    exact Decimal.isDecimal_positional (by simp) (fun h => absurd h (by decide))
  · have hpos := Nat.pos_of_ne_zero hzero
    refine Decimal.isDecimal_positional ?_ fun _ => shortest_digits_ne_nil .up hpos
    rw [shortest, if_neg (by simpa using hzero)]
    exact shortestFrom_digits _ _ _ _ _

end Binary64

end SchemaSplice
