import SchemaSplice.Proofs.Splice.Pairs
/-!
# Matching is local

Whether two brackets are matched depends only on the tokens from one to the other. What is cut off before the first one only
changes the indices, and what is cut off after the second one changes nothing. Brackets around a balanced sequence
are matched with each other wherever they stand.
-/

namespace SchemaSplice.Source

variable {i j o c : Nat} {stack below : List OpenBracket} {ks ks' : List Kind} {p : Nat × Nat}

/-! ### Balanced sequences -/

/-- A sequence of kinds whose brackets match. -/
inductive Balanced : List Kind → Prop
  | nil : Balanced []
  | plain {k : Kind} {ks : List Kind} (hopens : k.opens = false) (hcloses : k.closes = false) (h : Balanced ks) :
      Balanced (k :: ks)
  | between {o c : Kind} {ks ks' : List Kind} (hoc : o.closer? = some c) (h : Balanced ks) (h' : Balanced ks') :
      Balanced (o :: (ks ++ c :: ks'))

theorem Balanced.append (h : Balanced ks) (h' : Balanced ks') : Balanced (ks ++ ks') := by
  induction h with
  | nil => exact h'
  | plain hopens hcloses _ ih => exact .plain hopens hcloses ih
  | between hoc h _ _ ih =>
    rw [List.cons_append, List.append_assoc, List.cons_append]
    exact .between hoc h ih

theorem Balanced.significant (h : Balanced ks) : Balanced (ks.filter (!·.isComment)) := by
  induction h with
  | nil => exact .nil
  | @plain k ks hopens hcloses _ ih =>
    by_cases hk : k.isComment = true
    · rw [List.filter_cons_of_neg (by simp [hk])]
      exact ih
    · rw [List.filter_cons_of_pos (by simpa using hk)]
      exact .plain hopens hcloses ih
  | @between o c ks ks' hoc _ _ ih ih' =>
    have hbrackets : o.isComment = false ∧ c.isComment = false := by
      cases o <;> cases hoc <;> exact ⟨rfl, rfl⟩
    rw [List.filter_cons_of_pos (by simp [hbrackets.1]), List.filter_append,
      List.filter_cons_of_pos (by simp [hbrackets.2])]
    exact .between hoc ih ih'

/-! ### Pairs of a balanced sequence -/

theorem pairsFrom_open {o : Kind} (ho : o.opens = true) (i : Nat) (stack : List OpenBracket) (ks : List Kind) :
    pairsFrom i stack (o :: ks) = pairsFrom (i + 1) (⟨i, o⟩ :: stack) ks := by
  rw [pairsFrom, if_pos ho]

theorem pairsFrom_close {o c : Kind} (hoc : o.closer? = some c) (j i : Nat) (stack : List OpenBracket) (ks : List Kind) :
    pairsFrom i (⟨j, o⟩ :: stack) (c :: ks) = (j, i) :: pairsFrom (i + 1) stack ks := by
  have hcloses := Kind.closes_of_closer? hoc
  rw [pairsFrom, if_neg (by simp [Kind.opens_eq_false_of_closes hcloses]), if_pos hcloses,
    List.dropWhile_cons_of_neg (by simp [hoc])]

/-- The brackets of a balanced sequence are matched with each other, and those open before stay open. -/
theorem pairsFrom_balanced (h : Balanced ks) (i : Nat) (stack : List OpenBracket) (ks' : List Kind) :
    ∃ ps, (∀ p ∈ ps, i ≤ p.1 ∧ p.1 < i + ks.length) ∧
      pairsFrom i stack (ks ++ ks') = ps ++ pairsFrom (i + ks.length) stack ks' := by
  induction h generalizing i stack ks' with
  | nil => exact ⟨[], by simp, rfl⟩
  | @plain k ks hopens hcloses _ ih =>
    obtain ⟨ps, hbounds, hps⟩ := ih (i + 1) stack ks'
    refine ⟨ps, fun p hp => ?_, ?_⟩
    · have := hbounds p hp
      rw [List.length_cons]
      omega
    · rw [List.cons_append, pairsFrom, if_neg (by simp [hopens]), if_neg (by simp [hcloses]), hps, List.length_cons,
        Nat.add_right_comm, Nat.add_assoc]
  | @between o c ks ms hoc _ _ ih ih' =>
    obtain ⟨ps, hbounds, hps⟩ := ih (i + 1) (⟨i, o⟩ :: stack) (c :: (ms ++ ks'))
    obtain ⟨ps', hbounds', hps'⟩ := ih' (i + 1 + ks.length + 1) stack ks'
    have hlength : i + 1 + ks.length + 1 + ms.length = i + (o :: (ks ++ c :: ms)).length := by
      simp only [List.length_append, List.length_cons]
      omega
    rw [hlength] at hps' hbounds'
    refine ⟨ps ++ (i, i + 1 + ks.length) :: ps', fun p hp => ?_, ?_⟩
    · rcases List.mem_append.mp hp with hp | hp
      · have := hbounds p hp
        omega
      rcases List.mem_cons.mp hp with rfl | hp
      · exact ⟨Nat.le_refl i, by omega⟩
      · have := hbounds' p hp
        omega
    · simp only [List.cons_append, List.append_assoc]
      rw [pairsFrom_open (by simp [Kind.opens, hoc]), hps, pairsFrom_close hoc, hps']

/-! ### What stands before and after -/

/-- The pairs of a sequence come first, whatever stands after it. -/
theorem pairsFrom_append (hstack : OpenBefore i stack) (ks : List Kind) :
    ∃ stack', OpenBefore (i + ks.length) stack' ∧
      ∀ ks', pairsFrom i stack (ks ++ ks') = pairsFrom i stack ks ++ pairsFrom (i + ks.length) stack' ks' := by
  induction ks generalizing i stack with
  | nil => exact ⟨stack, hstack, fun _ => rfl⟩
  | cons k ks ih =>
    have hnext : i + 1 + ks.length = i + (k :: ks).length := by
      rw [List.length_cons]
      omega
    simp only [List.cons_append, pairsFrom, ← hnext]
    split
    · exact ih (hstack.push k)
    split
    · have hdropped := List.dropWhile_sublist (l := stack) fun b => b.kind.closer? != some k
      split
      · exact ih (.nil (i + 1))
      · next b rest hrest =>
        rw [hrest] at hdropped
        obtain ⟨stack', hstack', hpairs⟩ := ih (hstack.sublist ((List.sublist_cons_self b rest).trans hdropped)).skip
        exact ⟨stack', hstack', fun ks' => by rw [hpairs, List.cons_append]⟩
    · exact ih hstack.skip

/-- Brackets that were opened before token `j` have no part in pairs that open later. -/
theorem mem_pairsFrom_below (hbelow : ∀ b ∈ below, b.index < j) (hp : j ≤ p.1) :
    p ∈ pairsFrom i (stack ++ below) ks ↔ p ∈ pairsFrom i stack ks := by
  induction ks generalizing i stack below with
  | nil => exact Iff.rfl
  | cons k ks ih =>
    rw [pairsFrom, pairsFrom]
    split
    · rw [← List.cons_append]
      exact ih hbelow
    split
    · cases hown : stack.dropWhile (fun b => b.kind.closer? != some k) with
      | cons b rest =>
        have hboth : (stack ++ below).dropWhile (fun b => b.kind.closer? != some k) = b :: (rest ++ below) := by
          rw [List.dropWhile_append, hown]
          rfl
        rw [hboth]
        simp only [List.mem_cons]
        rw [ih hbelow]
      | nil =>
        -- The bracket closes none of the later ones, so it discards them all.
        have hboth : (stack ++ below).dropWhile (fun b => b.kind.closer? != some k) =
            below.dropWhile (fun b => b.kind.closer? != some k) := by
          rw [List.dropWhile_append, hown]
          rfl
        rw [hboth]
        have hdropped := List.dropWhile_sublist (l := below) fun b => b.kind.closer? != some k
        cases hrest : below.dropWhile (fun b => b.kind.closer? != some k) with
        | nil => exact Iff.rfl
        | cons b rest =>
          rw [hrest] at hdropped
          have hne : p ≠ (b.index, i) := by
            rintro rfl
            have := hbelow b (hdropped.mem List.mem_cons_self)
            exact absurd this (Nat.not_lt_of_le hp)
          simp only [List.mem_cons, hne, false_or]
          have hkept : p ∈ pairsFrom (i + 1) ([] ++ rest) ks ↔ p ∈ pairsFrom (i + 1) [] ks :=
            ih fun b' hb' => hbelow b' (hdropped.mem (List.mem_cons_of_mem _ hb'))
          exact hkept
    · exact ih hbelow

/-- An open bracket with another index. -/
def OpenBracket.renamed (ρ : Nat → Nat) (b : OpenBracket) : OpenBracket := ⟨ρ b.index, b.kind⟩

/-- Tokens that are counted from another number on change their indices in the pairs, and so do the open brackets. -/
theorem pairsFrom_renamed {ρ : Nat → Nat} {n : Nat} (hρ : ∀ k, i ≤ k → ρ k = n + k) (stack : List OpenBracket)
    (ks : List Kind) :
    pairsFrom (n + i) (stack.map (OpenBracket.renamed ρ)) ks = (pairsFrom i stack ks).map fun p => (ρ p.1, ρ p.2) := by
  induction ks generalizing i stack with
  | nil => rfl
  | cons k ks ih =>
    have hnext : ∀ k, i + 1 ≤ k → ρ k = n + k := fun k hk => hρ k (Nat.le_of_succ_le hk)
    have hi : ρ i = n + i := hρ i (Nat.le_refl i)
    rw [pairsFrom, pairsFrom]
    split
    · have hpush : (⟨n + i, k⟩ :: stack.map (OpenBracket.renamed ρ) : List OpenBracket) =
          (⟨i, k⟩ :: stack : List OpenBracket).map (OpenBracket.renamed ρ) := by
        rw [List.map_cons, OpenBracket.renamed, hi]
      rw [hpush]
      exact ih hnext _
    split
    · have hdropped : (stack.map (OpenBracket.renamed ρ)).dropWhile (fun b => b.kind.closer? != some k) =
          (stack.dropWhile fun b => b.kind.closer? != some k).map (OpenBracket.renamed ρ) := List.dropWhile_map ..
      rw [hdropped]
      cases stack.dropWhile fun b => b.kind.closer? != some k with
      | nil => exact ih hnext []
      | cons b rest =>
        simp only [List.map_cons, hi]
        rw [← ih hnext rest]
        rfl
    · exact ih hnext stack

/-- An open bracket, counted from an earlier token on. -/
def OpenBracket.later (n : Nat) (b : OpenBracket) : OpenBracket := ⟨n + b.index, b.kind⟩

theorem pairsFrom_later (n i : Nat) (stack : List OpenBracket) (ks : List Kind) :
    pairsFrom (n + i) (stack.map (OpenBracket.later n)) ks =
      (pairsFrom i stack ks).map fun p => (n + p.1, n + p.2) :=
  pairsFrom_renamed (fun _ _ => rfl) stack ks

/-! ### Partners -/

theorem size_foldl_enterPair (ps : List (Nat × Nat)) (table : Array (Option Nat)) :
    (ps.foldl enterPair table).size = table.size := by
  induction ps generalizing table with
  | nil => rfl
  | cons p ps ih => rw [List.foldl_cons, ih, enterPair, Array.size_setIfInBounds, Array.size_setIfInBounds]

theorem getElem?_foldl_enterPair {ps : List (Nat × Nat)} {i : Nat} (h : ∀ p ∈ ps, p.1 ≠ i ∧ p.2 ≠ i)
    (table : Array (Option Nat)) : (ps.foldl enterPair table)[i]? = table[i]? := by
  induction ps generalizing table with
  | nil => rfl
  | cons p ps ih =>
    have hp := h p List.mem_cons_self
    rw [List.foldl_cons, ih (fun q hq => h q (List.mem_cons_of_mem _ hq)), enterPair,
      Array.getElem?_setIfInBounds_ne hp.2, Array.getElem?_setIfInBounds_ne hp.1]

/-- No later pair touches the two sides of a pair. -/
theorem getElem?_partnerTable_of_mem_pairs {ks : List Kind} {i j : Nat} (h : (i, j) ∈ pairs ks) (n : Nat) :
    ∃ table : Array (Option Nat), table.size = n ∧
      ∀ k, k = i ∨ k = j → (partnerTable n (pairs ks))[k]? = (enterPair table (i, j))[k]? := by
  have hbounds : ∀ {p : Nat × Nat}, p ∈ pairs ks → p.1 < p.2 := fun hp => (bounds_of_mem_pairsFrom (.nil 0) hp).1
  have hsorted : (pairs ks).Pairwise ClosesAfter := pairsFrom_pairwise (.nil 0)
  obtain ⟨front, back, hpairs⟩ := List.append_of_mem h
  have hlt := hbounds h
  have hlater : ∀ q ∈ back, ∀ k, k = i ∨ k = j → q.1 ≠ k ∧ q.2 ≠ k := by
    intro q hq k hk
    rw [hpairs, List.pairwise_append, List.pairwise_cons] at hsorted
    have hafter := hsorted.2.1.1 q hq
    have hq' := hbounds (p := q) (by rw [hpairs]; simp [hq])
    unfold ClosesAfter at hafter
    omega
  refine ⟨front.foldl enterPair (Array.replicate n none), ?_, fun k hk => ?_⟩
  · rw [size_foldl_enterPair, Array.size_replicate]
  · rw [partnerTable, hpairs, List.foldl_append, List.foldl_cons,
      getElem?_foldl_enterPair fun q hq => hlater q hq k hk]

theorem partnerTable_of_mem_pairs {ks : List Kind} {n i j : Nat} (h : (i, j) ∈ pairs ks) (hi : i < n) :
    (partnerTable n (pairs ks))[i]? = some (some j) := by
  obtain ⟨table, hsize, htable⟩ := getElem?_partnerTable_of_mem_pairs h n
  have hlt : i < j := (bounds_of_mem_pairsFrom (.nil 0) h).1
  rw [htable i (Or.inl rfl), enterPair, Array.getElem?_setIfInBounds_ne (Nat.ne_of_gt hlt),
    Array.getElem?_setIfInBounds_self_of_lt (by omega)]

theorem partnerTable_of_mem_pairs_closing {ks : List Kind} {n i j : Nat} (h : (i, j) ∈ pairs ks) (hj : j < n) :
    (partnerTable n (pairs ks))[j]? = some (some i) := by
  obtain ⟨table, hsize, htable⟩ := getElem?_partnerTable_of_mem_pairs h n
  rw [htable j (Or.inr rfl), enterPair, Array.getElem?_setIfInBounds_self_of_lt]
  rw [Array.size_setIfInBounds]
  omega

/-! ### Matched brackets -/

theorem lt_of_mem_pairs (h : (o, c) ∈ pairs ks) : o < c ∧ c < ks.length := by
  obtain ⟨-, k, -, hk, -⟩ := closer?_of_mem_pairsFrom rfl (by simp) h
  exact ⟨(bounds_of_mem_pairsFrom (.nil 0) h).1, (List.getElem?_eq_some_iff.mp hk).1⟩

/-- What stands after two brackets does not matter to them. -/
theorem mem_pairs_append_left (hc : c < ks.length) : (o, c) ∈ pairs (ks ++ ks') ↔ (o, c) ∈ pairs ks := by
  obtain ⟨stack', hstack', hpairs⟩ := pairsFrom_append (.nil 0) ks
  rw [pairs, hpairs, List.mem_append, or_iff_left]
  · rfl
  · intro h
    have := (bounds_of_mem_pairsFrom hstack' h).2.1
    simp only at this
    omega

/-- What stands before two brackets only changes their indices. -/
theorem mem_pairs_append_right :
    (ks.length + o, ks.length + c) ∈ pairs (ks ++ ks') ↔ (o, c) ∈ pairs ks' := by
  obtain ⟨stack', hstack', hpairs⟩ := pairsFrom_append (.nil 0) ks
  rw [Nat.zero_add] at hstack' hpairs
  have hnone : (ks.length + o, ks.length + c) ∉ pairsFrom 0 [] ks := by
    intro h
    have := (lt_of_mem_pairs h).2
    omega
  have hlater := pairsFrom_later ks.length 0 [] ks'
  rw [Nat.add_zero, List.map_nil] at hlater
  rw [pairs, hpairs, List.mem_append, or_iff_right hnone, ← List.nil_append stack',
    mem_pairsFrom_below hstack'.before (Nat.le_add_right _ _), hlater, List.mem_map]
  constructor
  · rintro ⟨⟨o', c'⟩, h, heq⟩
    obtain ⟨ho, hc⟩ := Prod.mk.inj heq
    obtain rfl := Nat.add_left_cancel ho
    obtain rfl := Nat.add_left_cancel hc
    exact h
  · exact fun h => ⟨(o, c), h, rfl⟩

/-- Brackets around a balanced sequence are matched. -/
theorem mem_pairs_of_balanced (front back : List Kind) {o c : Kind} (hoc : o.closer? = some c) (h : Balanced ks) :
    (front.length, front.length + 1 + ks.length) ∈ pairs (front ++ o :: (ks ++ c :: back)) := by
  obtain ⟨ps, -, hinside⟩ := pairsFrom_balanced h 1 [⟨0, o⟩] (c :: back)
  rw [← Nat.add_zero front.length, Nat.add_assoc, Nat.add_assoc, mem_pairs_append_right, pairs,
    pairsFrom_open (by simp [Kind.opens, hoc]), hinside, pairsFrom_close hoc]
  simp

/-! ### Insertions -/

/-- The index of a token after `m` tokens were inserted before token `n`. -/
def pastInsertion (n m i : Nat) : Nat := if i < n then i else m + i

theorem pastInsertion_of_lt {n m : Nat} (h : i < n) : pastInsertion n m i = i := if_pos h

theorem pastInsertion_of_le {n m : Nat} (h : n ≤ i) : pastInsertion n m i = m + i := if_neg (Nat.not_lt_of_le h)

theorem pastInsertion_injective (n m : Nat) : Function.Injective (pastInsertion n m) := by
  intro i j h
  unfold pastInsertion at h
  split at h <;> split at h <;> omega

/-- Brackets are matched across a balanced insertion as they were without it, and never with inserted ones. -/
theorem mem_pairs_insert {ins : List Kind} (h : Balanced ins) :
    (pastInsertion ks.length ins.length o, c) ∈ pairs (ks ++ (ins ++ ks')) ↔
      ∃ c', (o, c') ∈ pairs (ks ++ ks') ∧ pastInsertion ks.length ins.length c' = c := by
  obtain ⟨stack, hstack, hpairs⟩ := pairsFrom_append (.nil 0) ks
  rw [Nat.zero_add] at hstack hpairs
  obtain ⟨ps, hbounds, hinside⟩ := pairsFrom_balanced h ks.length stack ks'
  have hkept : stack.map (OpenBracket.renamed (pastInsertion ks.length ins.length)) = stack := by
    refine (List.map_congr_left fun b hb => ?_).trans (List.map_id stack)
    rw [OpenBracket.renamed, pastInsertion_of_lt (hstack.before b hb)]
    rfl
  have hpast : ∀ i, ks.length ≤ i → pastInsertion ks.length ins.length i = ins.length + i :=
    fun _ => pastInsertion_of_le
  have hlater := pairsFrom_renamed hpast stack ks'
  rw [hkept, Nat.add_comm] at hlater
  have hfront : ∀ o c, (o, c) ∈ pairsFrom 0 [] ks → o < ks.length ∧ c < ks.length := by
    intro o c hmem
    have := lt_of_mem_pairs hmem
    omega
  have hnone : (pastInsertion ks.length ins.length o, c) ∉ ps := by
    intro hmem
    have := hbounds _ hmem
    unfold pastInsertion at this
    simp only at this
    split at this <;> omega
  rw [pairs, pairs, hpairs, hpairs, hinside, hlater]
  simp only [List.mem_append, hnone, false_or, List.mem_map, Prod.mk.injEq, Prod.exists]
  constructor
  · rintro (hmem | ⟨o', c', hmem, ho, rfl⟩)
    · obtain ⟨ho, hc⟩ := hfront _ _ hmem
      have hlt : o < ks.length := by
        unfold pastInsertion at ho
        split at ho <;> omega
      rw [pastInsertion_of_lt hlt] at hmem
      exact ⟨c, Or.inl hmem, pastInsertion_of_lt hc⟩
    · obtain rfl := pastInsertion_injective _ _ ho
      exact ⟨c', Or.inr hmem, rfl⟩
  · rintro ⟨c', hmem | hmem, rfl⟩
    · obtain ⟨ho, hc⟩ := hfront _ _ hmem
      rw [pastInsertion_of_lt ho, pastInsertion_of_lt hc]
      exact Or.inl hmem
    · exact Or.inr ⟨o, c', hmem, rfl, rfl⟩

end SchemaSplice.Source
