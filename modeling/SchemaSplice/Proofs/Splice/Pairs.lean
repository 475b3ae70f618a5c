import Mathlib.Data.List.Pairwise
import SchemaSplice.Source.Brackets
/-!
# Pairs of brackets

A pair consists of an opening bracket and the closing one of its kind. Pairs come in the order in which they are closed, and
of two pairs one holds the other or they stand apart.
-/

namespace SchemaSplice.Source

/-! ### Kinds of pairs -/

theorem closer?_of_mem_pairsFrom {kinds : List Kind} {i : Nat} {stack : List OpenBracket} {ks : List Kind}
    (hks : ks = kinds.drop i) (hstack : ∀ b ∈ stack, kinds[b.index]? = some b.kind) {o c : Nat}
    (h : (o, c) ∈ pairsFrom i stack ks) :
    ∃ k k', kinds[o]? = some k ∧ kinds[c]? = some k' ∧ k.closer? = some k' := by
  induction ks generalizing i stack with
  | nil => cases h
  | cons k ks ih =>
    have hk : kinds[i]? = some k := by
      rw [← Nat.add_zero i, ← List.getElem?_drop, ← hks]
      rfl
    have hrest : ks = kinds.drop (i + 1) := by
      rw [← List.tail_drop, ← hks]
      rfl
    unfold pairsFrom at h
    split at h
    · apply ih hrest ?_ h
      intro b hb
      rcases List.mem_cons.mp hb with rfl | hb
      · exact hk
      · exact hstack b hb
    split at h
    · have hdropped : ∀ b ∈ stack.dropWhile (fun b => b.kind.closer? != some k), b ∈ stack := fun b hb =>
        (List.dropWhile_sublist _).mem hb
      split at h
      · exact ih hrest (by simp) h
      · next b rest hopen =>
        have hne : stack.dropWhile (fun b => b.kind.closer? != some k) ≠ [] := by
          rw [hopen]
          exact List.cons_ne_nil _ _
        have hhead := List.head_dropWhile_not _ hne
        simp only [hopen, List.head_cons, bne_eq_false_iff_eq] at hhead
        rw [hopen] at hdropped
        rcases List.mem_cons.mp h with h | h
        · cases h
          exact ⟨b.kind, k, hstack b (hdropped b List.mem_cons_self), hk, hhead⟩
        · exact ih hrest (fun b' hb' => hstack b' (hdropped b' (List.mem_cons_of_mem _ hb'))) h
    · exact ih hrest hstack h

theorem mem_pairs_of_partnerTable {n : Nat} {ps : List (Nat × Nat)} {i j : Nat}
    (h : (partnerTable n ps)[i]? = some (some j)) : (i, j) ∈ ps ∨ (j, i) ∈ ps := by
  unfold partnerTable at h
  suffices hfold : ∀ (table : Array (Option Nat)) (P : Nat → Nat → Prop),
      (∀ i j, table[i]? = some (some j) → P i j) → ∀ i j,
        (ps.foldl enterPair table)[i]? = some (some j) → P i j ∨ (i, j) ∈ ps ∨ (j, i) ∈ ps by
    have hnone : ∀ i j : Nat, (Array.replicate n (none : Option Nat))[i]? = some (some j) → False := by
      intro i j hij
      rw [Array.getElem?_replicate] at hij
      split at hij <;> cases hij
    exact (hfold _ (fun _ _ => False) hnone i j h).resolve_left not_false
  clear h
  induction ps with
  | nil =>
    intro table P hP i j hij
    exact Or.inl (hP i j hij)
  | cons q ps ih =>
    obtain ⟨o, c⟩ := q
    intro table P hP i j hij
    have hstep : ∀ i j, (enterPair table (o, c))[i]? = some (some j) →
        P i j ∨ (i, j) = (o, c) ∨ (j, i) = (o, c) := by
      intro i j hset
      unfold enterPair at hset
      rw [Array.getElem?_setIfInBounds] at hset
      split at hset
      · next hi =>
        subst hi
        split at hset
        · cases hset
          exact Or.inr (Or.inr rfl)
        · cases hset
      · rw [Array.getElem?_setIfInBounds] at hset
        split at hset
        · next hi =>
          subst hi
          split at hset
          · cases hset
            exact Or.inr (Or.inl rfl)
          · cases hset
        · exact Or.inl (hP i j hset)
    rcases ih _ _ hstep i j hij with (hij | heq | heq) | hij | hij
    · exact Or.inl hij
    · exact Or.inr (Or.inl (heq ▸ List.mem_cons_self))
    · exact Or.inr (Or.inr (heq ▸ List.mem_cons_self))
    · exact Or.inr (Or.inl (List.mem_cons_of_mem _ hij))
    · exact Or.inr (Or.inr (List.mem_cons_of_mem _ hij))

/-! ### Places of pairs -/

/-- Open brackets, the last one first, all before token `i`. -/
structure OpenBefore (i : Nat) (stack : List OpenBracket) : Prop where
  descending : stack.Pairwise fun a b => b.index < a.index
  before : ∀ b ∈ stack, b.index < i

variable {i : Nat} {stack : List OpenBracket} {ks : List Kind}

theorem OpenBefore.nil (i : Nat) : OpenBefore i [] := ⟨.nil, by simp⟩

theorem OpenBefore.push (h : OpenBefore i stack) (k : Kind) : OpenBefore (i + 1) (⟨i, k⟩ :: stack) where
  descending := h.descending.cons h.before
  before b hb := by
    rcases List.mem_cons.mp hb with rfl | hb
    · exact Nat.lt_succ_self i
    · exact Nat.lt_succ_of_lt (h.before b hb)

theorem OpenBefore.skip (h : OpenBefore i stack) : OpenBefore (i + 1) stack :=
  ⟨h.descending, fun b hb => Nat.lt_succ_of_lt (h.before b hb)⟩

theorem OpenBefore.sublist {rest : List OpenBracket} (h : OpenBefore i stack) (hrest : rest.Sublist stack) :
    OpenBefore i rest :=
  ⟨h.descending.sublist hrest, fun b hb => h.before b (hrest.mem hb)⟩

/-- A pair opens at an open bracket or later on, and closes after it, but not before token `i`. -/
theorem bounds_of_mem_pairsFrom (hstack : OpenBefore i stack) {q : Nat × Nat} (h : q ∈ pairsFrom i stack ks) :
    q.1 < q.2 ∧ i ≤ q.2 ∧ (i ≤ q.1 ∨ ∃ b ∈ stack, b.index = q.1) := by
  induction ks generalizing i stack with
  | nil => cases h
  | cons k ks ih =>
    unfold pairsFrom at h
    split at h
    · obtain ⟨hlt, hle, hopen⟩ := ih (hstack.push k) h
      refine ⟨hlt, Nat.le_of_succ_le hle, ?_⟩
      rcases hopen with hopen | ⟨b, hb, hindex⟩
      · exact Or.inl (Nat.le_of_succ_le hopen)
      · rcases List.mem_cons.mp hb with rfl | hb
        · exact Or.inl (Nat.le_of_eq hindex)
        · exact Or.inr ⟨b, hb, hindex⟩
    split at h
    · have hdropped := List.dropWhile_sublist (l := stack) fun b => b.kind.closer? != some k
      split at h
      · obtain ⟨hlt, hle, hopen⟩ := ih (.nil (i + 1)) h
        refine ⟨hlt, Nat.le_of_succ_le hle, Or.inl ?_⟩
        rcases hopen with hopen | ⟨b, hb, -⟩
        · exact Nat.le_of_succ_le hopen
        · cases hb
      · next b rest hrest =>
        rw [hrest] at hdropped
        rcases List.mem_cons.mp h with rfl | h
        · have hb := hdropped.mem List.mem_cons_self
          exact ⟨hstack.before b hb, Nat.le_refl _, Or.inr ⟨b, hb, rfl⟩⟩
        · have hlater := (List.sublist_cons_self b rest).trans hdropped
          obtain ⟨hlt, hle, hopen⟩ := ih (hstack.sublist hlater).skip h
          refine ⟨hlt, Nat.le_of_succ_le hle, ?_⟩
          rcases hopen with hopen | ⟨b', hb', hindex⟩
          · exact Or.inl (Nat.le_of_succ_le hopen)
          · exact Or.inr ⟨b', hlater.mem hb', hindex⟩
    · obtain ⟨hlt, hle, hopen⟩ := ih hstack.skip h
      exact ⟨hlt, Nat.le_of_succ_le hle, hopen.imp_left Nat.le_of_succ_le⟩

/-- The second of two pairs closes later, and opens before the first one or after it. -/
def ClosesAfter (p q : Nat × Nat) : Prop := p.2 < q.2 ∧ (q.1 < p.1 ∨ p.2 < q.1)

theorem pairsFrom_pairwise (hstack : OpenBefore i stack) : (pairsFrom i stack ks).Pairwise ClosesAfter := by
  induction ks generalizing i stack with
  | nil => exact .nil
  | cons k ks ih =>
    unfold pairsFrom
    split
    · exact ih (hstack.push k)
    split
    · have hdropped := List.dropWhile_sublist (l := stack) fun b => b.kind.closer? != some k
      split
      · exact ih (.nil (i + 1))
      · next b rest hrest =>
        rw [hrest] at hdropped
        have hlater := hstack.sublist ((List.sublist_cons_self b rest).trans hdropped)
        refine (ih hlater.skip).cons fun q hq => ?_
        obtain ⟨-, hle, hopen⟩ := bounds_of_mem_pairsFrom hlater.skip hq
        refine ⟨hle, ?_⟩
        rcases hopen with hopen | ⟨b', hb', hindex⟩
        · exact Or.inr hopen
        · -- What is still open was opened before the bracket that is closed here.
          left
          rw [← hindex]
          exact List.rel_of_pairwise_cons (hstack.sublist hdropped).descending hb'
    · exact ih hstack.skip

/-- Two pairs are the same, or one of them closes later. -/
def Laminar (p q : Nat × Nat) : Prop := p = q ∨ ClosesAfter p q ∨ ClosesAfter q p

theorem laminar_pairs {ks : List Kind} {p q : Nat × Nat} (hp : p ∈ pairs ks) (hq : q ∈ pairs ks) : Laminar p q := by
  have : Std.Symm Laminar := ⟨fun _ _ h => h.imp Eq.symm Or.symm⟩
  have hpairs : (pairs ks).Pairwise Laminar := (pairsFrom_pairwise (OpenBefore.nil 0)).imp fun h => Or.inr (Or.inl h)
  have hsame : ∀ p ∈ pairs ks, Laminar p p := fun p _ => Or.inl rfl
  exact hpairs.forall_of_forall hsame hp hq

end SchemaSplice.Source
