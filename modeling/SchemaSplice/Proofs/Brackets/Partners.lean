import SchemaSplice.Proofs.Splice.Matching
import SchemaSplice.Source.File
/-!
# Partners of brackets

The table of partners says the same in both directions, and its pairs are nested: each joins an opening bracket with a
later one that closes it, no two of them cross, and between two partners every closing bracket has its own partner
there as well. Stray brackets cannot change this, and a balanced sequence that is put anywhere into a text is matched
within itself and leaves all other brackets with the partners they had.
-/

namespace SchemaSplice.Source

variable {a b d ks : List Kind} {i j k o c : Nat} {stack : List OpenBracket}

def partners (ks : List Kind) : Array (Option Nat) := partnerTable ks.length (pairs ks)

def IsPartner (ks : List Kind) (i j : Nat) : Prop := (partners ks)[i]? = some (some j)

/-! ### The table and the pairs -/

theorem isPartner_iff : IsPartner ks i j ↔ (i, j) ∈ pairs ks ∨ (j, i) ∈ pairs ks := by
  constructor
  · exact mem_pairs_of_partnerTable
  · rintro (h | h)
    · exact partnerTable_of_mem_pairs h (Nat.lt_trans (lt_of_mem_pairs h).1 (lt_of_mem_pairs h).2)
    · exact partnerTable_of_mem_pairs_closing h (lt_of_mem_pairs h).2

theorem IsPartner.symm (h : IsPartner ks i j) : IsPartner ks j i :=
  isPartner_iff.mpr (isPartner_iff.mp h).symm

theorem IsPartner.lt_length (h : IsPartner ks i j) : i < ks.length ∧ j < ks.length := by
  rcases isPartner_iff.mp h with h | h
  · exact ⟨Nat.lt_trans (lt_of_mem_pairs h).1 (lt_of_mem_pairs h).2, (lt_of_mem_pairs h).2⟩
  · exact ⟨(lt_of_mem_pairs h).2, Nat.lt_trans (lt_of_mem_pairs h).1 (lt_of_mem_pairs h).2⟩

theorem IsPartner.mem_pairs (h : IsPartner ks i j) (hlt : i < j) : (i, j) ∈ pairs ks := by
  refine (isPartner_iff.mp h).resolve_right fun hmem => ?_
  exact Nat.lt_asymm hlt (lt_of_mem_pairs hmem).1

/-- Two entries of the table are equal if they name the same partners. -/
theorem partners_congr {ks' : List Kind} {f : Nat → Nat} (hi : i < ks.length) (hj : j < ks'.length)
    (h : ∀ k, IsPartner ks i k ↔ ∃ k', IsPartner ks' j k' ∧ f k' = k) :
    (partners ks)[i]? = (partners ks')[j]?.map (Option.map f) := by
  have hentry : ∀ {l : List Kind} {n : Nat}, n < l.length → ∃ partner, (partners l)[n]? = some partner := by
    intro l n hn
    refine ⟨_, Array.getElem?_eq_getElem ?_⟩
    rwa [partners, partnerTable, size_foldl_enterPair, Array.size_replicate]
  obtain ⟨p, hp⟩ := hentry hi
  obtain ⟨q, hq⟩ := hentry hj
  simp only [IsPartner, hp, hq, Option.some.injEq] at h
  rw [hp, hq, Option.map_some, Option.some.injEq]
  apply Option.ext
  intro k
  rw [h k, Option.map_eq_some_iff]

/-! ### Nesting -/

/-- The token at `i` is an opening bracket, and the one at `j` a later bracket that closes it. -/
def Closes (ks : List Kind) (i j : Nat) : Prop :=
  i < j ∧ ∃ k k' : Kind, ks[i]? = some k ∧ ks[j]? = some k' ∧ k.closer? = some k'

theorem closes_of_mem_pairs (h : (i, j) ∈ pairs ks) : Closes ks i j :=
  ⟨(lt_of_mem_pairs h).1, closer?_of_mem_pairsFrom rfl (by simp) h⟩

theorem IsPartner.closes (h : IsPartner ks i j) : Closes ks i j ∨ Closes ks j i :=
  (isPartner_iff.mp h).imp closes_of_mem_pairs closes_of_mem_pairs

theorem not_crossing {k l : Nat} (h : IsPartner ks i j) (h' : IsPartner ks k l) : ¬(i < k ∧ k < j ∧ j < l) := by
  rintro ⟨hik, hkj, hjl⟩
  rcases laminar_pairs (h.mem_pairs (by omega)) (h'.mem_pairs (by omega)) with heq | hlater | hlater
  · rw [Prod.mk.injEq] at heq
    omega
  all_goals
    unfold ClosesAfter at hlater
    omega

/-- While a bracket stays open that will be closed, every closing bracket finds an opening one after it. -/
theorem closer_inside (hstack : OpenBefore i stack) (h : (o, c) ∈ pairsFrom i stack ks) (hok : o < k) (hik : i ≤ k)
    (hkc : k < c) {x : Kind} (hx : ks[k - i]? = some x) (hcloses : x.closes = true) :
    ∃ m, o < m ∧ m < k ∧ (m, k) ∈ pairsFrom i stack ks := by
  induction ks generalizing i stack with
  | nil => cases h
  | cons y ks ih =>
    have hhere : k = i → y.closes = true := by
      rintro rfl
      rw [Nat.sub_self, List.getElem?_cons_zero, Option.some.injEq] at hx
      rw [hx, hcloses]
    have hlater : k ≠ i → i + 1 ≤ k ∧ ks[k - (i + 1)]? = some x := by
      intro hne
      refine ⟨by omega, ?_⟩
      rw [← hx, show k - i = k - (i + 1) + 1 by omega, List.getElem?_cons_succ]
    unfold pairsFrom at h ⊢
    by_cases hopens : y.opens = true
    · rw [if_pos hopens] at h ⊢
      have hne : k ≠ i := by
        intro heq
        rw [Kind.opens_eq_false_of_closes (hhere heq)] at hopens
        cases hopens
      exact ih (hstack.push y) h (hlater hne).1 (hlater hne).2
    rw [if_neg hopens] at h ⊢
    by_cases hy : y.closes = true
    · rw [if_pos hy] at h ⊢
      have hdropped := List.dropWhile_sublist (l := stack) fun b => b.kind.closer? != some y
      cases hrest : stack.dropWhile fun b => b.kind.closer? != some y with
      | nil =>
        rw [hrest] at h
        have hne : k ≠ i := by
          rintro rfl
          obtain ⟨-, -, hopen | ⟨b, hb, -⟩⟩ := bounds_of_mem_pairsFrom (.nil (k + 1)) h
          · exact absurd hok (Nat.lt_asymm hopen)
          · cases hb
        exact ih (.nil (i + 1)) h (hlater hne).1 (hlater hne).2
      | cons b rest =>
        rw [hrest] at h hdropped
        have hkept := hstack.sublist hdropped
        have hbelow := hkept.sublist (List.sublist_cons_self b rest)
        rcases List.mem_cons.mp h with heq | h
        · obtain ⟨-, rfl⟩ := Prod.mk.inj heq
          omega
        by_cases hne : k = i
        · -- The bracket closes the innermost open one, and the pair around it is closed by one further out.
          subst hne
          obtain ⟨-, -, hopen | ⟨b', hb', rfl⟩⟩ := bounds_of_mem_pairsFrom hbelow.skip h
          · omega
          · refine ⟨b.index, ?_, hkept.before b List.mem_cons_self, List.mem_cons_self⟩
            exact List.rel_of_pairwise_cons hkept.descending hb'
        · obtain ⟨m, hom, hmk, hm⟩ := ih hbelow.skip h (hlater hne).1 (hlater hne).2
          exact ⟨m, hom, hmk, List.mem_cons_of_mem _ hm⟩
    · rw [if_neg hy] at h ⊢
      have hne : k ≠ i := fun heq => hy (hhere heq)
      exact ih hstack.skip h (hlater hne).1 (hlater hne).2

/-- The partners of a sequence are nested pairs of brackets. -/
structure Nested (ks : List Kind) : Prop where
  symm : ∀ i j, IsPartner ks i j ↔ IsPartner ks j i
  closes : ∀ i j, IsPartner ks i j → Closes ks i j ∨ Closes ks j i
  uncrossed : ∀ i j k l, IsPartner ks i j → IsPartner ks k l → ¬(i < k ∧ k < j ∧ j < l)
  inner : ∀ i j k x, IsPartner ks i j → i < k → k < j → ks[k]? = some x → x.closes = true →
    ∃ m, i < m ∧ m < k ∧ IsPartner ks m k

theorem nested_partners (ks : List Kind) : Nested ks where
  symm _ _ := ⟨IsPartner.symm, IsPartner.symm⟩
  closes _ _ := IsPartner.closes
  uncrossed _ _ _ _ := not_crossing
  inner i j k x h hik hkj hx hcloses := by
    have hmem := h.mem_pairs (Nat.lt_trans hik hkj)
    obtain ⟨m, him, hmk, hm⟩ := closer_inside (.nil 0) hmem hik (Nat.zero_le k) hkj hx hcloses
    exact ⟨m, him, hmk, isPartner_iff.mpr (Or.inl hm)⟩

/-! ### Balanced insertions -/

theorem IsPartner.append_right (h : IsPartner a i j) (b : List Kind) : IsPartner (a ++ b) i j := by
  have hlt := h.lt_length
  exact isPartner_iff.mpr ((isPartner_iff.mp h).imp (mem_pairs_append_left hlt.2).mpr
    (mem_pairs_append_left hlt.1).mpr)

theorem IsPartner.append_left (h : IsPartner b i j) (a : List Kind) :
    IsPartner (a ++ b) (a.length + i) (a.length + j) :=
  isPartner_iff.mpr ((isPartner_iff.mp h).imp mem_pairs_append_right.mpr mem_pairs_append_right.mpr)

/-- Where a token stands in a sequence that begins with two brackets. -/
theorem getElem?_between {ks' : List Kind} {o c x : Kind} (h : (o :: (ks ++ c :: ks'))[i]? = some x) :
    (i = 0 ∧ x = o) ∨ (∃ n, i = 1 + n ∧ ks[n]? = some x) ∨ (i = 1 + ks.length ∧ x = c) ∨
      ∃ n, i = (o :: (ks ++ [c])).length + n ∧ ks'[n]? = some x := by
  rw [List.length_cons, List.length_append, List.length_singleton]
  cases i with
  | zero => exact Or.inl ⟨rfl, (Option.some.inj h).symm⟩
  | succ i =>
    rw [List.getElem?_cons_succ] at h
    rcases Nat.lt_trichotomy i ks.length with hlt | rfl | hgt
    · rw [List.getElem?_append_left hlt] at h
      exact Or.inr (Or.inl ⟨i, Nat.add_comm i 1, h⟩)
    · rw [List.getElem?_append_right (Nat.le_refl _), Nat.sub_self, List.getElem?_cons_zero] at h
      exact Or.inr (Or.inr (Or.inl ⟨Nat.add_comm _ 1, (Option.some.inj h).symm⟩))
    · obtain ⟨n, rfl⟩ : ∃ n, i = ks.length + 1 + n := ⟨i - (ks.length + 1), by omega⟩
      rw [List.getElem?_append_right (by omega), show ks.length + 1 + n - ks.length = n + 1 by omega,
        List.getElem?_cons_succ] at h
      exact Or.inr (Or.inr (Or.inr ⟨n, by omega, h⟩))

/-- Two brackets around a balanced sequence are partners. -/
theorem isPartner_between {o c : Kind} (hoc : o.closer? = some c) (h : Balanced ks) (ks' : List Kind) :
    IsPartner (o :: (ks ++ c :: ks')) 0 (1 + ks.length) := by
  have hmem := mem_pairs_of_balanced [] ks' hoc h
  rw [List.length_nil, Nat.zero_add] at hmem
  exact isPartner_iff.mpr (Or.inl hmem)

/-- What follows two brackets is matched as it is alone. -/
theorem IsPartner.after_between {ks' : List Kind} (h : IsPartner ks' i j) (o c : Kind) (ks : List Kind) :
    IsPartner (o :: (ks ++ c :: ks')) ((o :: (ks ++ [c])).length + i) ((o :: (ks ++ [c])).length + j) := by
  have hafter := h.append_left (o :: (ks ++ [c]))
  rwa [List.cons_append, List.append_assoc] at hafter

/-- Every bracket of a balanced sequence has a partner. -/
theorem Balanced.isPartner (h : Balanced ks) {x : Kind} (hx : ks[i]? = some x)
    (hbracket : x.opens = true ∨ x.closes = true) : ∃ j, IsPartner ks i j := by
  induction h generalizing i with
  | nil => cases hx
  | @plain k ks hopens hcloses _ ih =>
    cases i with
    | zero =>
      rw [List.getElem?_cons_zero, Option.some.injEq] at hx
      subst hx
      rw [hopens, hcloses] at hbracket
      simp at hbracket
    | succ i =>
      obtain ⟨j, hj⟩ := ih hx
      have hij := hj.append_left [k]
      rw [List.length_singleton, Nat.add_comm] at hij
      exact ⟨_, hij⟩
  | @between o c ks ks' hoc h _ ih ih' =>
    have houter := isPartner_between hoc h ks'
    rcases getElem?_between hx with ⟨rfl, -⟩ | ⟨n, rfl, hn⟩ | ⟨rfl, -⟩ | ⟨n, rfl, hn⟩
    · exact ⟨_, houter⟩
    · obtain ⟨j, hj⟩ := ih hn
      exact ⟨_, (hj.append_right (c :: ks')).append_left [o]⟩
    · exact ⟨_, houter.symm⟩
    · obtain ⟨j, hj⟩ := ih' hn
      exact ⟨_, hj.after_between o c ks⟩

/-- A balanced sequence is matched within itself, whatever stands around it. -/
theorem isPartner_inside (h : Balanced d) (hi : i < d.length) :
    IsPartner (a ++ d ++ b) (a.length + i) k ↔ ∃ j, IsPartner d i j ∧ a.length + j = k := by
  have hinside : ∀ {j}, IsPartner d i j → IsPartner (a ++ d ++ b) (a.length + i) (a.length + j) :=
    fun hj => (hj.append_left a).append_right b
  constructor
  · intro hk
    have hx : (a ++ d ++ b)[a.length + i]? = some d[i] := by
      rw [List.append_assoc, List.getElem?_append_right (Nat.le_add_right _ _), Nat.add_sub_cancel_left,
        List.getElem?_append_left hi, List.getElem?_eq_getElem hi]
    have hbracket : d[i].opens = true ∨ d[i].closes = true := by
      rcases hk.closes with ⟨-, x, y, hopen, -, hxy⟩ | ⟨-, x, y, -, hclose, hxy⟩
      · obtain rfl := Option.some.inj (hx.symm.trans hopen)
        exact Or.inl (by rw [Kind.opens, hxy, Option.isSome_some])
      · obtain rfl := Option.some.inj (hx.symm.trans hclose)
        exact Or.inr (Kind.closes_of_closer? hxy)
    obtain ⟨j, hj⟩ := h.isPartner (List.getElem?_eq_getElem hi) hbracket
    have hsame := hinside hj
    unfold IsPartner at hk hsame
    rw [hk, Option.some.injEq, Option.some.injEq] at hsame
    exact ⟨j, hj, hsame.symm⟩
  · rintro ⟨j, hj, rfl⟩
    exact hinside hj

/-- Brackets outside a balanced insertion are matched as they were without it. -/
theorem isPartner_outside (h : Balanced d) :
    IsPartner (a ++ d ++ b) (pastInsertion a.length d.length i) k ↔
      ∃ j, IsPartner (a ++ b) i j ∧ pastInsertion a.length d.length j = k := by
  constructor
  · intro hk
    -- The partner stands outside the insertion, for those inside it have theirs there.
    obtain ⟨j, rfl⟩ : ∃ j, pastInsertion a.length d.length j = k := by
      by_cases hinside : a.length ≤ k ∧ k < a.length + d.length
      · obtain ⟨n, rfl⟩ : ∃ n, k = a.length + n := ⟨k - a.length, by omega⟩
        obtain ⟨m, hm, heq⟩ := (isPartner_inside h (by omega)).mp hk.symm
        have hlt := hm.lt_length.2
        unfold pastInsertion at heq
        split at heq <;> omega
      · by_cases hfront : k < a.length
        · exact ⟨k, pastInsertion_of_lt hfront⟩
        · exact ⟨k - d.length, by rw [pastInsertion_of_le (by omega)]; omega⟩
    refine ⟨j, ?_, rfl⟩
    rw [isPartner_iff, List.append_assoc] at hk
    rcases hk with hk | hk
    · obtain ⟨j', hj', heq⟩ := (mem_pairs_insert h).mp hk
      obtain rfl := pastInsertion_injective _ _ heq
      exact isPartner_iff.mpr (Or.inl hj')
    · obtain ⟨i', hi', heq⟩ := (mem_pairs_insert h).mp hk
      obtain rfl := pastInsertion_injective _ _ heq
      exact isPartner_iff.mpr (Or.inr hi')
  · rintro ⟨j, hj, rfl⟩
    rw [isPartner_iff, List.append_assoc]
    exact (isPartner_iff.mp hj).imp (fun hj => (mem_pairs_insert h).mpr ⟨j, hj, rfl⟩)
      (fun hj => (mem_pairs_insert h).mpr ⟨i, hj, rfl⟩)

/-- Inserting `d` between `a` and `b` changes the partners of neither part. -/
structure KeptApart (a d b : List Kind) : Prop where
  matched : ∀ i x, d[i]? = some x → x.opens = true ∨ x.closes = true → ∃ j, IsPartner d i j
  inside : ∀ i, i < d.length →
    (partners (a ++ d ++ b))[a.length + i]? = (partners d)[i]?.map (Option.map (a.length + ·))
  outside : ∀ i, i < (a ++ b).length →
    (partners (a ++ d ++ b))[pastInsertion a.length d.length i]? =
      (partners (a ++ b))[i]?.map (Option.map (pastInsertion a.length d.length))

theorem Balanced.keptApart (h : Balanced d) (a b : List Kind) : KeptApart a d b where
  matched _ _ := h.isPartner
  inside i hi := by
    refine partners_congr ?_ hi fun k => isPartner_inside h hi
    rw [List.length_append, List.length_append]
    omega
  outside i hi := by
    refine partners_congr ?_ hi fun k => isPartner_outside h
    rw [List.length_append] at hi
    rw [List.length_append, List.length_append]
    unfold pastInsertion
    split <;> omega

/-- The partners of every sequence are nested pairs, and a balanced sequence keeps apart from what it is put into, however
unbalanced that is. -/
theorem partners_nested_and_apart :
    (∀ ks : List Kind, Nested ks) ∧ ∀ a b d : List Kind, Balanced d → KeptApart a d b :=
  ⟨nested_partners, fun a b _ h => h.keptApart a b⟩

/-- A call is put between stray brackets of all three kinds. -/
theorem callAmongStrays_apart :
    Balanced [.lparen, .lbrace, .comma, .rbrace, .rparen] ∧
      KeptApart [.rbrace, .lparen, .lbracket] [.lparen, .lbrace, .comma, .rbrace, .rparen] [.rparen, .rbrace] ∧
      partners ([.rbrace, .lparen, .lbracket] ++ [.lparen, .lbrace, .comma, .rbrace, .rparen] ++ [.rparen, .rbrace]) =
        #[none, some 8, none, some 7, some 6, none, some 4, some 3, some 1, none] := by
  have hinner : Balanced [.lbrace, .comma, .rbrace] :=
    @Balanced.between .lbrace .rbrace [.comma] [] rfl (.plain rfl rfl .nil) .nil
  have hbalanced : Balanced [.lparen, .lbrace, .comma, .rbrace, .rparen] :=
    @Balanced.between .lparen .rparen [.lbrace, .comma, .rbrace] [] rfl hinner .nil
  exact ⟨hbalanced, partners_nested_and_apart.2 _ _ _ hbalanced, by decide⟩

end SchemaSplice.Source
