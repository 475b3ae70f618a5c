import SchemaSplice.Proofs.Grammar.Unfolding
/-!
# Trees in tables

Types that reading adds to a table unfold to trees, and do so however the table grows. Each kind of tree is built from its
parts by one change to the table.
-/

namespace SchemaSplice.Annotation

open Source SchemaSplice.Types

/-! ### Growing tables -/

/-- A state with more types, none of which stands for another. -/
structure Grows (s s' : TypeState) : Prop where
  extends₀ : Extends s s'
  kinds : ∀ i, s.table.size ≤ i → i < s'.table.size → ∃ k, s'.table.slots[i]? = some (.kind k)

section

variable {s s' s'' t : TypeState} {id : TypeId} {k : TypeKind}

theorem Extends.trans (h : Extends s s') (h' : Extends s' s'') : Extends s s'' :=
  fun i hi => (h' i (Nat.lt_of_lt_of_le hi h.size_le)).trans (h i hi)

theorem Grows.refl (s : TypeState) : Grows s s where
  extends₀ := .refl s
  kinds _ hle hlt := absurd hlt (Nat.not_lt_of_le hle)

theorem Grows.size_le (h : Grows s s') : s.table.size ≤ s'.table.size := h.extends₀.size_le

theorem Grows.insert (h : Grows s s') (k : TypeKind) : Grows s (s'.insert k) where
  extends₀ := h.extends₀.insert k
  kinds i hle hlt := by
    rw [insert_size] at hlt
    by_cases hi : i = s'.table.size
    · subst hi
      exact ⟨k, insert_slot_size s' k⟩
    · have hlt' : i < s'.table.size := by omega
      obtain ⟨l, hl⟩ := h.kinds i hle hlt'
      exact ⟨l, ((Extends.refl s').insert k i hlt').trans hl⟩

theorem Grows.trans (h : Grows s s') (h' : Grows s' s'') : Grows s s'' where
  extends₀ := h.extends₀.trans h'.extends₀
  kinds i hle hlt := by
    by_cases hi : i < s'.table.size
    · obtain ⟨k, hk⟩ := h.kinds i hle hi
      exact ⟨k, (h'.extends₀ i hi).trans hk⟩
    · exact h'.kinds i (Nat.le_of_not_lt hi) hlt

/-- A type that was added is what it is for good. -/
theorem Grows.kind_eq (h : Grows s s') (hle : s.table.size ≤ id.slot) (hlt : id.slot < s'.table.size)
    (ht : Extends s' t) : t.table.kind id = s'.table.kind id := by
  obtain ⟨k, hk⟩ := h.kinds id.slot hle hlt
  rw [Table.kind_of_slot hk, Table.kind_of_slot ((ht id.slot hlt).trans hk)]

theorem kind_of_insert (ht : Extends (s.insert k) t) : t.table.kind ⟨s.table.size⟩ = k := by
  have hlt : s.table.size < (s.insert k).table.size := by
    rw [insert_size]
    exact Nat.lt_succ_self _
  exact Table.kind_of_slot ((ht _ hlt).trans (insert_slot_size s k))

end

/-! ### Types that were built -/

/-- A tree that widening leaves alone. -/
def Tree.isOther (x : Tree) : Bool := !(x.isFlag true || x.isFlag false)

/-- A tree that can be a member of a union: no union itself, and no intersection of nothing. -/
def Tree.IsMember (x : Tree) : Prop := x.alternatives = [x] ∧ x.factors ≠ []

/-- Types that were added from a state on, one for each tree. The members of unions among them were added too, and no type is
a member twice. -/
structure Built (s s' : TypeState) (ids : List TypeId) (xs : List Tree) : Prop where
  grows : Grows s s'
  unfolds : ∀ t, Extends s' t → List.Forall₂ (Unfolds t.table) ids xs
  fresh : ∀ id ∈ ids, s.table.size ≤ id.slot ∧ id.slot < s'.table.size
  freshMembers : ∀ id ∈ s'.table.flattenUnion ids, s.table.size ≤ id.slot ∧ id.slot < s'.table.size
  nodup : (s'.table.flattenUnion ids).Nodup
  flat : ∀ x ∈ xs.flatMap Tree.alternatives, x.IsMember

namespace Built

variable {s s' s'' t : TypeState} {id : TypeId} {ids ids' : List TypeId} {x : Tree} {xs xs' : List Tree} {k : TypeKind}

theorem flattenUnion_eq (h : Built s s' ids xs) (ht : Extends s' t) :
    t.table.flattenUnion ids = s'.table.flattenUnion ids := by
  unfold Table.flattenUnion
  refine List.flatMap_congr fun id hid => ?_
  rw [h.grows.kind_eq (h.fresh id hid).1 (h.fresh id hid).2 ht]

theorem append (h : Built s s' ids xs) (h' : Built s' s'' ids' xs') : Built s s'' (ids ++ ids') (xs ++ xs') := by
  have hflatten : s''.table.flattenUnion (ids ++ ids') =
      s'.table.flattenUnion ids ++ s''.table.flattenUnion ids' := by
    rw [← h.flattenUnion_eq h'.grows.extends₀]
    exact List.flatMap_append
  have hle := h.grows.size_le
  have hle' := h'.grows.size_le
  refine ⟨h.grows.trans h'.grows, ?_, ?_, ?_, ?_, ?_⟩
  · intro t ht
    exact List.rel_append (h.unfolds t (h'.grows.extends₀.trans ht)) (h'.unfolds t ht)
  · intro id hid
    rcases List.mem_append.mp hid with hid | hid
    · have := h.fresh id hid
      omega
    · have := h'.fresh id hid
      omega
  · rw [hflatten]
    intro id hid
    rcases List.mem_append.mp hid with hid | hid
    · have := h.freshMembers id hid
      omega
    · have := h'.freshMembers id hid
      omega
  · rw [hflatten, List.nodup_append]
    refine ⟨h.nodup, h'.nodup, ?_⟩
    rintro a ha b hb rfl
    have := h.freshMembers a ha
    have := h'.freshMembers a hb
    omega
  · intro x hx
    rw [List.flatMap_append] at hx
    rcases List.mem_append.mp hx with hx | hx
    · exact h.flat x hx
    · exact h'.flat x hx

/-- A type that is no union is added. -/
theorem insert (h : Grows s s') (hk : k.union? = none) (hx : x.IsMember)
    (hunfolds : ∀ t, Extends (s'.insert k) t → Unfolds t.table ⟨s'.table.size⟩ x) :
    Built s (s'.insert k) [⟨s'.table.size⟩] [x] := by
  have hle := h.size_le
  have hfresh : ∀ id ∈ [(⟨s'.table.size⟩ : TypeId)], s.table.size ≤ id.slot ∧ id.slot < (s'.insert k).table.size := by
    intro id hid
    rw [List.mem_singleton.mp hid, insert_size]
    exact ⟨hle, Nat.lt_succ_self _⟩
  have hflatten : (s'.insert k).table.flattenUnion [⟨s'.table.size⟩] = [⟨s'.table.size⟩] := by
    rw [Table.flattenUnion, List.flatMap_singleton, kind_of_insert (.refl _), hk]
    rfl
  refine ⟨h.insert k, fun t ht => .cons (hunfolds t ht) .nil, hfresh, ?_, ?_, ?_⟩
  · rw [hflatten]
    exact hfresh
  · rw [hflatten]
    exact List.pairwise_singleton _ _
  · intro y hy
    rw [List.flatMap_singleton, hx.1, List.mem_singleton] at hy
    rw [hy]
    exact hx

/-! ### Unions -/

section

variable {qs ds ms : List (TypeId × Tree)}

/-- What is known of members before they are put into a union. -/
structure Parts (s s' : TypeState) (qs : List (TypeId × Tree)) : Prop where
  grows : Grows s s'
  unfolds : ∀ t, Extends s' t → ∀ q ∈ qs, Unfolds t.table q.1 q.2
  fresh : ∀ q ∈ qs, s.table.size ≤ q.1.slot ∧ q.1.slot < s'.table.size
  nodup : (qs.map Prod.fst).Nodup
  flat : ∀ q ∈ qs, q.2.IsMember

theorem Parts.sublist (h : Parts s s' ms) (hsub : ds.Sublist ms) : Parts s s' ds where
  grows := h.grows
  unfolds t ht q hq := h.unfolds t ht q (hsub.mem hq)
  fresh q hq := h.fresh q (hsub.mem hq)
  nodup := h.nodup.sublist (hsub.map Prod.fst)
  flat q hq := h.flat q (hsub.mem hq)

theorem Parts.forall₂ (h : Parts s s' qs) (ht : Extends s' t) :
    List.Forall₂ (Unfolds t.table) (qs.map Prod.fst) (qs.map Prod.snd) := by
  rw [List.forall₂_map_left_iff, List.forall₂_map_right_iff]
  exact List.forall₂_same.mpr fun q hq => h.unfolds t ht q hq

/-- A type among the members, as a type by itself. -/
theorem Parts.single {q : TypeId × Tree} (h : Parts s s' [q]) : Built s s' [q.1] [q.2] := by
  have hmember := h.flat q List.mem_cons_self
  have hunfolds := h.unfolds s' (.refl s') q List.mem_cons_self
  have hfresh := h.fresh q List.mem_cons_self
  have hflatten : s'.table.flattenUnion [q.1] = [q.1] := by
    rw [Table.flattenUnion, List.flatMap_singleton, union?_eq_none hunfolds hmember.1]
    rfl
  refine ⟨h.grows, fun t ht => .cons (h.unfolds t ht q List.mem_cons_self) .nil, ?_, ?_, ?_, ?_⟩
  · intro id hid
    rw [List.mem_singleton.mp hid]
    exact hfresh
  · rw [hflatten]
    intro id hid
    rw [List.mem_singleton.mp hid]
    exact hfresh
  · rw [hflatten]
    exact List.pairwise_singleton _ _
  · intro y hy
    rw [List.flatMap_singleton, hmember.1, List.mem_singleton] at hy
    rw [hy]
    exact hmember

/-- The members of a new union. -/
theorem Parts.many (h : Parts s s' qs) :
    Built s (s'.insert (.union (qs.map Prod.fst))) [⟨s'.table.size⟩] [.union (qs.map Prod.snd)] := by
  have hgrows := h.grows.insert (.union (qs.map Prod.fst))
  have hlater : Extends s' (s'.insert (.union (qs.map Prod.fst))) := (Extends.refl s').insert _
  have hflatten : (s'.insert (.union (qs.map Prod.fst))).table.flattenUnion [⟨s'.table.size⟩] = qs.map Prod.fst := by
    rw [Table.flattenUnion, List.flatMap_singleton, kind_of_insert (.refl _)]
    rfl
  refine ⟨hgrows, ?_, ?_, ?_, ?_, ?_⟩
  · intro t ht
    have hall := h.forall₂ (hlater.trans ht)
    exact .cons ⟨_, kind_of_insert ht, unfoldAll_iff.mpr hall⟩ .nil
  · intro id hid
    rw [List.mem_singleton.mp hid, insert_size]
    exact ⟨h.grows.size_le, Nat.lt_succ_self _⟩
  · rw [hflatten, insert_size]
    intro id hid
    obtain ⟨q, hq, rfl⟩ := List.mem_map.mp hid
    have := h.fresh q hq
    omega
  · rw [hflatten]
    exact h.nodup
  · intro y hy
    rw [List.flatMap_singleton] at hy
    obtain ⟨q, hq, rfl⟩ := List.mem_map.mp hy
    exact h.flat q hq

/-- Members are put together. -/
theorem Parts.soleOr {ε : Type} (h : Parts s s' qs) :
    ∃ id s'', (onTable (Table.soleOr .union (qs.map Prod.fst)) : EStateM ε TypeState TypeId) s' = .ok id s'' ∧
      Built s s'' [id] [Tree.soleOr .union (qs.map Prod.snd)] := by
  match qs, h with
  | [], h => exact ⟨_, _, rfl, h.many⟩
  | [q], h => exact ⟨_, _, rfl, h.single⟩
  | q :: q' :: rest, h => exact ⟨_, _, rfl, h.many⟩

/-- The members of unions among types that were built. -/
theorem parts (h : Built s s' ids xs) :
    ∃ ms, Parts s s' ms ∧ ms.map Prod.fst = s'.table.flattenUnion ids ∧
      ms.map Prod.snd = xs.flatMap Tree.alternatives := by
  have hall : ∀ t, Extends s' t →
      List.Forall₂ (Unfolds t.table) (s'.table.flattenUnion ids) (xs.flatMap Tree.alternatives) := by
    intro t ht
    rw [← h.flattenUnion_eq ht]
    exact List.rel_flatMap (h.unfolds t ht) fun _ _ hunfolds => hunfolds.alternatives
  have hlength := (hall s' (.refl s')).length_eq
  have hfst := List.map_fst_zip (Nat.le_of_eq hlength)
  have hsnd := List.map_snd_zip (Nat.le_of_eq hlength.symm)
  refine ⟨_, ⟨h.grows, ?_, ?_, ?_, ?_⟩, hfst, hsnd⟩
  · intro t ht q hq
    exact (List.forall₂_iff_zip.mp (hall t ht)).2 hq
  · intro q hq
    apply h.freshMembers
    rw [← hfst]
    exact List.mem_map_of_mem hq
  · rw [hfst]
    exact h.nodup
  · intro q hq
    apply h.flat
    rw [← hsnd]
    exact List.mem_map_of_mem hq

/-- Dropping types that are the same as an earlier one drops the trees that are alike. -/
theorem dedupe_eq {t : Table} {kept ms : List (TypeId × Tree)} (hnodup : ((kept ++ ms).map Prod.fst).Nodup)
    (h : ∀ q ∈ kept ++ ms, Unfolds t q.1 q.2) :
    t.dedupe (kept.map Prod.fst) (ms.map Prod.fst) =
      (List.eraseDupsBy.loop (fun p q => p.2.alike q.2) ms kept.reverse).map Prod.fst := by
  induction ms generalizing kept with
  | nil => simp [Table.dedupe, List.eraseDupsBy.loop]
  | cons m ms ih =>
    have hmove : kept ++ m :: ms = kept ++ [m] ++ ms := by simp
    have hsame : ∀ q ∈ kept, t.same q.1 m.1 = m.2.alike q.2 := by
      intro q hq
      have hne : q.1 ≠ m.1 := by
        rw [List.map_append, List.map_cons, List.nodup_append] at hnodup
        exact hnodup.2.2 q.1 (List.mem_map_of_mem hq) m.1 List.mem_cons_self
      have hagrees := (h m (by simp)).agrees (h q (by simp [hq]))
      rw [Table.same, beq_eq_false_iff_ne.mpr hne, Bool.false_or, TypeKind.agrees_comm, hagrees]
    have hany : (kept.map Prod.fst).any (t.same · m.1) = kept.reverse.any fun q => m.2.alike q.2 := by
      rw [List.any_map, List.any_reverse, Bool.eq_iff_iff, List.any_eq_true, List.any_eq_true]
      constructor
      · rintro ⟨q, hq, htrue⟩
        exact ⟨q, hq, (hsame q hq).symm.trans htrue⟩
      · rintro ⟨q, hq, htrue⟩
        exact ⟨q, hq, (hsame q hq).trans htrue⟩
    rw [List.map_cons, Table.dedupe, hany, List.eraseDupsBy.loop]
    cases kept.reverse.any fun q => m.2.alike q.2 with
    | true =>
      refine ih (hnodup.sublist ?_) fun q hq => h q ?_
      · exact ((List.Sublist.refl kept).append (List.sublist_cons_self m ms)).map Prod.fst
      · rcases List.mem_append.mp hq with hq | hq
        · exact List.mem_append_left _ hq
        · exact List.mem_append_right _ (List.mem_cons_of_mem _ hq)
    | false =>
      rw [hmove] at hnodup h
      have hnext := ih hnodup h
      rw [List.map_append, List.reverse_append] at hnext
      exact hnext

/-- A pair for the type that widening adds. -/
def addedBoolean (t : Table) : TypeId × Tree := (⟨t.size⟩, .atom (.primitive .boolean))

/-- Widening types widens the trees. A new type is added where the trees have a new `boolean`. -/
theorem widenFlags_eq {t : Table} (h : ∀ q ∈ ds, Unfolds t q.1 q.2) :
    ∃ qs, qs.map Prod.snd = Tree.widen (ds.map Prod.snd) ∧
      (Table.widenFlags (ds.map Prod.fst) t = (qs.map Prod.fst, t) ∧ qs.Sublist ds ∨
        Table.widenFlags (ds.map Prod.fst) t = (qs.map Prod.fst, (Table.insert .boolean t).2) ∧
          ∃ front back, qs = front ++ addedBoolean t :: back ∧ (front ++ back).Sublist ds) := by
  have hother : ∀ q ∈ ds, (!(t.isFlag true q.1 || t.isFlag false q.1)) = q.2.isOther := by
    intro q hq
    rw [Tree.isOther, (h q hq).isFlag true, (h q hq).isFlag false]
  have hany : ∀ value, (ds.map Prod.fst).any (t.isFlag value) = ds.any fun q => q.2.isFlag value := by
    intro value
    rw [List.any_map, Bool.eq_iff_iff, List.any_eq_true, List.any_eq_true]
    exact exists_congr fun q => and_congr_right fun hq => by rw [Function.comp_apply, (h q hq).isFlag value]
  have hothers : (ds.map Prod.fst).filter (fun m => !(t.isFlag true m || t.isFlag false m)) =
      (ds.filter (·.2.isOther)).map Prod.fst := by
    rw [List.filter_map]
    exact congrArg (List.map Prod.fst) (List.filter_congr hother)
  have hfront : (ds.map Prod.fst).takeWhile (fun m => !(t.isFlag true m || t.isFlag false m)) =
      (ds.takeWhile (·.2.isOther)).map Prod.fst := by
    rw [List.takeWhile_map]
    exact congrArg (List.map Prod.fst) (takeWhile_congr hother)
  have hboolean : ((ds.filter (·.2.isOther)).map Prod.fst).any (t.isKind · .boolean) =
      (ds.filter (·.2.isOther)).any fun q => q.2.isBoolean := by
    rw [List.any_map, Bool.eq_iff_iff, List.any_eq_true, List.any_eq_true]
    refine exists_congr fun q => and_congr_right fun hq => ?_
    rw [Function.comp_apply, (h q (List.mem_of_mem_filter hq)).isBoolean]
  refine ⟨widenBy (fun q => q.2.isFlag true) (fun q => q.2.isFlag false) (fun q => q.2.isBoolean) (addedBoolean t) ds,
    (map_widenBy Prod.snd (Tree.isFlag true) (Tree.isFlag false) Tree.isBoolean (addedBoolean t) ds).symm, ?_⟩
  rw [Table.widenFlags_apply]
  dsimp only
  have hwiden : widenBy (fun q => q.2.isFlag true) (fun q => q.2.isFlag false) (fun q => q.2.isBoolean)
      (addedBoolean t) ds =
        if (ds.any fun q => q.2.isFlag true) && (ds.any fun q => q.2.isFlag false) then
          if (ds.filter (·.2.isOther)).any fun q => q.2.isBoolean then ds.filter (·.2.isOther)
          else ds.takeWhile (·.2.isOther) ++ addedBoolean t :: (ds.dropWhile (·.2.isOther)).filter (·.2.isOther)
        else ds := rfl
  rw [hany, hany, hothers, hfront, hboolean, hwiden]
  split
  · split
    · exact Or.inl ⟨rfl, List.filter_sublist⟩
    · refine Or.inr ⟨?_, _, _, rfl, ?_⟩
      · rw [List.length_map, ← List.map_drop, drop_filter_takeWhile, List.map_append, List.map_cons]
        rfl
      · have hsplit := List.takeWhile_append_dropWhile (p := fun q => q.2.isOther) (l := ds)
        conv => rhs; rw [← hsplit]
        exact (List.Sublist.refl _).append List.filter_sublist
  · exact Or.inl ⟨rfl, .refl ds⟩

/-- Members stay what they are when a type is added between them. -/
theorem Parts.widened (h : Parts s s' ds) {front back : List (TypeId × Tree)} (hsub : (front ++ back).Sublist ds) :
    Parts s (s'.insert .boolean) (front ++ addedBoolean s'.table :: back) := by
  have hperm : (front ++ addedBoolean s'.table :: back).Perm (addedBoolean s'.table :: (front ++ back)) :=
    List.perm_middle
  have hmem : ∀ q ∈ front ++ addedBoolean s'.table :: back, q = addedBoolean s'.table ∨ q ∈ ds := by
    intro q hq
    rcases List.mem_cons.mp (hperm.mem_iff.mp hq) with hq | hq
    · exact Or.inl hq
    · exact Or.inr (hsub.mem hq)
  refine ⟨h.grows.insert .boolean, ?_, ?_, ?_, ?_⟩
  · intro t ht q hq
    rcases hmem q hq with rfl | hq
    · exact kind_of_insert ht
    · exact h.unfolds t (((Extends.refl s').insert .boolean).trans ht) q hq
  · intro q hq
    rw [insert_size]
    rcases hmem q hq with rfl | hq
    · exact ⟨h.grows.size_le, Nat.lt_succ_self _⟩
    · have := h.fresh q hq
      omega
  · rw [(hperm.map Prod.fst).nodup_iff, List.map_cons, List.nodup_cons]
    refine ⟨?_, h.nodup.sublist (hsub.map Prod.fst)⟩
    intro hin
    obtain ⟨q, hq, heq⟩ := List.mem_map.mp hin
    have hlt := (h.fresh q (hsub.mem hq)).2
    rw [heq] at hlt
    exact absurd hlt (Nat.lt_irrefl _)
  · intro q hq
    rcases hmem q hq with rfl | hq
    · exact ⟨rfl, List.cons_ne_nil _ _⟩
    · exact h.flat q hq

/-- The union of types that were built. -/
theorem union {ε : Type} (h : Built s s' ids xs) :
    ∃ id s'', (onTable (Table.union ids) : EStateM ε TypeState TypeId) s' = .ok id s'' ∧
      Built s s'' [id] [Tree.unionOf xs] := by
  obtain ⟨ms, hms, hfst, hsnd⟩ := h.parts
  have hunfolds := hms.unfolds s' (.refl s')
  have hdedupe : s'.table.dedupe [] (s'.table.flattenUnion ids) =
      (ms.eraseDupsBy fun p q => p.2.alike q.2).map Prod.fst := by
    rw [← hfst]
    have hnodup : (([] ++ ms).map Prod.fst).Nodup := hms.nodup
    exact dedupe_eq hnodup hunfolds
  have hds := hms.sublist (eraseDupsBy_sublist (fun p q => p.2.alike q.2) ms)
  obtain ⟨qs, hqs, hwiden⟩ := widenFlags_eq (hds.unfolds s' (.refl s'))
  have htrees : Tree.unionOf xs = Tree.soleOr .union (qs.map Prod.snd) := by
    rw [hqs, ← map_eraseDupsBy Prod.snd Tree.alike, hsnd]
    rfl
  rw [htrees]
  rcases hwiden with ⟨heq, hsub⟩ | ⟨heq, front, back, rfl, hsub⟩
  · have hstep : (onTable (Table.union ids) : EStateM ε TypeState TypeId) s' =
        onTable (Table.soleOr .union (qs.map Prod.fst)) s' := by
      simp only [onTable, Table.union_apply, hdedupe, heq]
    rw [hstep]
    exact (hds.sublist hsub).soleOr
  · have hstep : (onTable (Table.union ids) : EStateM ε TypeState TypeId) s' =
        onTable (Table.soleOr .union ((front ++ addedBoolean s'.table :: back).map Prod.fst)) (s'.insert .boolean) := by
      simp only [onTable, Table.union_apply, hdedupe, heq]
      rfl
    rw [hstep]
    exact (hds.widened hsub).soleOr

end

/-! ### Intersections -/

theorem exists_two {y : Tree} (h : Built s s' ids (x :: y :: xs)) : ∃ a b rest, ids = a :: b :: rest := by
  cases h.unfolds s' (.refl s') with
  | cons _ htail =>
    cases htail with
    | cons _ _ => exact ⟨_, _, _, rfl⟩

theorem factors_ne_nil (h : Built s s' ids xs) (hx : x ∈ xs) : x.factors ≠ [] := by
  have hflat : x.alternatives = [x] → x.factors ≠ [] := by
    intro hself
    exact (h.flat x (List.mem_flatMap.mpr ⟨x, hx, hself ▸ List.mem_cons_self⟩)).2
  cases x with
  | union xs => exact List.cons_ne_nil _ _
  | _ => exact hflat rfl

theorem length_le_flatMap_factors {xs : List Tree} (h : ∀ x ∈ xs, x.factors ≠ []) :
    xs.length ≤ (xs.flatMap Tree.factors).length := by
  induction xs with
  | nil => exact Nat.le_refl 0
  | cons x xs ih =>
    have hx := List.length_pos_iff.mpr (h x List.mem_cons_self)
    have hxs := ih fun y hy => h y (List.mem_cons_of_mem _ hy)
    rw [List.flatMap_cons, List.length_append, List.length_cons]
    omega

/-- The intersection of two or more types that were built. -/
theorem intersection {ε : Type} (h : Built s s' ids xs) (hmany : 2 ≤ xs.length) :
    ∃ id s'', (onTable (Table.intersection ids) : EStateM ε TypeState TypeId) s' = .ok id s'' ∧
      Built s s'' [id] [Tree.intersectionOf xs] := by
  generalize hms : (ids.flatMap fun m => ((s'.table.kind m).intersection?).getD [m]) = ms
  have hall : ∀ t, Extends s' t → List.Forall₂ (Unfolds t.table) ms (xs.flatMap Tree.factors) := by
    intro t ht
    have hsame : (ids.flatMap fun m => ((t.table.kind m).intersection?).getD [m]) = ms := by
      rw [← hms]
      refine List.flatMap_congr fun id hid => ?_
      rw [h.grows.kind_eq (h.fresh id hid).1 (h.fresh id hid).2 ht]
    rw [← hsame]
    exact List.rel_flatMap (h.unfolds t ht) fun _ _ hunfolds => hunfolds.factors
  have htrees : 2 ≤ (xs.flatMap Tree.factors).length :=
    Nat.le_trans hmany (length_le_flatMap_factors fun x hx => h.factors_ne_nil hx)
  have htypes : 2 ≤ ms.length := by
    rw [(hall s' (.refl s')).length_eq]
    exact htrees
  have hbuild : Table.soleOr .intersection ms = Table.insert (.intersection ms) := by
    match ms, htypes with
    | _ :: _ :: _, _ => rfl
  have hmeaning : Tree.intersectionOf xs = .intersection (xs.flatMap Tree.factors) := by
    rw [Tree.intersectionOf]
    match xs.flatMap Tree.factors, htrees with
    | _ :: _ :: _, _ => rfl
  have hmember : (Tree.intersection (xs.flatMap Tree.factors)).IsMember :=
    ⟨rfl, List.ne_nil_of_length_pos (Nat.lt_of_lt_of_le Nat.zero_lt_two htrees)⟩
  refine ⟨⟨s'.table.size⟩, s'.insert (.intersection ms), ?_, ?_⟩
  · simp only [onTable, Table.intersection_apply, hms, hbuild]
    rfl
  · rw [hmeaning]
    refine insert h.grows rfl hmember fun t ht => ⟨ms, kind_of_insert ht, unfoldAll_iff.mpr (hall t ?_)⟩
    exact ((Extends.refl s').insert _).trans ht

/-! ### Other forms -/

theorem unfolds_head (h : Built s s' [id] [x]) (ht : Extends s' t) : Unfolds t.table id x := by
  cases h.unfolds t ht with
  | cons hhead _ => exact hhead

theorem atom (h : Grows s s') (a : Atom) : Built s (s'.insert a.kind) [⟨s'.table.size⟩] [.atom a] := by
  refine insert h ?_ ⟨rfl, List.cons_ne_nil _ _⟩ fun t ht => kind_of_insert ht
  cases a with
  | primitive p => cases p <;> rfl
  | literal value => rfl

theorem array (h : Built s s' [id] [x]) :
    Built s (s'.insert (.array (some id))) [⟨s'.table.size⟩] [.array x] :=
  insert h.grows rfl ⟨rfl, List.cons_ne_nil _ _⟩ fun _ ht =>
    ⟨id, kind_of_insert ht, h.unfolds_head (((Extends.refl s').insert _).trans ht)⟩

theorem function (h : Built s s' [id] [x]) :
    Built s (s'.insert (.object { calls := [id] })) [⟨s'.table.size⟩] [.function x] :=
  insert h.grows rfl ⟨rfl, List.cons_ne_nil _ _⟩ fun _ ht =>
    ⟨id, kind_of_insert ht, h.unfolds_head (((Extends.refl s').insert _).trans ht)⟩

/-- The type of a property. -/
theorem ofField {ε : Type} (h : Built s s' [id] [x]) :
    ∃ type s'', (do
        let undefined ← onTable (Table.insert .undefined)
        onTable (Table.union [id, undefined]) : EStateM ε TypeState TypeId) s' = .ok type s'' ∧
      Built s s'' [type] [Tree.ofField true x] :=
  (h.append (atom (.refl s') (.primitive .undefined))).union

end Built

/-! ### Elements and properties -/

/-- Elements of a tuple that were built. -/
structure BuiltElements (s s' : TypeState) (es : List Element) (xs : List (ElementFlag × Tree)) : Prop where
  grows : Grows s s'
  unfolds : ∀ t, Extends s' t → UnfoldElements t.table es xs

structure BuiltFields (s s' : TypeState) (ps : List Property) (fs : List (TypedProperty Tree)) : Prop where
  grows : Grows s s'
  unfolds : ∀ t, Extends s' t → UnfoldFields t.table ps fs

section

variable {s s' s'' t : TypeState} {id : TypeId} {x : Tree}

/-- A type becomes an element of a tuple. -/
theorem BuiltElements.concat {es : List Element} {xs : List (ElementFlag × Tree)} (hes : BuiltElements s s' es xs)
    (h : Built s' s'' [id] [x]) (mark : ElementMark) :
    BuiltElements s s'' (es ++ [tupleElement s''.table (mark == .spread) (mark == .optional) id])
      (xs ++ [Tree.ofElement mark x]) := by
  refine ⟨hes.grows.trans h.grows, fun t ht => ?_⟩
  have helements := hes.unfolds t (h.grows.extends₀.trans ht)
  have htype := h.unfolds_head ht
  cases mark with
  | required => exact helements.concat rfl htype
  | optional => exact helements.concat rfl htype
  | spread =>
    have hnow := h.unfolds_head (.refl s'')
    have hkind := h.grows.kind_eq (h.fresh id List.mem_cons_self).1 (h.fresh id List.mem_cons_self).2 ht
    by_cases harray : ∃ y, x = .array y
    · obtain ⟨y, rfl⟩ := harray
      obtain ⟨element, hk, hy⟩ := htype
      have helement : tupleElement s''.table true false id = ⟨element, .rest⟩ := by
        rw [tupleElement, if_pos rfl, ← hkind, hk]
      exact helement ▸ helements.concat rfl hy
    · have hvariadic : Tree.ofElement .spread x = (.variadic, x) := by
        cases x with
        | array y => exact absurd ⟨y, rfl⟩ harray
        | _ => rfl
      have helement : tupleElement s''.table true false id = ⟨id, .variadic⟩ := by
        rw [tupleElement, if_pos rfl]
        split
        · next element hk =>
          exfalso
          cases x with
          | array y => exact harray ⟨y, rfl⟩
          | atom a =>
            rw [show s''.table.kind id = a.kind from hnow] at hk
            cases a with
            | primitive p => cases p <;> cases hk
            | literal value => cases hk
          | _ =>
            obtain ⟨_, hk', -⟩ := hnow
            rw [hk] at hk'
            cases hk'
        · rfl
      rw [hvariadic]
      exact helement ▸ helements.concat rfl htype

/-- A tuple of elements. -/
theorem BuiltElements.tuple {es : List Element} {xs : List (ElementFlag × Tree)} (h : BuiltElements s s' es xs) :
    Built s (s'.insert (.tuple es)) [⟨s'.table.size⟩] [.tuple xs] :=
  .insert h.grows rfl ⟨rfl, List.cons_ne_nil _ _⟩ fun _ ht =>
    ⟨es, kind_of_insert ht, h.unfolds _ (((Extends.refl s').insert _).trans ht)⟩

/-- A type becomes a property, unless its key is taken; `kept` are the properties so far, the last one first. -/
theorem BuiltFields.add {o : ObjectType} {kept : List (TypedProperty Tree)}
    (hps : BuiltFields s s' o.properties kept.reverse) (h : Built s' s'' [id] [x]) (key : Identifier) (isOptional : Bool) :
    BuiltFields s s'' (o.addProperty ⟨.name key, id, isOptional⟩).properties
      (if kept.any (fun f => key == f.key) then kept else ⟨key, isOptional, x⟩ :: kept).reverse := by
  refine ⟨hps.grows.trans h.grows, fun t ht => ?_⟩
  have hfields := hps.unfolds t (h.grows.extends₀.trans ht)
  have hany := hfields.any_key key
  rw [List.any_reverse] at hany
  rw [ObjectType.addProperty, hany]
  split
  · exact hfields
  · rw [List.reverse_cons]
    exact hfields.concat rfl rfl (h.unfolds_head ht)

/-- An object type of properties. -/
theorem BuiltFields.object {ps : List Property} {fs : List (TypedProperty Tree)} (h : BuiltFields s s' ps fs) :
    Built s (s'.insert (.object { properties := ps })) [⟨s'.table.size⟩] [.object fs] :=
  .insert h.grows rfl ⟨rfl, List.cons_ne_nil _ _⟩ fun _ ht =>
    ⟨ps, kind_of_insert ht, h.unfolds _ (((Extends.refl s').insert _).trans ht)⟩

end

end SchemaSplice.Annotation
