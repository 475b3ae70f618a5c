import Mathlib.Data.List.Perm.Subperm
import SchemaSplice.Proofs.Meaning.Acceptance
import SchemaSplice.Validator.Synthesis
/-!
# What the tests and readings of shapes mean

Each test that synthesis makes on a type, and each normal form that it takes, is matched here with the values of the type.
The main statements say that the options of a union lose no value: dropping duplicates, covered literals
and brands keeps what the options admit together, and a whole enum is all of its members.
-/

namespace SchemaSplice.Types

variable {t : Table} {id : TypeId}

/-! ### Tests -/

theorem object?_eq_some_iff {o : ObjectType} : t.object? id = some o ↔ t.kind id = .object o := by
  unfold Table.object? TypeKind.object?
  cases t.kind id <;> simp

theorem isFunction_iff : t.isFunction id = true ↔ Callable t id := by
  unfold Table.isFunction Table.calls Callable
  cases h : t.object? id with
  | none =>
    simp only [Option.map_none, Option.getD_none, List.isEmpty_nil, Bool.not_true, Bool.false_eq_true,
      false_iff, not_exists, not_and]
    intro o ho
    rw [object?_eq_some_iff.mpr ho] at h
    cases h
  | some o =>
    have ho := object?_eq_some_iff.mp h
    simp [ho]

theorem isAbsent_eq_false_iff : t.isAbsent id = false ↔ Present t id := by
  simp [Table.isAbsent, Table.isKind, Present]

theorem holdsFunction_iff : t.holdsFunction id = true ↔ FunctionValued t id := by
  unfold Table.holdsFunction FunctionValued
  cases hk : t.kind id with
  | union ms =>
    simp only [TypeKind.union?, Bool.and_eq_true, Bool.not_eq_true', List.isEmpty_eq_false_iff_exists_mem,
      List.mem_filter, isAbsent_eq_false_iff, List.all_eq_true, isFunction_iff, and_imp]
  | _ => simp only [TypeKind.union?, isFunction_iff]

theorem hasMembers_iff {o : ObjectType} (h : t.kind id = .object o) (names : List String) :
    t.hasMembers id names = true ↔ o.Offers names := by
  have ho := object?_eq_some_iff.mpr h
  simp [Table.hasMembers, Table.property?, ObjectType.property?, ObjectType.Offers, ho]

theorem isEmptyObject_iff : t.isEmptyObject id = true ↔ IsEmptyType t id := by
  unfold Table.isEmptyObject IsEmptyType ObjectType.IsEmpty
  cases h : t.object? id with
  | none =>
    simp only [Bool.false_eq_true, false_iff, not_exists, not_and]
    intro o ho
    rw [object?_eq_some_iff.mpr ho] at h
    cases h
  | some o =>
    have ho := object?_eq_some_iff.mp h
    simp [ho, and_assoc]

theorem isRecordLike_iff : t.isRecordLike id = true ↔ ∃ o, IsObject t id o := by
  unfold Table.isRecordLike Table.isFunction Table.calls IsObject
  cases h : t.object? id with
  | none =>
    simp only [Option.isSome_none, Bool.false_and, Bool.false_eq_true, false_iff, not_exists, not_and]
    intro o ho
    rw [object?_eq_some_iff.mpr ho] at h
    cases h
  | some o =>
    have ho := object?_eq_some_iff.mp h
    simp [ho]

/-- The shape of an object type, by the tests in their order. -/
theorem shape_eq {o : ObjectType} (h : t.kind id = .object o) :
    o.shape = if t.isDate id then .date else if t.isSet id then .set else if t.isMap id then .map
      else if (t.recordArgs? id).isSome then .record else .plain := by
  have hrec : ((t.recordArgs? id).isSome = true) ↔ o.aliased.map (·.name) = some "Record" := by
    have ho := object?_eq_some_iff.mpr h
    cases ha : o.aliased with
    | none => simp [Table.recordArgs?, Table.aliased?, ho, ha]
    | some a =>
      by_cases hn : a.name = "Record"
      · simp [Table.recordArgs?, Table.aliased?, ho, ha, hn]
      · simp [Table.recordArgs?, Table.aliased?, ho, ha, hn]
  simp only [ObjectType.shape, Table.isDate, Table.isSet, Table.isMap, hasMembers_iff h, hrec]

theorem recordArgs?_eq_some {o : ObjectType} (h : t.kind id = .object o)
    {key value : Option TypeId} (ha : t.recordArgs? id = some (key, value)) :
    key = o.aliasArgs[0]? ∧ value = o.aliasArgs[1]? := by
  have ho := object?_eq_some_iff.mpr h
  unfold Table.recordArgs? Table.aliased? at ha
  rw [ho, Option.bind_some] at ha
  unfold ObjectType.aliasArgs
  cases hal : o.aliased with
  | none => simp [hal] at ha
  | some a =>
    simp only [hal, beq_iff_eq, Option.ite_none_right_eq_some, Option.some.injEq, Prod.mk.injEq] at ha
    simp [← ha.2.1, ← ha.2.2]

theorem brandBase?_eq_some_iff {base : TypeId} : t.brandBase? id = some base ↔ BrandOf t id base := by
  unfold Table.brandBase? BrandOf
  constructor
  · intro h
    split at h
    · next a b hk =>
      have hki : t.kind id = .intersection [a, b] := by
        unfold TypeKind.intersection? at hk
        split at hk <;> simp_all
      refine ⟨a, b, hki, ?_⟩
      simp only [← isEmptyObject_iff]
      split at h <;> simp_all
    · cases h
  · rintro ⟨a, b, hk, h⟩
    simp only [hk, TypeKind.intersection?]
    simp only [← isEmptyObject_iff] at h
    rcases h with ⟨ha, hb, rfl⟩ | ⟨ha, hb, rfl⟩
    · simp [ha, hb]
    · simp [ha, hb]

theorem objectIntersection_of_intersectionShape {ms : List TypeId}
    (h : t.intersectionShape id = .ok (.chain ms)) : ObjectIntersection t id ms := by
  unfold Table.intersectionShape at h
  simp only at h
  split at h
  · next hcond =>
    cases h
    rw [Bool.and_eq_true, decide_eq_true_eq, List.all_eq_true] at hcond
    cases hk : t.kind id with
    | intersection ms =>
      rw [hk] at hcond
      exact ⟨hk, hcond.1, fun m hm => isRecordLike_iff.mp (hcond.2 m hm)⟩
    | _ => simp [hk, TypeKind.intersection?] at hcond
  · split at h <;> cases h

theorem intersectionShape_of_objectIntersection {ms : List TypeId} (h : ObjectIntersection t id ms) :
    t.intersectionShape id = .ok (.chain ms) := by
  have hcond : (decide (2 ≤ ms.length) && ms.all t.isRecordLike) = true := by
    rw [Bool.and_eq_true, decide_eq_true_eq, List.all_eq_true]
    exact ⟨h.2.1, fun m hm => isRecordLike_iff.mpr (h.2.2 m hm)⟩
  unfold Table.intersectionShape
  simp only [h.1, TypeKind.intersection?, Option.getD_some, hcond, if_true]

theorem brandOf_of_intersectionShape {m : TypeId} (h : t.intersectionShape id = .ok (.single m)) :
    BrandOf t id m := by
  unfold Table.intersectionShape at h
  simp only at h
  split at h
  · cases h
  · split at h
    · next hne =>
      cases h
      unfold Table.stripBrand at hne ⊢
      cases hb : t.brandBase? id with
      | none => simp [hb] at hne
      | some base => exact brandBase?_eq_some_iff.mp hb
    · cases h

theorem eq_map_required {elements : List Element} (h : elements.all (·.flag == .required) = true) :
    elements = (elements.map (·.type)).map (⟨·, .required⟩) := by
  induction elements with
  | nil => rfl
  | cons e es ih =>
    rw [List.all_cons, Bool.and_eq_true, beq_iff_eq] at h
    rw [List.map_cons, List.map_cons, ← ih h.2, ← h.1]

theorem tupleShape_eq_ok {elements : List Element} {shape : Table.TupleShape}
    (h : t.tupleShape id elements = .ok shape) : elements = tupleElements shape.items shape.rest := by
  unfold Table.tupleShape at h
  cases hlast : elements.getLast? with
  | none =>
    rw [hlast] at h
    simp only at h
    split at h
    · next hall =>
      cases h
      simp only [tupleElements, Option.map_none, Option.toList_none, List.append_nil]
      exact eq_map_required hall
    · cases h
  | some last =>
    have hsplit : elements = elements.dropLast ++ [last] := by
      obtain ⟨front, rfl⟩ := List.getLast?_eq_some_iff.mp hlast
      rw [List.dropLast_concat]
    obtain ⟨type, flag⟩ := last
    cases flag with
    | rest =>
      rw [hlast] at h
      simp only at h
      split at h
      · next hall =>
        cases h
        simp only [tupleElements, Option.map_some, Option.toList_some]
        rw [← eq_map_required hall]
        exact hsplit
      · cases h
    | _ =>
      rw [hlast] at h
      simp only at h
      split at h
      · next hall =>
        cases h
        simp only [tupleElements, Option.map_none, Option.toList_none, List.append_nil]
        exact eq_map_required hall
      · cases h

/-! ### Options of a union -/

/-- The given members of enums are those that the types of a table speak of, in the number that the table records. -/
structure Enumerates (members : EnumMembers) (t : Table) : Prop where
  value : ∀ id e m l, t.kind id = .enumLiteral e m l → (members e).lookup m = some l
  count : ∀ e n, t.enumCount? e = some n → n = (members e).length

theorem inhabits_of_literal? {l : Literal} (h : t.literal? id = some l) (v : Value) :
    Inhabits t id v ↔ l.Holds v := by
  unfold Table.literal? TypeKind.literal? at h
  split at h
  · next hk =>
    cases h
    exact inhabits_literal hk
  · next hk =>
    cases h
    exact inhabits_enumLiteral hk
  · cases h

theorem inhabits_iff_of_same {members : EnumMembers} (hE : Enumerates members t) {a b : TypeId}
    (h : t.same a b = true) (v : Value) : Inhabits t a v ↔ Inhabits t b v := by
  rw [Table.same, Bool.or_eq_true, beq_iff_eq] at h
  rcases h with rfl | h
  · rfl
  unfold TypeKind.agrees at h
  split at h
  · next ha hb => exact iff_of_true (.any ha) (.any hb)
  · next ha hb => exact iff_of_true (.unknown ha) (.unknown hb)
  · next ha hb => rw [inhabits_string ha, inhabits_string hb]
  · next ha hb => rw [inhabits_number ha, inhabits_number hb]
  · next ha hb => rw [inhabits_boolean ha, inhabits_boolean hb]
  · next ha hb => rw [inhabits_bigInt ha, inhabits_bigInt hb]
  · next ha hb => rw [inhabits_null ha, inhabits_null hb]
  · next ha hb => rw [inhabits_undefined ha, inhabits_undefined hb]
  · next ha hb => rw [inhabits_void ha, inhabits_void hb]
  · next ha hb => exact iff_of_false (not_inhabits_never ha) (not_inhabits_never hb)
  · next ha hb =>
    rw [inhabits_literal ha, inhabits_literal hb]
    exact Literal.holds_iff_of_agrees h v
  · next e m l e' m' l' ha hb =>
    rw [Bool.and_eq_true, beq_iff_eq, beq_iff_eq] at h
    obtain ⟨rfl, rfl⟩ := h
    have hl : l = l' := Option.some.inj ((hE.value a e m l ha).symm.trans (hE.value b e m l' hb))
    rw [inhabits_enumLiteral ha, inhabits_enumLiteral hb, hl]
  · cases h

theorem mem_of_mem_dedupe (kept ms : List TypeId) {m : TypeId} (h : m ∈ t.dedupe kept ms) :
    m ∈ kept ∨ m ∈ ms := by
  induction ms generalizing kept with
  | nil => exact Or.inl h
  | cons x xs ih =>
    rw [Table.dedupe] at h
    split at h
    · exact (ih kept h).imp_right (List.mem_cons_of_mem x)
    · rcases ih _ h with h | h
      · rw [List.mem_append, List.mem_singleton] at h
        rcases h with h | rfl
        · exact Or.inl h
        · exact Or.inr List.mem_cons_self
      · exact Or.inr (List.mem_cons_of_mem x h)

theorem exists_same_mem_dedupe (kept ms : List TypeId) {m : TypeId} (h : m ∈ kept ∨ m ∈ ms) :
    ∃ k ∈ t.dedupe kept ms, t.same k m = true := by
  induction ms generalizing kept m with
  | nil =>
    rcases h with h | h
    · exact ⟨m, h, t.same_refl m⟩
    · cases h
  | cons x xs ih =>
    rw [Table.dedupe]
    split
    · next hany =>
      rw [List.any_eq_true] at hany
      obtain ⟨k, hk, hsame⟩ := hany
      rcases h with h | h
      · exact ih kept (Or.inl h)
      · rcases List.mem_cons.mp h with rfl | h
        · obtain ⟨k', hk', hsame'⟩ := ih kept (Or.inl hk)
          exact ⟨k', hk', Table.same_trans hsame' hsame⟩
        · exact ih kept (Or.inr h)
    · apply ih
      rw [List.mem_append, List.mem_singleton]
      rcases h with h | h
      · exact Or.inl (Or.inl h)
      · rcases List.mem_cons.mp h with rfl | h
        · exact Or.inl (Or.inr rfl)
        · exact Or.inr h

theorem dedupe_pairwise (kept ms : List TypeId) (h : kept.Pairwise (t.same · · = false)) :
    (t.dedupe kept ms).Pairwise (t.same · · = false) := by
  induction ms generalizing kept with
  | nil => exact h
  | cons x xs ih =>
    rw [Table.dedupe]
    split
    · exact ih kept h
    · next hany =>
      apply ih
      rw [List.pairwise_append]
      refine ⟨h, List.pairwise_singleton _ _, ?_⟩
      intro a ha b hb
      rw [List.mem_singleton] at hb
      subst hb
      by_contra hne
      rw [Bool.not_eq_false] at hne
      exact hany (List.any_eq_true.mpr ⟨a, ha, hne⟩)

theorem exists_mem_dedupe {members : EnumMembers} (hE : Enumerates members t) (ms : List TypeId)
    (v : Value) : (∃ m ∈ t.dedupe [] ms, Inhabits t m v) ↔ ∃ m ∈ ms, Inhabits t m v := by
  constructor
  · rintro ⟨m, hm, hv⟩
    rcases mem_of_mem_dedupe [] ms hm with h | h
    · cases h
    · exact ⟨m, h, hv⟩
  · rintro ⟨m, hm, hv⟩
    obtain ⟨k, hk, hsame⟩ := exists_same_mem_dedupe (t := t) [] ms (Or.inr hm)
    exact ⟨k, hk, (inhabits_iff_of_same hE hsame v).mpr hv⟩

theorem mem_dropAbsorbed_of_literal?_none {ms : List TypeId} {m : TypeId} (hm : m ∈ ms)
    (h : t.literal? m = none) : m ∈ t.dropAbsorbed ms := by
  simp [Table.dropAbsorbed, Table.isTextLiteral, Table.isNumberLiteral, Table.isFlagLiteral, hm, h]

/-- A literal that is dropped is covered by a member that is not a literal. -/
theorem exists_cover_of_not_mem_dropAbsorbed {ms : List TypeId} {m : TypeId} (hm : m ∈ ms)
    (h : m ∉ t.dropAbsorbed ms) :
    ∃ l, t.literal? m = some l ∧
      ∃ k ∈ ms, t.literal? k = none ∧ ∀ v, l.Holds v → Inhabits t k v := by
  have hnone : ∀ {k : TypeId} {wide : TypeKind}, t.kind k = wide → wide.literal? = none →
      t.literal? k = none := by
    intro k wide hk hw
    rw [Table.literal?, hk, hw]
  simp only [Table.dropAbsorbed, Table.isTextLiteral, Table.isNumberLiteral, Table.isFlagLiteral,
    Table.isKind, List.mem_filter, hm, true_and, Bool.not_eq_true, Bool.not_eq_false', Bool.or_eq_true,
    Bool.and_eq_true, List.any_eq_true, beq_iff_eq] at h
  rcases h with (⟨⟨k, hk, hwide⟩, hlit⟩ | ⟨⟨k, hk, hwide⟩, hlit⟩) | ⟨⟨k, hk, hwide⟩, hlit⟩
  all_goals
    split at hlit
    · next s hs =>
      refine ⟨_, hs, k, hk, hnone hwide rfl, ?_⟩
      intro v hv
      cases v <;> simp only [Literal.Holds] at hv
      first
        | exact .string hwide
        | exact .number hwide
        | exact .boolean hwide
    · cases hlit

theorem exists_mem_dropAbsorbed (ms : List TypeId) (v : Value) :
    (∃ m ∈ t.dropAbsorbed ms, Inhabits t m v) ↔ ∃ m ∈ ms, Inhabits t m v := by
  constructor
  · rintro ⟨m, hm, hv⟩
    exact ⟨m, (List.mem_filter.mp hm).1, hv⟩
  · rintro ⟨m, hm, hv⟩
    by_cases hkeep : m ∈ t.dropAbsorbed ms
    · exact ⟨m, hkeep, hv⟩
    · obtain ⟨l, hl, k, hk, hnone, hcover⟩ := exists_cover_of_not_mem_dropAbsorbed hm hkeep
      refine ⟨k, mem_dropAbsorbed_of_literal?_none hk hnone, hcover v ?_⟩
      exact (inhabits_of_literal? hl v).mp hv

theorem inhabits_stripBrand (m : TypeId) (v : Value) :
    Inhabits t (t.stripBrand m) v ↔ Inhabits t m v := by
  unfold Table.stripBrand
  cases h : t.brandBase? m with
  | none => rfl
  | some base => exact (inhabits_brand (brandBase?_eq_some_iff.mp h)).symm

/-- The options of a union admit what its members other than `null` and `undefined` admit. -/
theorem exists_mem_unionOptions {members : EnumMembers} (hE : Enumerates members t)
    (ms : List TypeId) (v : Value) :
    (∃ m ∈ Synthesis.unionOptions t ms, Inhabits t m v) ↔ ∃ m ∈ ms, Present t m ∧ Inhabits t m v := by
  unfold Synthesis.unionOptions
  rw [exists_mem_dropAbsorbed, exists_mem_dedupe hE]
  constructor
  · rintro ⟨m, hm, hv⟩
    obtain ⟨m', hm', rfl⟩ := List.mem_map.mp hm
    rw [List.mem_filter, Bool.not_eq_true', isAbsent_eq_false_iff] at hm'
    exact ⟨m', hm'.1, hm'.2, (inhabits_stripBrand m' v).mp hv⟩
  · rintro ⟨m, hm, hpresent, hv⟩
    refine ⟨t.stripBrand m, List.mem_map_of_mem ?_, (inhabits_stripBrand m v).mpr hv⟩
    rw [List.mem_filter, Bool.not_eq_true', isAbsent_eq_false_iff]
    exact ⟨hm, hpresent⟩

theorem unionOptions_ne_nil {ms : List TypeId} {m : TypeId} (hm : m ∈ ms) (hp : Present t m) :
    Synthesis.unionOptions t ms ≠ [] := by
  have hstrip : t.stripBrand m ∈ (ms.filter (!t.isAbsent ·)).map t.stripBrand := by
    apply List.mem_map_of_mem
    rw [List.mem_filter, Bool.not_eq_true', isAbsent_eq_false_iff]
    exact ⟨hm, hp⟩
  obtain ⟨k, hk, -⟩ := exists_same_mem_dedupe (t := t) [] _ (Or.inr hstrip)
  unfold Synthesis.unionOptions
  by_cases hkeep : k ∈ t.dropAbsorbed (t.dedupe [] ((ms.filter (!t.isAbsent ·)).map t.stripBrand))
  · exact List.ne_nil_of_mem hkeep
  · obtain ⟨l, -, k', hk', hnone, -⟩ := exists_cover_of_not_mem_dropAbsorbed hk hkeep
    exact List.ne_nil_of_mem (mem_dropAbsorbed_of_literal?_none hk' hnone)

theorem unionOptions_pairwise (ms : List TypeId) :
    (Synthesis.unionOptions t ms).Pairwise (t.same · · = false) :=
  (dedupe_pairwise [] _ List.Pairwise.nil).filter _

theorem wholeEnum?_eq_some {options : List TypeId} {e : String}
    (h : t.wholeEnum? options = some e) :
    (∀ m ∈ options, ∃ name l, t.kind m = .enumLiteral e name l) ∧
      t.enumCount? e = some options.length := by
  unfold Table.wholeEnum? at h
  split at h
  · cases h
  · next first rest =>
    split at h
    · cases h
    · next parent hfirst =>
      split at h
      · next hcond =>
        cases h
        rw [Bool.and_eq_true, List.all_eq_true, beq_iff_eq] at hcond
        refine ⟨?_, hcond.2⟩
        intro m hm
        have henum : t.enumOf? m = some e := by
          rcases List.mem_cons.mp hm with rfl | hm
          · exact hfirst
          · exact beq_iff_eq.mp (hcond.1 m hm)
        unfold Table.enumOf? at henum
        split at henum
        · next e' name l hk =>
          cases henum
          exact ⟨name, l, hk⟩
        · cases henum
      · cases h

theorem mem_of_lookup {entries : List (String × Literal)} {k : String} {l : Literal}
    (h : entries.lookup k = some l) : (k, l) ∈ entries := by
  obtain ⟨front, back, rfl, -⟩ := List.lookup_eq_some_iff.mp h
  exact List.mem_append_right front List.mem_cons_self

theorem lookup_of_mem {entries : List (String × Literal)} (hn : (entries.map (·.1)).Nodup)
    {k : String} {l : Literal} (h : (k, l) ∈ entries) : entries.lookup k = some l := by
  obtain ⟨front, back, rfl⟩ := List.append_of_mem h
  refine List.lookup_eq_some_iff.mpr ⟨front, back, rfl, ?_⟩
  intro p hp
  rw [List.map_append, List.nodup_append] at hn
  rw [bne_iff_ne]
  exact (hn.2.2 p.1 (List.mem_map_of_mem hp) k (by simp)).symm

/-- The name of the enum member that a type is. -/
def memberName (t : Table) (id : TypeId) : String :=
  match t.kind id with
  | .enumLiteral _ m _ => m
  | _ => ""

/-- Different members of an enum, as many as it has, are all of them. -/
theorem exists_mem_of_wholeEnum? {members : EnumMembers} (hE : Enumerates members t)
    {options : List TypeId} (hdistinct : options.Pairwise (t.same · · = false)) {e : String}
    (h : t.wholeEnum? options = some e) (v : Value) :
    (∃ m ∈ members e, m.2.Holds v) ↔ ∃ m ∈ options, Inhabits t m v := by
  obtain ⟨hmembers, hcount⟩ := wholeEnum?_eq_some h
  have hname : ∀ m ∈ options, ∃ l, t.kind m = .enumLiteral e (memberName t m) l ∧
      (members e).lookup (memberName t m) = some l := by
    intro m hm
    obtain ⟨name, l, hk⟩ := hmembers m hm
    have hn : memberName t m = name := by
      rw [memberName, hk]
    rw [hn]
    exact ⟨l, hk, hE.value m e name l hk⟩
  have hsub : options.map (memberName t) ⊆ (members e).map (·.1) := by
    intro n hn
    obtain ⟨m, hm, rfl⟩ := List.mem_map.mp hn
    obtain ⟨l, -, hl⟩ := hname m hm
    exact List.mem_map_of_mem (mem_of_lookup hl)
  have hnodup : (options.map (memberName t)).Nodup := by
    rw [List.Nodup, List.pairwise_map]
    refine hdistinct.imp_of_mem ?_
    intro a b ha hb hab heq
    obtain ⟨la, hka, -⟩ := hname a ha
    obtain ⟨lb, hkb, -⟩ := hname b hb
    simp [Table.same, TypeKind.agrees, hka, hkb, heq] at hab
  have hperm : (options.map (memberName t)).Perm ((members e).map (·.1)) := by
    apply (hnodup.subperm hsub).perm_of_length_le
    rw [List.length_map, List.length_map]
    exact Nat.le_of_eq (hE.count e _ hcount).symm
  constructor
  · rintro ⟨⟨n, l⟩, hm, hv⟩
    have hn : n ∈ options.map (memberName t) := hperm.mem_iff.mpr (List.mem_map_of_mem hm)
    obtain ⟨o, ho, rfl⟩ := List.mem_map.mp hn
    obtain ⟨l', hk, hl'⟩ := hname o ho
    rw [lookup_of_mem (hperm.nodup hnodup) hm, Option.some.injEq] at hl'
    subst hl'
    exact ⟨o, ho, .enumLiteral hk hv⟩
  · rintro ⟨m, hm, hv⟩
    obtain ⟨l, hk, hl⟩ := hname m hm
    exact ⟨_, mem_of_lookup hl, (inhabits_enumLiteral hk).mp hv⟩

end SchemaSplice.Types
