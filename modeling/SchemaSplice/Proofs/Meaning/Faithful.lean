import SchemaSplice.Proofs.Meaning.Layers
import SchemaSplice.Types.Builtin
/-!
# Validators mean their types

A validator accepts exactly the values of its type, in every case but one: a date, set, map or record that is a member
of an intersection of objects is not validated as one. The main theorem says that this is the only gap, and
two tables show it: one with a record in an intersection, and one that is validated as it should be.
-/

namespace SchemaSplice

open SchemaSplice.Types Validator

/-! ### All layers -/

/-- Every validator that synthesis yields accepts exactly the values of its type. -/
def Faithful (t : Table) (members : EnumMembers) : Prop :=
  ∀ limit depth id z, synthesize t limit depth id = .ok z →
    ∀ v, z.Accepts members v ↔ Inhabits t id v

def PlainIntersections (t : Table) : Prop :=
  ∀ id ms, ObjectIntersection t id ms → ∀ m ∈ ms, ∀ o, IsObject t m o → o.shape = .plain

section

variable {t : Table} {members : EnumMembers}

theorem layer_of_synthesize {limit depth : Nat} {id : TypeId} {z : Validator}
    (h : synthesize t limit depth id = .ok z) :
    depth ≤ limit ∧
      Synthesis.layer t (fun k part => synthesize t limit (depth + 1 + k) part) id = .ok z := by
  rw [synthesize] at h
  split at h
  · cases h
  · next hle => exact ⟨Nat.le_of_not_lt hle, h⟩

theorem faithful_of_metByProperties (hE : Enumerates members t) (hpending : NoPending t)
    (hunions : ProperUnions t)
    (hmet : ∀ limit depth id z, synthesize t limit depth id = .ok z → MetByProperties t id) :
    Faithful t members := by
  intro limit depth
  -- The levels that are left bound the recursion.
  induction hn : limit + 1 - depth using Nat.strongRecOn generalizing depth with
  | ind n ih =>
    intro id z h v
    obtain ⟨hle, hlayer⟩ := layer_of_synthesize h
    refine Synthesis.layer_accepts hE hpending hunions ?_ (hmet limit depth id z h) hlayer v
    intro k part z' hz'
    exact ih (limit + 1 - (depth + 1 + k)) (by omega) (depth + 1 + k) rfl part z' hz'

theorem metByProperties_of_faithful (hfaithful : Faithful t members) {limit depth : Nat} {id : TypeId}
    {z : Validator} (h : synthesize t limit depth id = .ok z) : MetByProperties t id := by
  intro ms hms v
  obtain ⟨-, hlayer⟩ := layer_of_synthesize h
  rw [Synthesis.layer_of_objectIntersection hms] at hlayer
  rw [← hfaithful limit depth id z h v]
  refine Synthesis.chain_accepts ?_ hms.ne_nil hms.2.2 hlayer v
  intro k part z' hz'
  exact hfaithful limit (depth + 1 + k) part z' hz'

/-- Beside an empty object, the other member of a brand decides. -/
theorem inhabits_base_iff_of_brandOf {id base : TypeId} {ms : List TypeId}
    (hms : ObjectIntersection t id ms) (hbase : BrandOf t id base) {v : Value}
    (hmeet : ∀ m ∈ ms, (Inhabits t m v ↔ MeetsProperties t m v)) :
    Inhabits t base v ↔ ∀ m ∈ ms, MeetsProperties t m v := by
  have hempty : ∀ {m m' : TypeId}, IsEmptyType t m → MeetsProperties t m' v → MeetsProperties t m v := by
    rintro m m' ⟨o, ho, hprops, hcalls, -⟩ ⟨-, fields, -, rfl, -⟩
    refine ⟨o, fields, ⟨ho, hcalls⟩, rfl, ?_⟩
    intro p hp
    rw [hprops] at hp
    cases hp
  obtain ⟨a, b, hk, hab⟩ := hbase
  have hpair : ms = [a, b] := by
    have := hms.1.symm.trans hk
    rwa [TypeKind.intersection.injEq] at this
  subst hpair
  simp only [List.mem_cons, List.not_mem_nil, or_false, forall_eq_or_imp, forall_eq] at hmeet ⊢
  rcases hab with ⟨ha, -, rfl⟩ | ⟨-, hb, rfl⟩
  · rw [hmeet.2]
    exact ⟨fun h => ⟨hempty ha h, h⟩, fun h => h.2⟩
  · rw [hmeet.1]
    exact ⟨fun h => ⟨h, hempty hb h⟩, fun h => h.1⟩

theorem metByProperties_of_plain (hplain : PlainIntersections t) (id : TypeId) :
    MetByProperties t id := by
  intro ms hms v
  have hmeet : ∀ m ∈ ms, (Inhabits t m v ↔ MeetsProperties t m v) := by
    intro m hm
    obtain ⟨o, ho⟩ := hms.2.2 m hm
    exact inhabits_plain ho (hplain id ms hms m hm o ho)
  by_cases hb : ∃ base, BrandOf t id base
  · obtain ⟨base, hbase⟩ := hb
    rw [inhabits_brand hbase]
    exact inhabits_base_iff_of_brandOf hms hbase hmeet
  · rw [inhabits_intersection hms hb]
    exact forall₂_congr hmeet

/-- Validators mean their types exactly when the intersections of objects that get a validator are met by meeting the
properties of their members; intersections of plain objects are. -/
theorem faithful_iff_metByProperties (hE : Enumerates members t) (hpending : NoPending t)
    (hunions : ProperUnions t) :
    (Faithful t members ↔
        ∀ limit depth id z, synthesize t limit depth id = .ok z → MetByProperties t id) ∧
      (PlainIntersections t → Faithful t members) := by
  refine ⟨⟨?_, faithful_of_metByProperties hE hpending hunions⟩, ?_⟩
  · intro hfaithful limit depth id z h
    exact metByProperties_of_faithful hfaithful h
  · intro hplain
    apply faithful_of_metByProperties hE hpending hunions
    intro limit depth id z _
    exact metByProperties_of_plain hplain id

end

/-! ### Tables of given kinds -/

/-- A table whose places hold the given kinds. -/
def tableOfKinds (kinds : List TypeKind) (enums : List (String × Nat)) : Table :=
  { slots := (kinds.map Slot.kind).toArray, enums }

theorem kind_tableOfKinds (kinds : List TypeKind) (enums : List (String × Nat)) (id : TypeId) :
    (tableOfKinds kinds enums).kind id = kinds[id.slot]?.getD .never := by
  cases hs : kinds with
  | nil => rfl
  | cons k ks =>
    have hsize : (tableOfKinds (k :: ks) enums).size = ks.length + 1 := by
      simp [tableOfKinds, Table.size]
    rw [Table.kind, hsize, Table.follow]
    simp only [tableOfKinds, List.getElem?_toArray, List.getElem?_map]
    cases (k :: ks)[id.slot]? <;> rfl

theorem forall_kind_tableOfKinds {kinds : List TypeKind} {P : TypeKind → Prop} (hnever : P .never)
    (h : ∀ k ∈ kinds, P k) (enums : List (String × Nat)) (id : TypeId) :
    P ((tableOfKinds kinds enums).kind id) := by
  rw [kind_tableOfKinds]
  cases hk : kinds[id.slot]? with
  | none => exact hnever
  | some k => exact h k (List.mem_of_getElem? hk)

/-- `Record<string, number> & { a: string }` in place 4. -/
def recordAndObject : Table :=
  tableOfKinds
    [.string, .number, .object (Builtin.recordObject ⟨0⟩ ⟨1⟩),
      .object { properties := [⟨.name "a", ⟨0⟩, false⟩] }, .intersection [⟨2⟩, ⟨3⟩]] []

theorem recordAndObject_enumerates : Enumerates (fun _ => []) recordAndObject := by
  constructor
  · intro id
    exact forall_kind_tableOfKinds (P := fun k => ∀ e m l, k = .enumLiteral e m l → _ = some l)
      (by simp) (by simp [Builtin.recordObject]) [] id
  · intro e n h
    cases h

theorem recordAndObject_noPending : NoPending recordAndObject :=
  forall_kind_tableOfKinds (P := (· ≠ .pending)) (by simp) (by simp) []

theorem recordAndObject_properUnions : ProperUnions recordAndObject :=
  forall_kind_tableOfKinds
    (P := fun k => ∀ ms, k = .union ms → 2 ≤ ms.length ∧ ms.Pairwise (recordAndObject.same · · = false))
    (by simp) (by simp) []

/-- A record in an intersection is validated as an object without properties: a field that is no number passes. -/
theorem recordAndObject_accepts_stray_text :
    Enumerates (fun _ => []) recordAndObject ∧ NoPending recordAndObject ∧ ProperUnions recordAndObject ∧
      ∃ z, synthesize recordAndObject 30 0 ⟨4⟩ = .ok z ∧
        z.Accepts (fun _ => []) (.object [("a", .text "x")]) ∧
          ¬Inhabits recordAndObject ⟨4⟩ (.object [("a", .text "x")]) := by
  refine ⟨recordAndObject_enumerates, recordAndObject_noPending, recordAndObject_properUnions,
    .call "intersection" [.validator (.call "object" [.fields []]),
      .validator (.call "object" [.fields [("a", .call "string" [])]])], by cbv, ?_, ?_⟩
  · show (call "object" [.fields []]).Accepts (fun _ => []) _ ∧
      (call "object" [.fields [("a", .call "string" [])]]).Accepts (fun _ => []) _
    rw [accepts_object, accepts_object]
    refine ⟨⟨_, rfl, by simp⟩, ⟨_, rfl, ?_⟩⟩
    intro e he
    rw [List.mem_singleton] at he
    subst he
    exact ⟨"x", rfl⟩
  · intro hv
    have hrecord : IsObject recordAndObject ⟨2⟩ (Builtin.recordObject ⟨0⟩ ⟨1⟩) := ⟨by rfl, rfl⟩
    have hplain : IsObject recordAndObject ⟨3⟩ { properties := [⟨.name "a", ⟨0⟩, false⟩] } :=
      ⟨by rfl, rfl⟩
    have hms : ObjectIntersection recordAndObject ⟨4⟩ [⟨2⟩, ⟨3⟩] := by
      refine ⟨by rfl, by decide, ?_⟩
      simp only [List.mem_cons, List.not_mem_nil, or_false, forall_eq_or_imp, forall_eq]
      exact ⟨⟨_, hrecord⟩, ⟨_, hplain⟩⟩
    have hbrand : ¬∃ base, BrandOf recordAndObject ⟨4⟩ base := by
      rintro ⟨base, hb⟩
      rw [← brandBase?_eq_some_iff] at hb
      have hnone : recordAndObject.brandBase? ⟨4⟩ = none := by decide
      rw [hnone] at hb
      cases hb
    rw [inhabits_intersection hms hbrand] at hv
    have hfields := (inhabits_record hrecord (by decide)).mp (hv ⟨2⟩ List.mem_cons_self)
    obtain ⟨fields, hf, hall⟩ := hfields
    cases hf
    have hnumber := (hall ("a", .text "x") List.mem_cons_self).2 ⟨1⟩ rfl
    rw [inhabits_number (by rfl)] at hnumber
    obtain ⟨x, hx⟩ := hnumber
    cases hx

/-- `{ status: Status | null } & { name: string }` in place 7, where `Status` is a whole enum of two strings. -/
def statusAndName : Table :=
  tableOfKinds
    [.string, .null, .enumLiteral "Status" "On" (.text "on"), .enumLiteral "Status" "Off" (.text "off"),
      .union [⟨2⟩, ⟨3⟩, ⟨1⟩], .object { properties := [⟨.name "status", ⟨4⟩, false⟩] },
      .object { properties := [⟨.name "name", ⟨0⟩, false⟩] }, .intersection [⟨5⟩, ⟨6⟩]] [("Status", 2)]

def statusMembers : EnumMembers
  | "Status" => [("On", .text "on"), ("Off", .text "off")]
  | _ => []

theorem statusAndName_enumerates : Enumerates statusMembers statusAndName := by
  constructor
  · intro id
    refine forall_kind_tableOfKinds
      (P := fun k => ∀ e m l, k = .enumLiteral e m l → (statusMembers e).lookup m = some l)
      (by simp) ?_ _ id
    simp [statusMembers, List.lookup_cons]
  · intro e n h
    by_cases he : e = "Status"
    · subst he
      cases h
      rfl
    · have hnone : statusAndName.enumCount? e = none := by
        simp [statusAndName, tableOfKinds, Table.enumCount?, he]
      rw [hnone] at h
      cases h

theorem statusAndName_faithful :
    Enumerates statusMembers statusAndName ∧ NoPending statusAndName ∧ ProperUnions statusAndName ∧
      PlainIntersections statusAndName ∧ Faithful statusAndName statusMembers := by
  have hpending : NoPending statusAndName :=
    forall_kind_tableOfKinds (P := (· ≠ .pending)) (by simp) (by simp) _
  have hunions : ProperUnions statusAndName := by
    refine forall_kind_tableOfKinds
      (P := fun k => ∀ ms, k = .union ms → 2 ≤ ms.length ∧ ms.Pairwise (statusAndName.same · · = false))
      (by simp) ?_ _
    simp only [List.forall_mem_cons, List.not_mem_nil, reduceCtorEq, false_implies, implies_true,
      true_and, and_true, TypeKind.union.injEq, forall_eq']
    decide
  have hplain : PlainIntersections statusAndName := by
    intro id ms hms m hm o ho
    have hpair : ms = [⟨5⟩, ⟨6⟩] :=
      forall_kind_tableOfKinds (P := fun k => ∀ ms, k = .intersection ms → ms = [⟨5⟩, ⟨6⟩])
        (by simp) (by simp) _ id ms hms.1
    rw [hpair, List.mem_cons, List.mem_singleton] at hm
    rcases hm with rfl | rfl
    · cases ho.1
      decide
    · cases ho.1
      decide
  exact ⟨statusAndName_enumerates, hpending, hunions, hplain,
    (faithful_iff_metByProperties statusAndName_enumerates hpending hunions).2 hplain⟩

end SchemaSplice
