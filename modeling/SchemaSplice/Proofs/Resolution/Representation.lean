import SchemaSplice.Proofs.Resolution.Requests
/-!
# How types are represented

What holds of the table, the memo, the enums and the values in every reachable state: all types are in the table, keys of
object types are distinct, and what is recorded of an enum fits what stands in the table. Each part is kept by every move.
-/

namespace SchemaSplice.Declaration

open Annotation Source SchemaSplice.Types HasIds

variable {p : Project} {s t : TypeState}

/-! ### What moves keep -/

/-- Reading an enum leaves the state as it is, or adds the types of members and fails, or records them. -/
theorem enumMembers_cases (p : Project) (current : Nat) (name : String) (s : TypeState) :
    stateAfter (enumMembers p current name s) = s ∨
      ∃ entries, stateAfter (enumMembers p current name s) =
          { s with table := (insertMembers name [] entries s.table).2 } ∨
        s.enums.lookup name = none ∧ stateAfter (enumMembers p current name s) =
          { s with
            table := (Table.recordEnum name (insertMembers name [] entries s.table).1.length
              (insertMembers name [] entries s.table).2).2
            enums := (name, (insertMembers name [] entries s.table).1) :: s.enums } := by
  rw [enumMembers_apply]
  cases hknown : s.enums.lookup name with
  | some members => exact Or.inl rfl
  | none =>
    cases (p.typesNamed name current).find? (·.form == .enum) with
    | none => exact Or.inl rfl
    | some decl =>
      simp only
      cases (p.file decl.file).closer? (decl.token + 1) with
      | none => exact Or.inl rfl
      | some close =>
        simp only
        generalize enumEntries (p.file decl.file) close.1 (decl.token + 1 + 1) .zero = read
        obtain ⟨entries, error⟩ := read
        cases error with
        | some e => exact Or.inr ⟨entries, Or.inl rfl⟩
        | none => exact Or.inr ⟨entries, Or.inr ⟨trivial, rfl⟩⟩

/-- Moves leave the places of the table as they are; they only add others. -/
theorem Moves.extends (h : Moves p s t) : Extends s t := by
  induction h with
  | refl s => exact Extends.refl s
  | insert _ _ ih => exact ih.insert _
  | @enum s t _ current name ih =>
    exact Keeps.of_sound ((extends_maintained p s).upheld.enumMembers (O := []) current name) t ih
  | @define s t u inst _ _ _ type ih ihbody =>
    intro i hi
    have hlt : i < t.table.size := Nat.lt_of_lt_of_le hi ih.size_le
    have hreserved : i < (t.reserve inst).table.size := Nat.lt_of_lt_of_le hlt (Extends.size_le ((Extends.refl t).insert .pending))
    show (Table.define ⟨t.table.size⟩ type u.table).2.slots[i]? = _
    rw [Table.define_slot_ne (by simp only; omega), ihbody i hreserved, ← ih i hi]
    exact insert_slot_lt t .pending hlt
  | @forget s t u inst _ _ _ ih ihbody =>
    intro i hi
    have hlt : i < t.table.size := Nat.lt_of_lt_of_le hi ih.size_le
    have hreserved : i < (t.reserve inst).table.size := Nat.lt_of_lt_of_le hlt (Extends.size_le ((Extends.refl t).insert .pending))
    show u.table.slots[i]? = _
    rw [ihbody i hreserved, ← ih i hi]
    exact insert_slot_lt t .pending hlt

/-- The place of an instance is still reserved when its body has been read. -/
theorem Moves.reserved {inst : Instance} (h : Moves p (s.reserve inst) t) :
    t.table.slots[s.table.size]? = some (.kind .pending) := by
  have hlt : s.table.size < (s.reserve inst).table.size := by
    show s.table.size < (s.insert .pending).table.size
    rw [insert_size]
    exact Nat.lt_succ_self _
  rw [h.extends _ hlt]
  exact insert_slot_size s .pending

/-- What is remembered for an instance stays remembered. -/
theorem Moves.remembers (h : Moves p s t) {inst : Instance} {type : TypeId} (hinst : s.memo.lookup inst = some type) :
    t.memo.lookup inst = some type := by
  induction h with
  | refl s => exact hinst
  | insert _ _ ih => exact ih hinst
  | @enum s t _ current name ih =>
    have hmemo : (stateAfter (enumMembers p current name t)).memo = t.memo := by
      rcases enumMembers_cases p current name t with h | ⟨_, h | ⟨-, h⟩⟩ <;> rw [h]
    rw [hmemo]
    exact ih hinst
  | @define s t u other _ hnew _ type' ih ihbody =>
    have hne : inst ≠ other := by
      rintro rfl
      cases hnew.symm.trans (ih hinst)
    exact ihbody ((lookup_cons_ne hne _ _).trans (ih hinst))
  | @forget s t u other _ hnew _ ih ihbody =>
    have hne : inst ≠ other := by
      rintro rfl
      cases hnew.symm.trans (ih hinst)
    rw [lookup_filter_ne hne]
    exact ihbody ((lookup_cons_ne hne _ _).trans (ih hinst))

/-! ### Keys -/

/-- No object type of a table has a key twice. -/
def KeyedTable (t : Table) : Prop := ∀ (i : Nat) (o : ObjectType), t.slots[i]? = some (.kind (.object o)) → o.Keyed

theorem KeyedTable.insert (h : KeyedTable s.table) {k : TypeKind} (hk : k.Keyed) : KeyedTable (s.insert k).table := by
  intro i o hslot
  obtain ⟨hlt, -⟩ := Array.getElem?_eq_some_iff.mp hslot
  have hlt : i < s.table.size + 1 := by
    rw [← insert_size s k]
    exact hlt
  rcases Nat.lt_succ_iff_lt_or_eq.mp hlt with hi | rfl
  · rw [insert_slot_lt s k hi] at hslot
    exact h i o hslot
  · rw [insert_slot_size] at hslot
    cases hslot
    exact hk o rfl

theorem KeyedTable.insertMembers (h : KeyedTable s.table) (enumName : String) (members : List (String × TypeId))
    (entries : List (String × Literal)) : KeyedTable (insertMembers enumName members entries s.table).2 := by
  induction entries generalizing s members with
  | nil => exact h
  | cons entry rest ih => exact ih (h.insert (TypeKind.keyed_of_object?_eq_none rfl)) _

theorem KeyedTable.define {table : Table} (h : KeyedTable table) (place type : TypeId) :
    KeyedTable (Table.define place type table).2 := by
  intro i o hslot
  by_cases hne : place.slot = i
  · obtain ⟨hlt, -⟩ := Array.getElem?_eq_some_iff.mp hslot
    have hlt : place.slot < table.size := by
      rw [hne, ← Table.define_size place type table]
      exact hlt
    rw [← hne, Table.define_slot_self hlt] at hslot
    cases hslot
  · rw [Table.define_slot_ne hne] at hslot
    exact h i o hslot

theorem Moves.keyedTable (h : Moves p s t) (hs : KeyedTable s.table) : KeyedTable t.table := by
  induction h with
  | refl s => exact hs
  | insert _ hk ih => exact (ih hs).insert hk
  | @enum s t _ current name ih =>
    rcases enumMembers_cases p current name t with h | ⟨entries, h | ⟨-, h⟩⟩
    · rw [h]
      exact ih hs
    · rw [h]
      exact (ih hs).insertMembers name [] entries
    · rw [h]
      exact (ih hs).insertMembers name [] entries
  | define _ _ _ type ih ihbody =>
    have hreserved := (ih hs).insert (k := .pending) (TypeKind.keyed_of_object?_eq_none rfl)
    exact (ihbody hreserved).define _ type
  | forget _ _ _ ih ihbody => exact ihbody ((ih hs).insert (k := .pending) (TypeKind.keyed_of_object?_eq_none rfl))

/-! ### Enums -/

/-- The registered member count of a recorded enum is the number of its recorded members, whose names are distinct and which are
its own in the table. -/
def Counted (s : TypeState) : Prop :=
  ∀ name members, s.enums.lookup name = some members →
    s.table.enumCount? name = some members.length ∧ (members.map (·.1)).Nodup ∧ AreMembers s.table name members

theorem AreMembers.mono {table : Table} {name : String} {members : List (String × TypeId)}
    (h : AreMembers s.table name members) (hgrow : ∀ i, i < s.table.size → table.slots[i]? = s.table.slots[i]?) :
    AreMembers table name members := by
  intro m hm
  obtain ⟨l, hslot⟩ := h m hm
  obtain ⟨hlt, -⟩ := Array.getElem?_eq_some_iff.mp hslot
  exact ⟨l, (hgrow _ hlt).trans hslot⟩

theorem nodup_putMember {members : List (String × TypeId)} (h : (members.map (·.1)).Nodup) (name : String)
    (type : TypeId) : ((putMember members name type).map (·.1)).Nodup := by
  unfold putMember
  split
  · -- A member that is replaced keeps its name, so the names stay as they are.
    have hnames : (members.map fun m => if m.1 == name then (name, type) else m).map (·.1) = members.map (·.1) := by
      rw [List.map_map]
      refine List.map_congr_left fun m _ => ?_
      by_cases hm : m.1 = name
      · simp [hm]
      · simp [hm]
    rw [hnames]
    exact h
  · next hany =>
    rw [List.map_append]
    refine h.append (List.nodup_singleton _) ?_
    intro key hkey hname
    obtain ⟨m, hm, rfl⟩ := List.mem_map.mp hkey
    exact hany (List.any_eq_true.mpr ⟨m, hm, beq_iff_eq.mpr (List.mem_singleton.mp hname)⟩)

theorem nodup_insertMembers {members : List (String × TypeId)} (h : (members.map (·.1)).Nodup) (enumName : String)
    (entries : List (String × Literal)) (table : Table) :
    ((insertMembers enumName members entries table).1.map (·.1)).Nodup := by
  induction entries generalizing members table with
  | nil => exact h
  | cons entry rest ih => exact ih (nodup_putMember h entry.1 _) _

theorem insertMembers_enums (enumName : String) (members : List (String × TypeId)) (entries : List (String × Literal))
    (table : Table) : (insertMembers enumName members entries table).2.enums = table.enums := by
  induction entries generalizing members table with
  | nil => rfl
  | cons entry rest ih => exact ih _ _

/-- What is recorded of an enum stays right while the table grows. -/
theorem Counted.mono (h : Counted s) (henums : t.enums = s.enums) (hcounts : t.table.enums = s.table.enums)
    (hgrow : Extends s t) : Counted t := by
  intro name members hmembers
  rw [henums] at hmembers
  obtain ⟨hcount, hnodup, hare⟩ := h name members hmembers
  refine ⟨?_, hnodup, hare.mono hgrow⟩
  unfold Table.enumCount? at hcount ⊢
  rw [hcounts]
  exact hcount

theorem Counted.define (h : Counted s) {place : TypeId} (hplace : s.table.slots[place.slot]? = some (.kind .pending))
    (type : TypeId) : Counted { s with table := (Table.define place type s.table).2 } := by
  intro name members hmembers
  obtain ⟨hcount, hnodup, hare⟩ := h name members hmembers
  refine ⟨hcount, hnodup, fun m hm => ?_⟩
  obtain ⟨l, hslot⟩ := hare m hm
  have hne : place.slot ≠ m.2.slot := by
    intro heq
    rw [← heq, hplace] at hslot
    cases hslot
  exact ⟨l, (Table.define_slot_ne hne).trans hslot⟩

theorem Counted.readEnum (h : Counted s) (current : Nat) (name : String) :
    Counted (stateAfter (enumMembers p current name s)) := by
  have hgrow : Extends s (stateAfter (enumMembers p current name s)) := (Moves.enum (.refl s) current name).extends
  rcases enumMembers_cases p current name s with hstate | ⟨entries, hstate | ⟨hnew, hstate⟩⟩
  · rw [hstate]
    exact h
  · rw [hstate] at hgrow ⊢
    exact h.mono rfl (insertMembers_enums _ _ _ _) hgrow
  · rw [hstate] at hgrow ⊢
    intro other members hmembers
    by_cases heq : other = name
    · -- The enum that has just been read.
      subst heq
      rw [show members = (insertMembers other [] entries s.table).1 from
        (Option.some.inj (List.lookup_cons_self.symm.trans hmembers)).symm]
      have hempty : (([] : List (String × TypeId)).map (·.1)).Nodup := List.nodup_nil
      refine ⟨List.lookup_cons_self, nodup_insertMembers hempty _ _ _, ?_⟩
      exact areMembers_insertMembers (fun _ hm => absurd hm List.not_mem_nil) entries
    · rw [lookup_cons_ne heq] at hmembers
      obtain ⟨hcount, hnodup, hare⟩ := h other members hmembers
      refine ⟨?_, hnodup, hare.mono hgrow⟩
      show ((name, _) :: (insertMembers name [] entries s.table).2.enums.filter (·.1 != name)).lookup other = _
      rw [lookup_cons_ne heq, lookup_filter_ne heq, insertMembers_enums]
      exact hcount

theorem Moves.counted (h : Moves p s t) (hs : Counted s) : Counted t := by
  induction h with
  | refl s => exact hs
  | insert _ _ ih => exact (ih hs).mono rfl rfl ((Extends.refl _).insert _)
  | enum _ current name ih => exact (ih hs).readEnum current name
  | define _ _ hbody type ih ihbody =>
    exact Counted.define (ihbody ((ih hs).mono rfl rfl ((Extends.refl _).insert .pending))) hbody.reserved type
  | forget _ _ _ ih ihbody =>
    exact (ihbody ((ih hs).mono rfl rfl ((Extends.refl _).insert .pending))).mono rfl rfl fun _ _ => rfl

/-! ### The invariant -/

/-- How the types that are known are represented. -/
structure Inquiry.Represented (s : Inquiry) : Prop where
  /-- The types in the places of the table are in the table. -/
  slots : ∀ (i : Nat) (slot : Slot), s.table.slots[i]? = some slot → ∀ id ∈ Table.slotIds slot, id.slot < s.table.size
  /-- So are remembered types and the arguments that they are remembered for. -/
  memo : ∀ e ∈ s.types.memo, e.2.slot < s.table.size ∧ ∀ a ∈ e.1.2, a.slot < s.table.size
  /-- So are members of enums. -/
  enums : ∀ e ∈ s.types.enums, ∀ m ∈ e.2, m.2.slot < s.table.size
  /-- So are types of values. -/
  values : ∀ name id, s.values.lookup name = some (some id) → id.slot < s.table.size
  /-- Keys of an object type are distinct. -/
  keys : ∀ (i : Nat) (o : ObjectType), s.table.slots[i]? = some (.kind (.object o)) →
    (o.properties.map (·.key)).Nodup
  /-- As many members of an enum are registered as are recorded, once for each name, and each one reads as what it is. -/
  members : ∀ name members, s.types.enums.lookup name = some members →
    s.table.enumCount? name = some members.length ∧ (members.map (·.1)).Nodup ∧
      ∀ m ∈ members, ∃ value, s.table.kind m.2 = .enumLiteral name m.1 value

theorem Reachable.keyedTable {current : Nat} {s : Inquiry} (h : Reachable p current s) : KeyedTable s.table := by
  induction h with
  | start => exact fun _ _ hslot => nomatch hslot
  | serve r _ _ ih => exact (moves_serve p current _ r).keyedTable ih

theorem Reachable.counted {current : Nat} {s : Inquiry} (h : Reachable p current s) : Counted s.types := by
  induction h with
  | start => exact fun _ _ hmembers => nomatch hmembers
  | serve r _ _ ih => exact (moves_serve p current _ r).counted ih

/-- Every state that requests lead to represents its types well. -/
theorem represented_of_reachable (p : Project) (current : Nat) (s : Inquiry) (h : Reachable p current s) :
    s.Represented where
  slots i slot hslot id hid := h.known.types.table ⟨i⟩ id ⟨slot, hslot, hid⟩
  memo e he := h.known.types.memo e he
  enums e he m hm := by
    obtain ⟨l, hslot⟩ := h.known.types.enums e he m hm
    exact inTable_of_slot hslot
  values name id hid := h.known.values name id hid
  keys := h.keyedTable
  members name members hmembers := by
    obtain ⟨hcount, hnodup, hare⟩ := h.counted name members hmembers
    refine ⟨hcount, hnodup, fun m hm => ?_⟩
    obtain ⟨l, hslot⟩ := hare m hm
    exact ⟨l, Table.Ends.kind (n := 0) hslot⟩

/-- The state after an interface that names an enum twice. -/
theorem represented_of_reachable_paint :
    let project : Project :=
      .ofFiles [.parse "a.ts" "enum Color \x7b Red, Green \x7d interface Paint \x7b color: Color; first: Color.Red \x7d"]
    let painted := (serve project 0 {} (.named "Paint" [])).2
    painted.types.memo.lookup ("Paint", []) = some ⟨0⟩ ∧ painted.table.enumCount? "Color" = some 2 ∧
      painted.Represented := by
  refine ⟨by decide +kernel, by decide +kernel, ?_⟩
  exact represented_of_reachable _ 0 _ (.serve (.named "Paint" []) .start fun _ h => nomatch h)

end SchemaSplice.Declaration
