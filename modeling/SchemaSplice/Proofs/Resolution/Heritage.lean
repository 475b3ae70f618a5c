import SchemaSplice.Proofs.Meaning.Shapes
import SchemaSplice.Proofs.Resolution.Completeness
/-!
# What interfaces inherit

An interface that is read by a query itself has its own members and those of all bases that read as objects afterwards: a
base that is still being read then can only be the interface itself. Bases that are intersections give nothing, and
neither does a base that is still being read when the interface is met on the way to another answer.
-/

namespace SchemaSplice.Types

def ObjectType.keys (o : ObjectType) : List PropertyKey := o.properties.map (·.key)

theorem ObjectType.mem_keys_addProperty {o : ObjectType} {q : Property} {key : PropertyKey} :
    key ∈ (o.addProperty q).keys ↔ key ∈ o.keys ∨ key = q.key := by
  unfold ObjectType.addProperty
  split
  · next h =>
    obtain ⟨r, hr, hkey⟩ := List.any_eq_true.mp h
    refine ⟨Or.inl, ?_⟩
    rintro (h | rfl)
    · exact h
    · exact List.mem_map.mpr ⟨r, hr, eq_of_beq hkey⟩
  · simp [ObjectType.keys]

end SchemaSplice.Types

namespace SchemaSplice.Declaration

open Annotation Source SchemaSplice.Types HasIds

/-! ### Merged members -/

theorem mem_keys_inherit {o : ObjectType} {properties : List Property} {key : PropertyKey} :
    key ∈ (inherit o properties).keys ↔ key ∈ o.keys ∨ key ∈ properties.map (·.key) := by
  unfold inherit
  induction properties generalizing o with
  | nil => simp
  | cons q qs ih =>
    rw [List.foldl_cons, ih, ObjectType.mem_keys_addProperty, List.map_cons, List.mem_cons, or_assoc]

theorem mem_keys_withBases {t : Table} {bases : List TypeId} {o : ObjectType} {key : PropertyKey} :
    key ∈ (withBases t bases o).keys ↔
      key ∈ o.keys ∨ ∃ base ∈ bases, ∃ b, t.object? base = some b ∧ key ∈ b.keys := by
  unfold withBases
  induction bases generalizing o with
  | nil => simp
  | cons base bases ih =>
    have hbase : key ∈ (((t.object? base).map (·.properties)).getD []).map (·.key) ↔
        ∃ b, t.object? base = some b ∧ key ∈ b.keys := by
      cases t.object? base with
      | none => simp
      | some b => simp [ObjectType.keys]
    rw [List.foldl_cons, ih, mem_keys_inherit, hbase, or_assoc]
    simp only [List.mem_cons, exists_eq_or_imp]

/-- The body of an interface as a function of the state. -/
theorem interfaceBody_apply (f : File) (scope : Scope) (name : String) (decls : List (Decl TypeForm))
    (args : List TypeId) (s : TypeState) :
    interfaceBody f scope name decls args s =
      match interfaceParts f scope args { symbol := some name, typeArgs := args } []
        (decls.filter (·.form == .interface)) s with
      | .ok (own, bases) u => .ok ⟨u.table.size⟩ (u.insert (.object (withBases u.table bases own)))
      | .error e u => .error e u := by
  show EStateM.bind _ _ s = _
  unfold EStateM.bind
  cases interfaceParts f scope args { symbol := some name, typeArgs := args } []
      (decls.filter (·.form == .interface)) s with
  | ok parts u => rfl
  | error e u => rfl

/-! ### Reading bases before and after -/

section

variable {u : TypeState} {place : Nat} {o : ObjectType}

/-- The table after an object is added and a reserved place is made to stand for it. -/
def defined (u : TypeState) (place : Nat) (o : ObjectType) : Table :=
  (Table.define ⟨place⟩ ⟨u.table.size⟩ (u.insert (.object o)).table).2

theorem defined_slot {i : Nat} (hi : i < u.table.size) (hne : place ≠ i) :
    (defined u place o).slots[i]? = u.table.slots[i]? := by
  unfold defined
  rw [Table.define_slot_ne hne]
  exact insert_slot_lt u _ hi

theorem defined_place (hplace : place < u.table.size) :
    (defined u place o).slots[place]? = some (.forward ⟨u.table.size⟩) := by
  have hlt : place < (u.insert (.object o)).table.size := by
    rw [insert_size]
    exact Nat.lt_succ_of_lt hplace
  exact Table.define_slot_self hlt

theorem defined_fresh (hplace : place < u.table.size) :
    (defined u place o).slots[u.table.size]? = some (.kind (.object o)) := by
  unfold defined
  rw [Table.define_slot_ne (Nat.ne_of_lt hplace)]
  exact insert_slot_size u _

theorem object?_defined (hplace : place < u.table.size) : (defined u place o).object? ⟨place⟩ = some o := by
  have hkind : (defined u place o).kind ⟨place⟩ = .object o :=
    Table.kind_of_forward (defined_place hplace) (defined_fresh hplace)
  unfold Table.object?
  rw [hkind]
  rfl

/-- A chain that does not end in the reserved place is kept. -/
theorem ends_defined {n : Nat} {a : TypeId} {k : TypeKind}
    (hplace : u.table.slots[place]? = some (.kind .pending)) (hk : k ≠ .pending) (h : u.table.Ends n a k) :
    (defined u place o).Ends n a k := by
  induction n generalizing a with
  | zero =>
    have hne : place ≠ a.slot := by
      rintro rfl
      cases hplace.symm.trans h
      exact hk rfl
    exact (defined_slot h.slot_lt hne).trans h
  | succ n ih =>
    have hlt := h.slot_lt
    obtain ⟨target, hforward, hrest⟩ := h
    have hne : place ≠ a.slot := by
      rintro rfl
      cases hplace.symm.trans hforward
    exact ⟨target, (defined_slot hlt hne).trans hforward, ih hrest⟩

/-- A chain leads where it led before, or through the place to the new object. -/
theorem ends_of_defined (hu : u.Closed) (hplace : place < u.table.size) {n : Nat} {a : TypeId} {k : TypeKind}
    (ha : InTable u a) (h : (defined u place o).Ends n a k) : u.table.Ends n a k ∨ k = .object o := by
  induction n generalizing a with
  | zero =>
    by_cases heq : place = a.slot
    · subst heq
      cases (defined_place hplace).symm.trans h
    · exact Or.inl ((defined_slot ha heq).symm.trans h)
  | succ n ih =>
    obtain ⟨target, hforward, hrest⟩ := h
    by_cases heq : place = a.slot
    · subst heq
      cases (defined_place hplace).symm.trans hforward
      have hnew : (defined u a.slot o).Ends 0 ⟨u.table.size⟩ (.object o) := defined_fresh hplace
      exact Or.inr (hrest.kind.symm.trans hnew.kind)
    · have hforward : u.table.Forwards a target := (defined_slot ha heq).symm.trans hforward
      refine (ih (hu.table _ _ hforward.leads) hrest).imp_left fun hends => ?_
      exact ⟨target, hforward, hends⟩

/-- The keys that an object inherits from bases that read as objects are told by how they read afterwards. -/
theorem mem_keys_defined (hu : u.Closed) (hplace : u.table.slots[place]? = some (.kind .pending)) {own : ObjectType}
    {bases : List TypeId} (hbases : ∀ base ∈ bases, InTable u base) {key : PropertyKey} :
    key ∈ (withBases u.table bases own).keys ↔
      key ∈ own.keys ∨ ∃ base ∈ bases, ∃ b,
        (defined u place (withBases u.table bases own)).object? base = some b ∧ key ∈ b.keys := by
  have hlt : place < u.table.size := (Array.getElem?_eq_some_iff.mp hplace).1
  constructor
  · intro h
    refine (mem_keys_withBases.mp h).imp_right ?_
    rintro ⟨base, hbase, b, hb, hkey⟩
    have hkind := object?_eq_some_iff.mp hb
    obtain ⟨n, hn⟩ := Table.exists_ends_of_kind hkind (fun h => nomatch h)
    have hends := ends_defined (o := withBases u.table bases own) (k := .object b) hplace (fun h => nomatch h) hn
    exact ⟨base, hbase, b, object?_eq_some_iff.mpr hends.kind, hkey⟩
  · rintro (hkey | ⟨base, hbase, b, hb, hkey⟩)
    · exact mem_keys_withBases.mpr (Or.inl hkey)
    · have hkind := object?_eq_some_iff.mp hb
      obtain ⟨n, hn⟩ := Table.exists_ends_of_kind hkind (fun h => nomatch h)
      -- A base that leads to the interface itself reads as the interface.
      rcases ends_of_defined hu hlt (hbases base hbase) hn with hends | heq
      · exact mem_keys_withBases.mpr (Or.inr ⟨base, hbase, b, object?_eq_some_iff.mpr hends.kind, hkey⟩)
      · cases heq
        exact hkey

end

/-! ### Interfaces that a query reads -/

/-- The members and the bases that the declarations of an interface list, read for an instance. -/
def listed (p : Project) (name : String) (decls : List (Decl TypeForm)) (home : Nat) (args : List TypeId)
    (s : TypeState) : EStateM.Result TypeError TypeState (ObjectType × List TypeId) :=
  interfaceParts (p.file home) (scopeOf p (resolveWithin p 63) home) args
    { symbol := some name, typeArgs := args } [] (decls.filter (·.form == .interface)) (s.reserve (name, args))

/-- What is known after more queries. -/
def later (p : Project) (current : Nat) (s : Inquiry) (queries : List Query) : Inquiry :=
  queries.foldl (fun s q => (ask p current s q).2) s

section

variable {p : Project} {current : Nat} {name : String} {args : List TypeId}

theorem Upheld.listed {Inv : List Nat → TypeState → Prop} {valid : List Nat → TypeState → TypeId → Prop}
    {strict : Prop} (U : Upheld p Inv valid strict) (decls : List (Decl TypeForm)) (home : Nat) {s : TypeState}
    (hs : Inv [] (s.reserve (name, args))) (hargs : ∀ a ∈ args, valid [] (s.reserve (name, args)) a) :
    Leaves (Inv []) (valid []) strict (s.reserve (name, args)) (listed p name decls home args s) := by
  have hbases : ∀ id ∈ ([] : List TypeId), id ∈ args := fun _ h => nomatch h
  refine interfaceParts_sound (U.transport []) (U.scopeOf (U.resolveWithin [] 63) home) (fun _ h => h) ?_ hbases _ _
    hs hargs
  intro id hid
  rcases ObjectType.mem_ids.mp hid with ⟨_, h, -⟩ | h | ⟨_, h, -⟩ | h
  · cases h
  · exact h
  · cases h
  · cases h

/-- What is remembered for an instance stays remembered. -/
theorem remembered_maintained (p : Project) (inst : Instance) (id : TypeId) :
    Maintained p fun s => s.memo.lookup inst = some id where
  insert _ _ _ hs := hs
  enumLiteral _ _ _ _ _ hs := hs
  recordEnum _ _ _ hs := hs
  rememberEnum _ _ _ hs := hs
  defines := by
    intro current name args first rest resolver s _ hmemo _ hbody hs
    have hne : inst ≠ (name, args) := by
      rintro rfl
      cases hmemo.symm.trans hs
    have hread := hbody (s.reserve (name, args)) ((lookup_cons_ne hne _ _).trans hs)
    rw [defineInstance_apply]
    split
    · next type t hres =>
      rw [hres] at hread
      exact hread
    · next e t hres =>
      rw [hres] at hread
      exact (lookup_filter_ne hne _).trans hread

theorem Maintained.later {Inv : TypeState → Prop} (M : Maintained p Inv) (current : Nat) {s : Inquiry}
    (hs : Inv s.types) (queries : List Query) : Inv (later p current s queries).types := by
  induction queries generalizing s with
  | nil => exact hs
  | cons q queries ih => exact ih (M.ask s q hs)

/-- An interface that nothing is remembered for is read by the query itself. -/
theorem ask_interface {s : Inquiry} {first : Decl TypeForm} {rest : List (Decl TypeForm)}
    (hnamed : p.typesNamed name current = first :: rest) (hform : first.form = .interface)
    (hnew : s.types.memo.lookup (name, args) = none) {id : TypeId}
    (hid : (ask p current s (.named name args)).1 = some id) :
    ∃ own bases u, listed p name (first :: rest) first.file args s.types = .ok (own, bases) u ∧
      id = ⟨s.table.size⟩ ∧ (ask p current s (.named name args)).2.types =
        { u with table := defined u s.table.size (withBases u.table bases own) } := by
  have hask : ask p current s (.named name args) = s.read (resolveNamed p current name args) := rfl
  have hbody : declarationBody p (resolveWithin p 63) name (first :: rest) first args =
      interfaceBody (p.file first.file) (scopeOf p (resolveWithin p 63) first.file) name (first :: rest) args := by
    unfold declarationBody
    rw [hform]
  have hresolve : resolveNamed p current name args s.types =
      match listed p name (first :: rest) first.file args s.types with
      | .ok (own, bases) u =>
        .ok ⟨s.table.size⟩ { u with table := defined u s.table.size (withBases u.table bases own) }
      | .error e u => .error e { u with memo := u.memo.filter (·.1 != (name, args)) } := by
    rw [resolveNamed_eq]
    refine (resolveStep_apply p _ current name args s.types).trans ?_
    rw [hnew, hnamed]
    simp only
    rw [defineInstance_apply, hbody, interfaceBody_apply]
    unfold listed
    cases interfaceParts (p.file first.file) (scopeOf p (resolveWithin p 63) first.file) args
        { symbol := some name, typeArgs := args } [] ((first :: rest).filter (·.form == .interface))
        (s.types.reserve (name, args)) with
    | ok parts u => rfl
    | error e u => rfl
  rw [hask] at hid ⊢
  unfold Inquiry.read at hid ⊢
  rw [hresolve] at hid ⊢
  cases hlisted : listed p name (first :: rest) first.file args s.types with
  | error e u =>
    rw [hlisted] at hid
    cases hid
  | ok parts u =>
    rw [hlisted] at hid
    exact ⟨parts.1, parts.2, u, rfl, (Option.some.inj hid).symm, rfl⟩

end

/-- An interface that a query reads has, from then on, the keys of its own members and those of the bases that read as
objects, and no others. -/
theorem interface_inherits (p : Project) (current : Nat) (s : Inquiry) (hs : Reached p current s) (name : String)
    (args : List TypeId) (hargs : ∀ a ∈ args, a.slot < s.table.size) (first : Decl TypeForm)
    (rest : List (Decl TypeForm)) (hnamed : p.typesNamed name current = first :: rest)
    (hform : first.form = .interface) (hnew : s.remembered (.named name args) = none) (id : TypeId)
    (hid : (ask p current s (.named name args)).1 = some id) :
    ∃ own bases u, listed p name (first :: rest) first.file args s.types = .ok (own, bases) u ∧
      ∀ queries, ∃ o,
        (later p current (ask p current s (.named name args)).2 queries).remembered (.named name args) =
            some (some id) ∧
          (later p current (ask p current s (.named name args)).2 queries).table.object? id = some o ∧
          ∀ key, key ∈ o.keys ↔ key ∈ own.keys ∨ ∃ base ∈ bases, ∃ b,
            (later p current (ask p current s (.named name args)).2 queries).table.object? base = some b ∧
              key ∈ b.keys := by
  have hmemo : s.types.memo.lookup (name, args) = none := by
    simpa [Inquiry.remembered] using hnew
  obtain ⟨own, bases, u, hlisted, rfl, htypes⟩ := ask_interface hnamed hform hmemo hid
  refine ⟨own, bases, u, hlisted, fun queries => ⟨withBases u.table bases own, ?_⟩⟩
  -- What reading the declarations leaves: a closed table with the place still reserved and remembered.
  have hreserved : (s.types.reserve (name, args)).Closed := hs.known.types.reserve hargs
  have hclosed := (closed_upheld p).listed (first :: rest) first.file hreserved fun a ha =>
    InTable.insert (hargs a ha) .pending
  have hextends := (extends_maintained p (s.types.reserve (name, args))).upheld.listed (first :: rest) first.file
    (Extends.refl _) fun _ _ => trivial
  have hplaced : (s.types.reserve (name, args)).memo.lookup (name, args) = some ⟨s.table.size⟩ :=
    List.lookup_cons_self
  have hremembered := (remembered_maintained p (name, args) ⟨s.table.size⟩).upheld.listed (first :: rest) first.file
    hplaced fun _ _ => trivial
  rw [hlisted] at hclosed hextends hremembered
  obtain ⟨-, hids, hu⟩ := hclosed
  have hbases : ∀ base ∈ bases, InTable u base := by
    intro base hbase
    apply hids
    rw [← ids_list_typeId bases] at hbase
    exact List.mem_append_right _ hbase
  have hplace : u.table.slots[s.table.size]? = some (.kind .pending) := by
    have hlt : s.table.size < (s.types.reserve (name, args)).table.size := inTable_fresh s.types .pending
    rw [hextends.2.2 _ hlt]
    exact insert_slot_size s.types .pending
  have hlt : s.table.size < u.table.size := (Array.getElem?_eq_some_iff.mp hplace).1
  -- Later queries only add places, so everything reads as it did right after this one.
  have hnext := (Reached.step (.named name args) hs hargs).known.types
  have hgrow := (extends_maintained p (ask p current s (.named name args)).2.types).later current
    (Extends.refl _) queries
  have hobject : ∀ a, InTable (ask p current s (.named name args)).2.types a →
      (later p current (ask p current s (.named name args)).2 queries).table.object? a =
        (defined u s.table.size (withBases u.table bases own)).object? a := by
    intro a ha
    unfold Table.object?
    rw [show (later p current (ask p current s (.named name args)).2 queries).table.kind a = _
      from hnext.table.kind_eq hgrow ha, htypes]
  have hgrown : ∀ a, InTable u a → InTable (ask p current s (.named name args)).2.types a := by
    intro a ha
    rw [htypes]
    show a.slot < (defined u s.table.size (withBases u.table bases own)).size
    unfold defined
    rw [Table.define_size]
    exact ha.insert _
  refine ⟨?_, ?_, fun key => ?_⟩
  · have hafter : (ask p current s (.named name args)).2.types.memo.lookup (name, args) = some ⟨s.table.size⟩ := by
      rw [htypes]
      exact hremembered.2.2
    have hkept := (remembered_maintained p (name, args) ⟨s.table.size⟩).later current hafter queries
    simp only [Inquiry.remembered]
    rw [hkept]
    rfl
  · exact (hobject ⟨s.table.size⟩ (hgrown ⟨s.table.size⟩ hlt)).trans (object?_defined hlt)
  · rw [mem_keys_defined hu hplace hbases]
    refine or_congr_right ?_
    constructor
    · rintro ⟨base, hbase, b, hb, hkey⟩
      exact ⟨base, hbase, b, (hobject base (hgrown base (hbases base hbase))).trans hb, hkey⟩
    · rintro ⟨base, hbase, b, hb, hkey⟩
      exact ⟨base, hbase, b, (hobject base (hgrown base (hbases base hbase))).symm.trans hb, hkey⟩

/-- An interface with a base. -/
def derived : Project :=
  .ofFiles [.parse "a.ts" "interface Base \x7b a: string \x7d interface I extends Base \x7b i: boolean \x7d"]

theorem derived_inherits :
    ∃ own bases u, listed derived "I" [⟨"I", 0, .interface, 8⟩] 0 [] {} = .ok (own, bases) u ∧
      ∀ queries, ∃ o,
        (later derived 0 (ask derived 0 {} (.named "I" [])).2 queries).remembered (.named "I" []) = some (some ⟨0⟩) ∧
          (later derived 0 (ask derived 0 {} (.named "I" [])).2 queries).table.object? ⟨0⟩ = some o ∧
          ∀ key, key ∈ o.keys ↔ key ∈ own.keys ∨ ∃ base ∈ bases, ∃ b,
            (later derived 0 (ask derived 0 {} (.named "I" [])).2 queries).table.object? base = some b ∧
              key ∈ b.keys := by
  refine interface_inherits derived 0 {} .start "I" [] (fun _ h => nomatch h) ⟨"I", 0, .interface, 8⟩ [] ?_ rfl rfl
    ⟨0⟩ ?_
  · decide +kernel
  · decide +kernel

def cyclicBase : Project :=
  .ofFiles [.parse "a.ts" "interface A extends B \x7b a: string \x7d interface B \x7b x: A; b: string \x7d"]

def joinedBase : Project :=
  .ofFiles
    [.parse "a.ts"
      "type AB = \x7b a: string \x7d & \x7b b: number \x7d; interface I extends AB \x7b i: boolean \x7d"]

/-- `A`, met while its base `B` is read, has no key of `B`; `I` has no key of the two members of its base. -/
theorem bases_skipped :
    ((ask cyclicBase 0 {} (.named "B" [])).1 = some ⟨0⟩ ∧
      (ask cyclicBase 0 (after cyclicBase 0 [.named "B" []]) (.named "A" [])).1 = some ⟨1⟩ ∧
      ((after cyclicBase 0 [.named "B" [], .named "A" []]).table.object? ⟨0⟩).map ObjectType.keys =
        some [.name "x", .name "b"] ∧
      ((after cyclicBase 0 [.named "B" [], .named "A" []]).table.object? ⟨1⟩).map ObjectType.keys =
        some [.name "a"]) ∧
    (ask joinedBase 0 {} (.named "I" [])).1 = some ⟨0⟩ ∧
      (ask joinedBase 0 (after joinedBase 0 [.named "I" []]) (.named "AB" [])).1 = some ⟨1⟩ ∧
      (after joinedBase 0 [.named "I" []]).table.kind ⟨1⟩ = .intersection [⟨3⟩, ⟨5⟩] ∧
      ((after joinedBase 0 [.named "I" []]).table.object? ⟨3⟩).map ObjectType.keys = some [.name "a"] ∧
      ((after joinedBase 0 [.named "I" []]).table.object? ⟨5⟩).map ObjectType.keys = some [.name "b"] ∧
      ((after joinedBase 0 [.named "I" []]).table.object? ⟨0⟩).map ObjectType.keys = some [.name "i"] := by
  decide +kernel

end SchemaSplice.Declaration
