import SchemaSplice.Proofs.Resolution.Builtins
/-!
# Where remembered interfaces come from

Between queries, whatever is remembered for an interface stands for an object that one reading of its declarations gave. It
does not matter whether a query asked for the interface or another answer led to it, and what failed meanwhile.
-/

namespace SchemaSplice.Declaration

open Annotation Source SchemaSplice.Types

variable {p : Project} {inst : Instance} {O : List Nat} {s s' : TypeState} {t : Table} {id : TypeId}

structure InterfaceRead (p : Project) (inst : Instance) where
  home : Nat
  first : Decl TypeForm
  rest : List (Decl TypeForm)
  levels : Nat
  before : TypeState
  own : ObjectType
  bases : List TypeId
  after : TypeState
  named : p.typesNamed inst.1 home = first :: rest
  declared : NamesDeclared p before
  read : interfaceParts (p.file first.file) (scopeOf p (resolveWithin p levels) first.file) inst.2
    { symbol := some inst.1, typeArgs := inst.2 } [] ((first :: rest).filter (·.form == .interface)) before =
      .ok (own, bases) after

def InterfaceRead.object (r : InterfaceRead p inst) : ObjectType := withBases r.after.table r.bases r.own

/-- The reading is the one that a query about the file `current` makes itself. -/
structure InterfaceRead.IsMadeIn (r : InterfaceRead p inst) (current : Nat) (s : TypeState) : Prop where
  home : r.home = current
  levels : r.levels = 63
  before : r.before = s.reserve inst

theorem InterfaceRead.IsMadeIn.listed {r : InterfaceRead p inst} {current : Nat} (h : r.IsMadeIn current s)
    {first : Decl TypeForm} {rest : List (Decl TypeForm)} (hnamed : p.typesNamed inst.1 current = first :: rest) :
    listed p inst.1 (first :: rest) first.file inst.2 s = .ok (r.own, r.bases) r.after := by
  have hr := r.named
  rw [h.home, hnamed] at hr
  obtain ⟨hfirst, hrest⟩ := List.cons.inj hr
  have hread := r.read
  rw [h.levels, h.before, ← hfirst, ← hrest] at hread
  exact hread

/-- A place of a table stands for the object, and nothing that was read has changed. -/
structure InterfaceRead.StandsIn (r : InterfaceRead p inst) (t : Table) (id : TypeId) : Prop where
  persists : r.after.table.Persists t
  place : ∃ target, t.slots[id.slot]? = some (.forward target) ∧ t.slots[target.slot]? = some (.kind (.object r.object))

namespace InterfaceRead.StandsIn

variable {r : InterfaceRead p inst}

theorem mono {t' : Table} (h : r.StandsIn t id) (ht : t.Persists t') : r.StandsIn t' id where
  persists := h.persists.trans ht
  place := by
    obtain ⟨target, hforward, hobject⟩ := h.place
    exact ⟨target, ht _ _ hforward (fun h => nomatch h), ht _ _ hobject (fun h => nomatch h)⟩

theorem kind (h : r.StandsIn t id) : t.kind id = .object r.object := by
  obtain ⟨target, hforward, hobject⟩ := h.place
  exact Table.kind_of_forward hforward hobject

/-- A reserved place that is made to stand for the object once it is built. -/
theorem of_defined {place : TypeId}
    (hplace : (r.after.insert (.object r.object)).table.slots[place.slot]? = some (.kind .pending)) :
    r.StandsIn (Table.define place ⟨r.after.table.size⟩ (r.after.insert (.object r.object)).table).2 place := by
  have hdefined := (Table.Persists.refl (r.after.insert (.object r.object)).table).define place hplace ⟨r.after.table.size⟩
  refine ⟨((Table.Persists.refl r.after.table).push _).trans hdefined, ⟨r.after.table.size⟩, ?_, ?_⟩
  · exact Table.define_slot_self (Array.getElem?_eq_some_iff.mp hplace).1
  · exact hdefined _ _ (insert_slot_size r.after _) fun h => nomatch h

end InterfaceRead.StandsIn

/-! ### What is remembered -/

/-- What is remembered for an instance is in a place of `O`, which is still being read into, or has been read. -/
structure Remembers (p : Project) (inst : Instance) (O : List Nat) (s : TypeState) : Prop where
  declared : NamesDeclared p s
  read : ∀ id, s.memo.lookup inst = some id → id.slot ∈ O ∨ ∃ r : InterfaceRead p inst, r.StandsIn s.table id

theorem Remembers.mono (h : Remembers p inst O s) (hmemo : s'.memo = s.memo) (ht : s.table.Persists s'.table) :
    Remembers p inst O s' where
  declared entry hentry := h.declared entry (hmemo ▸ hentry)
  read id hid := by
    rw [hmemo] at hid
    exact (h.read id hid).imp_right fun ⟨r, hr⟩ => ⟨r, hr.mono ht⟩

theorem exists_of_declarationBody {levels : Nat} {name : String} {args : List TypeId} {first : Decl TypeForm}
    {rest : List (Decl TypeForm)} {type : TypeId} (hform : first.form = .interface)
    (h : declarationBody p (resolveWithin p levels) name (first :: rest) first args s = .ok type s') :
    ∃ own bases u, interfaceParts (p.file first.file) (scopeOf p (resolveWithin p levels) first.file) args
        { symbol := some name, typeArgs := args } [] ((first :: rest).filter (·.form == .interface)) s =
          .ok (own, bases) u ∧
      type = ⟨u.table.size⟩ ∧ s' = u.insert (.object (withBases u.table bases own)) := by
  unfold declarationBody at h
  rw [hform] at h
  have h : interfaceBody (p.file first.file) (scopeOf p (resolveWithin p levels) first.file) name (first :: rest) args s =
    .ok type s' := h
  rw [interfaceBody_apply] at h
  split at h
  · next own bases u hparts =>
    cases h
    exact ⟨own, bases, u, hparts, rfl, rfl⟩
  · cases h

theorem remembers_upheld (hform : ∀ home first rest, p.typesNamed inst.1 home = first :: rest → first.form = .interface) :
    Upheld p (Remembers p inst) (fun _ => AnyId) True where
  transport _ := transport_same fun s k _ hs => hs.mono rfl ((Table.Persists.refl s.table).push k)
  remembered _ _ _ := trivial
  member _ _ _ _ := trivial
  valid_member _ := trivial
  valid_slots _ _ := trivial
  enumLiteral _ hs := ⟨hs.mono rfl ((Table.Persists.refl _).push _), fun _ _ => trivial⟩
  recordEnum hs := hs.mono rfl (Table.Persists.refl _)
  rememberEnum _ hs := hs.mono rfl (Table.Persists.refl _)
  defines := by
    intro O current name args first rest levels s hnamed _ hsteady hbody hs _
    have hplace := reserved_of_steady hsteady s (name, args)
    have hdeclared := hs.declared.reserve hnamed args
    have hkept : s.table.Persists (s.reserve (name, args)).table := (Table.Persists.refl s.table).push .pending
    apply leaves_anyId
    by_cases heq : inst = (name, args)
    · -- The instance itself is read: its place is open meanwhile.
      subst heq
      have hopen : Remembers p (name, args) (s.table.size :: O) (s.reserve (name, args)) := by
        refine ⟨hdeclared, fun id hid => Or.inl ?_⟩
        obtain rfl := Option.some.inj (List.lookup_cons_self.symm.trans hid)
        exact List.mem_cons_self
      have hread := Keeps.of_sound (hbody (s.table.size :: O)) _ hopen
      rw [defineInstance_apply]
      split
      · next type u hres =>
        rw [hres] at hread hplace
        refine ⟨hread.declared, fun id hid => ?_⟩
        rcases hread.read id hid with hslot | ⟨r, hr⟩
        · rcases List.mem_cons.mp hslot with hslot | hslot
          · obtain ⟨own, bases, v, hparts, rfl, rfl⟩ := exists_of_declarationBody (hform _ _ _ hnamed) hres
            rw [show id = ⟨s.table.size⟩ from congrArg TypeId.mk hslot]
            let r : InterfaceRead p (name, args) := ⟨current, first, rest, levels, _, own, bases, v, hnamed, hdeclared, hparts⟩
            exact Or.inr ⟨r, .of_defined hplace⟩
          · exact Or.inl hslot
        · exact Or.inr ⟨r, hr.mono ((Table.Persists.refl u.table).define ⟨s.table.size⟩ hplace type)⟩
      · next e u hres =>
        rw [hres] at hread
        refine ⟨hread.declared.forget (name, args), fun id hid => ?_⟩
        simpa using (List.mem_filter.mp (mem_of_lookup hid)).2
    · -- Another instance is read, which is remembered apart.
      have hapart : Remembers p inst O (s.reserve (name, args)) := by
        refine ⟨hdeclared, fun id hid => ?_⟩
        rw [show (s.reserve (name, args)).memo.lookup inst = _ from lookup_cons_ne heq _ _] at hid
        exact (hs.read id hid).imp_right fun ⟨r, hr⟩ => ⟨r, hr.mono hkept⟩
      have hread := Keeps.of_sound (hbody O) _ hapart
      rw [defineInstance_apply]
      split
      · next type u hres =>
        rw [hres] at hread hplace
        exact hread.mono rfl ((Table.Persists.refl u.table).define ⟨s.table.size⟩ hplace type)
      · next e u hres =>
        rw [hres] at hread
        refine ⟨hread.declared.forget (name, args), fun id hid => ?_⟩
        exact hread.read id ((lookup_filter_ne heq u.memo).symm.trans hid)

section

variable {current : Nat} {s : Inquiry}

/-- Between queries nothing is being read any more. -/
theorem Reached.remembers (hs : Reached p current s)
    (hform : ∀ home first rest, p.typesNamed inst.1 home = first :: rest → first.form = .interface) :
    Remembers p inst [] s.types := by
  have hknown : Known (Remembers p inst []) AnyId s := by
    induction hs with
    | start => exact ⟨⟨(fun _ h => nomatch h), fun _ h => nomatch h⟩, fun _ _ _ => trivial⟩
    | step q _ _ ih => exact ((remembers_upheld hform).ask ih q fun _ _ => trivial).known fun _ => trivial
  exact hknown.types

theorem Reached.exists_interfaceRead (hs : Reached p current s)
    (hform : ∀ home first rest, p.typesNamed inst.1 home = first :: rest → first.form = .interface)
    (hid : s.types.memo.lookup inst = some id) : ∃ r : InterfaceRead p inst, r.StandsIn s.table id :=
  ((hs.remembers hform).read id hid).resolve_left List.not_mem_nil

/-- The answer to a query for an interface stands for what was read of it, by the query itself if nothing was remembered. -/
theorem Reached.interfaceRead_of_ask {s' : Inquiry} {name : String} {args : List TypeId} (hs : Reached p current s)
    (hform : ∀ home first rest, p.typesNamed name home = first :: rest → first.form = .interface)
    {first : Decl TypeForm} {rest : List (Decl TypeForm)} (hnamed : p.typesNamed name current = first :: rest)
    (hid : ask p current s (.named name args) = (some id, s')) :
    ∃ r : InterfaceRead p (name, args), r.StandsIn s'.table id ∧
      (s.remembered (.named name args) = none → r.IsMadeIn current s.types) := by
  have hforms : ∀ home first rest, p.typesNamed (name, args).1 home = first :: rest → first.form = .interface := hform
  cases hmemo : s.types.memo.lookup (name, args) with
  | some type =>
    rw [ask_named_of_remembered current hmemo] at hid
    cases hid
    obtain ⟨r, hr⟩ := hs.exists_interfaceRead hforms hmemo
    exact ⟨r, hr, fun hnone => by simp [Inquiry.remembered, hmemo] at hnone⟩
  | none =>
    obtain ⟨own, bases, u, hlisted, rfl, htypes⟩ := ask_interface hnamed (hform _ _ _ hnamed) hmemo (congrArg Prod.fst hid)
    rw [hid] at htypes
    have hextends := (extends_maintained p (s.types.reserve (name, args))).upheld.listed (first :: rest) first.file
      (Extends.refl _) fun _ _ => trivial
    rw [hlisted] at hextends
    have hplace : u.table.slots[s.table.size]? = some (.kind .pending) :=
      (hextends.2.2 _ (inTable_fresh s.types .pending)).trans (insert_slot_size s.types .pending)
    let r : InterfaceRead p (name, args) :=
      ⟨current, first, rest, 63, _, own, bases, u, hnamed, (hs.remembers hforms).declared.reserve hnamed args, hlisted⟩
    refine ⟨r, ?_, fun _ => ⟨rfl, rfl, rfl⟩⟩
    show r.StandsIn s'.types.table ⟨s.table.size⟩
    rw [htypes]
    exact .of_defined ((insert_slot_lt u _ (Array.getElem?_eq_some_iff.mp hplace).1).trans hplace)

end

end SchemaSplice.Declaration
