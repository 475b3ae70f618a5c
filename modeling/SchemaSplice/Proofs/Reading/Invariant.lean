import SchemaSplice.Proofs.Reading.Soundness
/-!
# Invariants of resolution

A property of states that holds after adding a readable type, after reading an enum and after defining an instance holds
after every resolution. `Upheld` collects what has to be shown of such a property, together with the types that may be
used; both may depend on the places that are still being read. A property that needs neither is `Maintained`, by failed
readings too.
-/

namespace SchemaSplice.Annotation

open Source SchemaSplice.Types

def stateAfter {ε α : Type} : EStateM.Result ε TypeState α → TypeState
  | .ok _ t => t
  | .error _ t => t

/-- A reading keeps a property of states, whether it succeeds or not. -/
def Keeps (Inv : TypeState → Prop) {ε α : Type} (m : EStateM ε TypeState α) : Prop :=
  ∀ s, Inv s → Inv (stateAfter (m s))

def AnyId (_ : TypeState) (_ : TypeId) : Prop := True

section

variable {Inv : TypeState → Prop} {ε α : Type} [HasIds α]

theorem transport_same (hinsert : ∀ s k, Readable k → Inv s → Inv (s.insert k)) :
    Transport id (Same Inv) AnyId :=
  transport_self (fun s k hk _ => hinsert s k hk) (fun _ _ _ _ _ _ => trivial) (fun _ _ _ _ _ => trivial)
    fun _ _ _ _ _ => trivial

theorem Keeps.of_sound {Γ : List TypeId} {m : EStateM ε TypeState α} (h : Sound Inv AnyId True Γ m) :
    Keeps Inv m := by
  intro s hs
  have hms := h s hs fun _ _ => trivial
  cases hres : m s with
  | ok a t =>
    rw [hres] at hms
    exact hms.2.2
  | error e t =>
    rw [hres] at hms
    exact hms.2 trivial

theorem leaves_anyId {s : TypeState} {r : EStateM.Result ε TypeState α} (h : Inv (stateAfter r)) :
    Leaves Inv AnyId True s r := by
  cases r with
  | ok a t => exact ⟨fun _ _ => trivial, fun _ _ => trivial, h⟩
  | error e t => exact ⟨fun _ _ => trivial, fun _ => h⟩

end

/-! ### Places -/

/-- The places of a table are those of an earlier one, with others after them. -/
def Extends (s₀ s : TypeState) : Prop :=
  ∀ i, i < s₀.table.size → s.table.slots[i]? = s₀.table.slots[i]?

/-- A reading leaves the places of the table as they are; it only adds others. -/
def Steady {ε α : Type} (m : EStateM ε TypeState α) : Prop := ∀ s₀, Keeps (Extends s₀) m

theorem Extends.refl (s : TypeState) : Extends s s := fun _ _ => rfl

theorem Extends.size_le {s₀ s : TypeState} (h : Extends s₀ s) : s₀.table.size ≤ s.table.size := by
  by_cases hle : s₀.table.size ≤ s.table.size
  · exact hle
  · have hi : s.table.size < s₀.table.size := Nat.lt_of_not_le hle
    have hslot := h s.table.size hi
    rw [show s.table.slots[s.table.size]? = none from Array.getElem?_eq_none (Nat.le_refl _)] at hslot
    rw [show s₀.table.slots[s.table.size]? = some _ from Array.getElem?_eq_getElem hi] at hslot
    cases hslot

theorem Extends.insert {s₀ s : TypeState} (h : Extends s₀ s) (k : TypeKind) : Extends s₀ (s.insert k) := by
  intro i hi
  have hlt : i < s.table.slots.size := Nat.lt_of_lt_of_le hi h.size_le
  rw [← h i hi, Array.getElem?_eq_getElem hlt]
  exact Array.getElem?_push_lt hlt

/-- The state in which the body of an instance is read: its place is reserved and remembered. -/
def TypeState.reserve (s : TypeState) (inst : Instance) : TypeState :=
  { s.insert .pending with memo := (inst, ⟨s.table.size⟩) :: s.memo }

end SchemaSplice.Annotation

namespace SchemaSplice.Declaration

open Annotation Source SchemaSplice.Types

/-- Defining an instance as a function of the state. -/
theorem defineInstance_apply (inst : Instance) (body : Reading TypeId) (s : TypeState) :
    defineInstance inst body s =
      match body (s.reserve inst) with
      | .ok type t => .ok ⟨s.table.size⟩ { t with table := (Table.define ⟨s.table.size⟩ type t.table).2 }
      | .error e t => .error e { t with memo := t.memo.filter (·.1 != inst) } := by
  show (match body (s.reserve inst) with
    | .ok type t => _
    | .error e t => _ : EStateM.Result TypeError TypeState TypeId) = _
  cases body (s.reserve inst) with
  | ok type t => rfl
  | error e t => rfl

/-- One step of resolution as a function of the state. -/
theorem resolveStep_apply (p : Project)
    (body : Option (String → List (Decl TypeForm) → Decl TypeForm → List TypeId → Reading TypeId))
    (current : Nat) (name : String) (args : List TypeId) (s : TypeState) :
    resolveStep p body current name args s =
      match s.memo.lookup (name, args) with
      | some type => .ok type s
      | none =>
        match p.typesNamed name current with
        | [] =>
          match Builtin.lookup? name args with
          | some build => onTable build s
          | none => .error (.unknownName name) s
        | first :: rest =>
          match body with
          | none => .error (.unsupported s!"`{name}` instantiated too deeply") s
          | some read => defineInstance (name, args) (read name (first :: rest) first args) s := by
  show (match s.memo.lookup (name, args) with
    | some type => pure type
    | none => _ : Reading TypeId) s = _
  cases s.memo.lookup (name, args) with
  | some type => rfl
  | none =>
    cases p.typesNamed name current with
    | nil => cases Builtin.lookup? name args <;> rfl
    | cons first rest => cases body <;> rfl

/-! ### Enums -/

/-- The members of an enum are its own in a table. -/
def AreMembers (t : Table) (enumName : String) (members : List (String × TypeId)) : Prop :=
  ∀ m ∈ members, ∃ l, t.slots[m.2.slot]? = some (.kind (.enumLiteral enumName m.1 l))

theorem readable_initializerValue (f : File) (start stop : Nat) (running : Binary64) :
    Readable (.literal (initializerValue f start stop running).1) := by
  unfold initializerValue
  split
  · trivial
  · trivial
  · split <;> trivial
  · trivial

/-- Members of enums are texts and numbers. -/
theorem readable_enumEntries (f : File) (close i : Nat) (running : Binary64) :
    ∀ e ∈ (enumEntries f close i running).1, Readable (.literal e.2) := by
  fun_induction enumEntries f close i running with
  | case1 => simp
  | case2 => simp
  | case3 i running hlt name hname v rest error hrest ih =>
    rw [hrest] at ih
    intro e he
    rcases List.mem_cons.mp he with rfl | he
    · show Readable (.literal (enumValue f (i + 1) running).value)
      unfold enumValue
      split
      · exact readable_initializerValue f _ _ running
      · trivial
    · exact ih e he

/-- A member of an enum that the project declares, with the value that it is read with. -/
def IsEntry (p : Project) (e m : String) (l : Literal) : Prop :=
  ∃ d ∈ p.types, d.name = e ∧ d.form = .enum ∧ ∃ close, (p.file d.file).closer? (d.token + 1) = some close ∧
    (m, l) ∈ (enumEntries (p.file d.file) close.1 (d.token + 1 + 1) .zero).1

theorem IsEntry.readable {p : Project} {e m : String} {l : Literal} (h : IsEntry p e m l) : Readable (.literal l) := by
  obtain ⟨d, -, -, -, close, -, hmem⟩ := h
  exact readable_enumEntries _ _ _ _ _ hmem

theorem mem_putMember {members : List (String × TypeId)} {name : String} {type : TypeId} {m : String × TypeId}
    (h : m ∈ putMember members name type) : m = (name, type) ∨ m ∈ members := by
  unfold putMember at h
  split at h
  · obtain ⟨m', hm', heq⟩ := List.mem_map.mp h
    split at heq
    · exact Or.inl heq.symm
    · rw [← heq]
      exact Or.inr hm'
  · rcases List.mem_append.mp h with h | h
    · exact Or.inr h
    · exact Or.inl (List.mem_singleton.mp h)

theorem areMembers_insertMembers {t : Table} {enumName : String} {members : List (String × TypeId)}
    (h : AreMembers t enumName members) (entries : List (String × Literal)) :
    AreMembers (insertMembers enumName members entries t).2 enumName
      (insertMembers enumName members entries t).1 := by
  induction entries generalizing t members with
  | nil => exact h
  | cons entry rest ih =>
    obtain ⟨name, value⟩ := entry
    apply ih
    intro m hm
    rcases mem_putMember hm with rfl | hm
    · exact ⟨value, Array.getElem?_push_size⟩
    · obtain ⟨l, hslot⟩ := h m hm
      obtain ⟨hlt, hget⟩ := Array.getElem?_eq_some_iff.mp hslot
      refine ⟨l, ?_⟩
      rw [← hget]
      exact Array.getElem?_push_lt hlt

/-- Reading an enum as a function of the state. -/
theorem enumMembers_apply (p : Project) (current : Nat) (name : String) (s : TypeState) :
    enumMembers p current name s =
      match s.enums.lookup name with
      | some members => .ok members s
      | none =>
        match (p.typesNamed name current).find? (·.form == .enum) with
        | none => .error (.unknownName name) s
        | some decl =>
          match (p.file decl.file).closer? (decl.token + 1) with
          | none => .error (malformed (p.file decl.file) (decl.token + 1) "`\x7d`") s
          | some close =>
            let read := enumEntries (p.file decl.file) close.1 (decl.token + 1 + 1) .zero
            let added := insertMembers name [] read.1 s.table
            match read.2 with
            | some e => .error e { s with table := added.2 }
            | none =>
              .ok added.1
                { s with
                  table := (Table.recordEnum name added.1.length added.2).2
                  enums := (name, added.1) :: s.enums } := by
  show (match s.enums.lookup name with
    | some members => pure members
    | none => _ : Reading (List (String × TypeId))) s = _
  cases s.enums.lookup name with
  | some members => rfl
  | none =>
    cases (p.typesNamed name current).find? (·.form == .enum) with
    | none => rfl
    | some decl =>
      simp only
      cases (p.file decl.file).closer? (decl.token + 1) with
      | none => rfl
      | some close =>
        simp only
        generalize enumEntries (p.file decl.file) close.1 (decl.token + 1 + 1) .zero = read
        obtain ⟨entries, error⟩ := read
        cases error <;> rfl

/-! ### Properties that resolution keeps -/

/-- What has to be shown for resolution to keep a property of states and to find valid types, when the places of `O` are
still being read. -/
structure Upheld (p : Project) (Inv : List Nat → TypeState → Prop) (valid : List Nat → TypeState → TypeId → Prop)
    (strict : Prop) : Prop where
  transport : ∀ O, Transport id (Same (Inv O)) (valid O)
  remembered : ∀ {O s inst type}, Inv O s → s.memo.lookup inst = some type →
    (∀ a ∈ inst.2, valid O s a) → valid O s type
  member : ∀ {O s name members}, Inv O s → s.enums.lookup name = some members →
    ∀ m ∈ members, valid O s m.2
  valid_member : ∀ {O} {s : TypeState} {id : TypeId} {e m : String} {l : Literal},
    s.table.slots[id.slot]? = some (.kind (.enumLiteral e m l)) → valid O s id
  valid_slots : ∀ {O} {s s' : TypeState} {id}, valid O s id → s'.table.slots = s.table.slots → valid O s' id
  enumLiteral : ∀ {O s e m l}, IsEntry p e m l → Inv O s →
    Inv O (s.insert (.enumLiteral e m l)) ∧ ∀ id, valid O s id → valid O (s.insert (.enumLiteral e m l)) id
  recordEnum : ∀ {O s name count}, Inv O s → Inv O { s with table := (Table.recordEnum name count s.table).2 }
  rememberEnum : ∀ {O s name members}, AreMembers s.table name members → Inv O s →
    Inv O { s with enums := (name, members) :: s.enums }
  defines : ∀ {O} {current : Nat} {name : String} {args : List TypeId} {first : Decl TypeForm}
    {rest : List (Decl TypeForm)} {levels : Nat} {s : TypeState},
    p.typesNamed name current = first :: rest → s.memo.lookup (name, args) = none →
      Steady (declarationBody p (resolveWithin p levels) name (first :: rest) first args) →
        (∀ O', Sound (Inv O') (valid O') strict args
          (declarationBody p (resolveWithin p levels) name (first :: rest) first args)) →
        Inv O s → (∀ a ∈ args, valid O s a) →
        Leaves (Inv O) (valid O) strict s
          (defineInstance (name, args) (declarationBody p (resolveWithin p levels) name (first :: rest) first args) s)

/-- What has to be shown of a property of states for resolution to keep it, whatever types are used. -/
structure Maintained (p : Project) (Inv : TypeState → Prop) : Prop where
  insert : ∀ s k, Readable k → Inv s → Inv (s.insert k)
  enumLiteral : ∀ s e m l, IsEntry p e m l → Inv s → Inv (s.insert (.enumLiteral e m l))
  recordEnum : ∀ s name count, Inv s → Inv { s with table := (Table.recordEnum name count s.table).2 }
  rememberEnum : ∀ s name members, Inv s → Inv { s with enums := (name, members) :: s.enums }
  defines : ∀ (current : Nat) (name : String) (args : List TypeId) (first : Decl TypeForm)
    (rest : List (Decl TypeForm)) (resolver : Resolver) (s : TypeState),
    p.typesNamed name current = first :: rest → s.memo.lookup (name, args) = none →
      Steady (declarationBody p resolver name (first :: rest) first args) →
        Keeps Inv (declarationBody p resolver name (first :: rest) first args) → Inv s →
        Inv (stateAfter
          (defineInstance (name, args) (declarationBody p resolver name (first :: rest) first args) s))

theorem Maintained.upheld {p : Project} {Inv : TypeState → Prop} (M : Maintained p Inv) :
    Upheld p (fun _ => Inv) (fun _ => AnyId) True where
  transport _ := transport_same M.insert
  remembered _ _ _ := trivial
  member _ _ _ _ := trivial
  valid_member _ := trivial
  valid_slots _ _ := trivial
  enumLiteral hentry hs := ⟨M.enumLiteral _ _ _ _ hentry hs, fun _ _ => trivial⟩
  recordEnum hs := M.recordEnum _ _ _ hs
  rememberEnum _ hs := M.rememberEnum _ _ _ hs
  defines hnamed hmemo hsteady hbody hs _ :=
    leaves_anyId (M.defines _ _ _ _ _ _ _ hnamed hmemo hsteady (Keeps.of_sound (hbody [])) hs)

theorem extends_maintained (p : Project) (s₀ : TypeState) : Maintained p (Extends s₀) where
  insert _ k _ h := h.insert k
  enumLiteral _ e m l _ h := h.insert (.enumLiteral e m l)
  recordEnum _ _ _ h := h
  rememberEnum _ _ _ h := h
  defines := by
    intro current name args first rest resolver s _ _ _ hbody hs
    have hreserved : Extends s₀ (s.reserve (name, args)) := hs.insert .pending
    have hread := hbody _ hreserved
    rw [defineInstance_apply]
    split
    · next type t hres =>
      rw [hres] at hread
      -- The place that is defined comes after those of `s₀`.
      intro i hi
      have hne : s.table.size ≠ i := by
        have := hs.size_le
        omega
      rw [← hread i hi]
      exact Array.getElem?_setIfInBounds_ne hne
    · next e t hres =>
      rw [hres] at hread
      exact hread

section

variable {p : Project} {Inv : List Nat → TypeState → Prop} {valid : List Nat → TypeState → TypeId → Prop}
  {strict : Prop} {O : List Nat}

/-! ### Steps of resolution -/

theorem Upheld.insertMembers (U : Upheld p Inv valid strict) {enumName : String} (members : List (String × TypeId))
    {entries : List (String × Literal)} (hentries : ∀ e ∈ entries, IsEntry p enumName e.1 e.2) {s : TypeState}
    (hs : Inv O s) :
    Inv O { s with table := (insertMembers enumName members entries s.table).2 } ∧
      ∀ id, valid O s id → valid O { s with table := (insertMembers enumName members entries s.table).2 } id := by
  induction entries generalizing s members with
  | nil => exact ⟨hs, fun _ hid => hid⟩
  | cons entry rest ih =>
    obtain ⟨name, value⟩ := entry
    obtain ⟨hinsert, hkeep⟩ := U.enumLiteral (hentries _ List.mem_cons_self) hs
    obtain ⟨hrest, hkeep'⟩ := ih (putMember members name ⟨s.table.size⟩)
      (fun e he => hentries e (List.mem_cons_of_mem _ he)) hinsert
    exact ⟨hrest, fun id hid => hkeep' id (hkeep id hid)⟩

theorem Upheld.enumMembers (U : Upheld p Inv valid strict) (current : Nat) (name : String) :
    Sound (Inv O) (valid O) strict [] (enumMembers p current name) := by
  intro s hs _
  rw [enumMembers_apply]
  cases hknown : s.enums.lookup name with
  | some members =>
    refine ⟨fun _ hid => hid, fun id hid => ?_, hs⟩
    obtain ⟨m, hm, hid⟩ := mem_ids_list.mp hid
    rw [show id = m.2 by simpa [HasIds.ids] using hid]
    exact U.member hs hknown m hm
  | none =>
    cases hfind : (p.typesNamed name current).find? (·.form == .enum) with
    | none => exact ⟨fun _ hid => hid, fun _ => hs⟩
    | some decl =>
      have hdecl := mem_of_mem_visible (List.mem_of_find?_eq_some hfind)
      have hform : decl.form = .enum := by simpa using List.find?_some hfind
      simp only
      cases hclose : (p.file decl.file).closer? (decl.token + 1) with
      | none => exact ⟨fun _ hid => hid, fun _ => hs⟩
      | some close =>
        simp only
        have hentries : ∀ e ∈ (enumEntries (p.file decl.file) close.1 (decl.token + 1 + 1) .zero).1,
            IsEntry p name e.1 e.2 :=
          fun e he => ⟨decl, hdecl.1, hdecl.2, hform, close, hclose, he⟩
        generalize enumEntries (p.file decl.file) close.1 (decl.token + 1 + 1) .zero = read at hentries
        obtain ⟨entries, error⟩ := read
        obtain ⟨hadded, hkeep⟩ := U.insertMembers [] hentries hs
        cases error with
        | some e => exact ⟨hkeep, fun _ => hadded⟩
        | none =>
          have hmembers : AreMembers (Declaration.insertMembers name [] entries s.table).2 name
              (Declaration.insertMembers name [] entries s.table).1 :=
            areMembers_insertMembers (fun m hm => absurd hm List.not_mem_nil) entries
          refine ⟨fun id hid => U.valid_slots (hkeep id hid) rfl, fun id hid => ?_, ?_⟩
          · obtain ⟨m, hm, hid⟩ := mem_ids_list.mp hid
            rw [show id = m.2 by simpa [HasIds.ids] using hid]
            obtain ⟨l, hslot⟩ := hmembers m hm
            exact U.valid_member hslot
          · exact U.rememberEnum hmembers (U.recordEnum hadded)

theorem Upheld.enumMember (U : Upheld p Inv valid strict) (current : Nat) (qualifier member : String) :
    Sound (Inv O) (valid O) strict [] (enumMember p current qualifier member) := by
  unfold Declaration.enumMember
  apply Sound.bind (U.enumMembers current qualifier)
  intro members
  cases hfound : members.lookup member with
  | none => exact Sound.throw _
  | some type =>
    obtain ⟨l₁, l₂, rfl, -⟩ := List.lookup_eq_some_iff.mp hfound
    apply Sound.pure
    intro id hid
    rw [List.mem_singleton.mp hid]
    exact List.mem_append_left _ (mem_ids_list.mpr ⟨(member, type), by simp, by simp [HasIds.ids]⟩)

theorem Upheld.scopeOf (U : Upheld p Inv valid strict) {resolver : Resolver}
    (hresolver : ∀ current name args, Sound (Inv O) (valid O) strict args (resolver current name args))
    (home : Nat) : ScopeSound (Inv O) (valid O) strict (scopeOf p resolver home) where
  named := hresolver home
  member := U.enumMember home

theorem Upheld.declarationBody (U : Upheld p Inv valid strict) {resolver : Resolver}
    (hresolver : ∀ current name args, Sound (Inv O) (valid O) strict args (resolver current name args))
    (name : String) (decls : List (Decl TypeForm)) (first : Decl TypeForm) (args : List TypeId) :
    Sound (Inv O) (valid O) strict args (declarationBody p resolver name decls first args) := by
  unfold Declaration.declarationBody
  cases first.form with
  | typeAlias => exact aliasBody_sound (U.transport O) (U.scopeOf hresolver first.file) first.token args
  | interface => exact interfaceBody_sound (U.transport O) (U.scopeOf hresolver first.file) name decls args
  | enum =>
    apply Sound.bind ((U.enumMembers first.file name).weaken fun _ h => nomatch h)
    intro members
    refine Sound.of_tracks (Tracks.union (U.transport O) ?_)
    intro id hid
    obtain ⟨m, hm, rfl⟩ := List.mem_map.mp hid
    exact List.mem_append_left _ (mem_ids_list.mpr ⟨m, hm, by simp [HasIds.ids]⟩)

theorem Upheld.resolveStep (U : Upheld p Inv valid strict)
    (body : Option (String → List (Decl TypeForm) → Decl TypeForm → List TypeId → Reading TypeId))
    (hbody : ∀ read, body = some read → ∀ (current : Nat) (name : String) (args : List TypeId)
      (first : Decl TypeForm) (rest : List (Decl TypeForm)) (s : TypeState),
      p.typesNamed name current = first :: rest → s.memo.lookup (name, args) = none → Inv O s →
        (∀ a ∈ args, valid O s a) → Leaves (Inv O) (valid O) strict s
          (defineInstance (name, args) (read name (first :: rest) first args) s))
    (current : Nat) (name : String) (args : List TypeId) :
    Sound (Inv O) (valid O) strict args (resolveStep p body current name args) := by
  intro s hs hargs
  rw [resolveStep_apply]
  cases hmemo : s.memo.lookup (name, args) with
  | some type =>
    refine ⟨fun _ hid => hid, fun id hid => ?_, hs⟩
    rw [List.mem_singleton.mp hid]
    exact U.remembered hs hmemo hargs
  | none =>
    cases hnamed : p.typesNamed name current with
    | nil =>
      cases hbuiltin : Builtin.lookup? name args with
      | none => exact ⟨fun _ hid => hid, fun _ => hs⟩
      | some build => exact (builtin_sound (U.transport O) hbuiltin) s hs hargs
    | cons first rest =>
      cases body with
      | none => exact ⟨fun _ hid => hid, fun _ => hs⟩
      | some read => exact hbody read rfl current name args first rest s hnamed hmemo hs hargs

/-! ### Resolution -/

theorem Upheld.resolveWithin (U : Upheld p Inv valid strict) (O : List Nat) (levels current : Nat) (name : String)
    (args : List TypeId) : Sound (Inv O) (valid O) strict args (resolveWithin p levels current name args) := by
  induction levels generalizing Inv valid strict O current name args with
  | zero => exact U.resolveStep none (fun _ h => nomatch h) current name args
  | succ levels ih =>
    apply U.resolveStep
    rintro read ⟨rfl⟩ current name args first rest s hnamed hmemo hs hargs
    refine U.defines hnamed hmemo ?_ ?_ hs hargs
    · intro s₀
      have hextends := (extends_maintained p s₀).upheld
      exact Keeps.of_sound (hextends.declarationBody (O := []) (ih hextends []) name (first :: rest) first args)
    · intro O'
      exact U.declarationBody (ih U O') name (first :: rest) first args

theorem Upheld.topScope (U : Upheld p Inv valid strict) (O : List Nat) (current : Nat) :
    ScopeSound (Inv O) (valid O) strict (topScope p current) :=
  U.scopeOf (U.resolveWithin O maxNesting) current

end

end SchemaSplice.Declaration
