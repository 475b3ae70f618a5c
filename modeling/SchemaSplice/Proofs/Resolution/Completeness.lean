import SchemaSplice.Proofs.Resolution.History
import SchemaSplice.Proofs.Resolution.Reaching
import SchemaSplice.Validator.Printer
import SchemaSplice.Validator.Synthesis
/-!
# Answers that are defined throughout

A place is reserved while a body is read into it. When all goes well every place that was reserved meanwhile is defined in the
end, so an answer leads to no reserved place. A body that fails leaves its own place reserved and forgets it, but
what was finished meanwhile stays remembered and may lead there. So answers are finished for good exactly as long as
the remembered ones are.
-/

namespace SchemaSplice.Annotation

open SchemaSplice.Types HasIds Relation

/-! ### Closed states -/

/-- All types that a state knows are in its table. -/
structure TypeState.Closed (s : TypeState) : Prop where
  table : s.table.Closed
  memo : ∀ e ∈ s.memo, InTable s e.2 ∧ ∀ a ∈ e.1.2, InTable s a
  enums : ∀ e ∈ s.enums, Declaration.AreMembers s.table e.1 e.2

theorem insert_slot_lt (s : TypeState) (k : TypeKind) {i : Nat} (h : i < s.table.size) :
    (s.insert k).table.slots[i]? = s.table.slots[i]? :=
  (Extends.refl s).insert k i h

theorem insert_slot_size (s : TypeState) (k : TypeKind) :
    (s.insert k).table.slots[s.table.size]? = some (.kind k) := Array.getElem?_push_size

theorem insert_size (s : TypeState) (k : TypeKind) : (s.insert k).table.size = s.table.size + 1 :=
  Array.size_push _

theorem InTable.insert {s : TypeState} {id : TypeId} (h : InTable s id) (k : TypeKind) : InTable (s.insert k) id := by
  unfold InTable
  rw [insert_size]
  exact Nat.lt_succ_of_lt h

theorem inTable_fresh (s : TypeState) (k : TypeKind) : InTable (s.insert k) ⟨s.table.size⟩ := by
  unfold InTable
  rw [insert_size]
  exact Nat.lt_succ_self _

theorem AreMembers.insert {s : TypeState} {name : String} {members : List (String × TypeId)}
    (h : Declaration.AreMembers s.table name members) (k : TypeKind) :
    Declaration.AreMembers (s.insert k).table name members := by
  intro m hm
  obtain ⟨l, hslot⟩ := h m hm
  obtain ⟨hlt, -⟩ := Array.getElem?_eq_some_iff.mp hslot
  exact ⟨l, (insert_slot_lt s k hlt).trans hslot⟩

namespace TypeState.Closed

variable {s : TypeState}

theorem insert (hs : s.Closed) {k : TypeKind} (hk : ∀ a ∈ ids k, InTable s a) : (s.insert k).Closed where
  table := by
    rintro a b ⟨slot, hslot, hmem⟩
    rw [insert_size]
    obtain ⟨hlt, -⟩ := Array.getElem?_eq_some_iff.mp hslot
    have hlt : a.slot < s.table.size + 1 := by
      rw [← insert_size s k]
      exact hlt
    rcases Nat.lt_succ_iff_lt_or_eq.mp hlt with ha | ha
    · rw [insert_slot_lt s k ha] at hslot
      exact Nat.lt_succ_of_lt (hs.table a b ⟨slot, hslot, hmem⟩)
    · rw [ha, insert_slot_size] at hslot
      cases hslot
      exact Nat.lt_succ_of_lt (hk b hmem)
  memo e he := ⟨(hs.memo e he).1.insert k, fun a ha => ((hs.memo e he).2 a ha).insert k⟩
  enums e he := AreMembers.insert (hs.enums e he) k

theorem reserve (hs : s.Closed) {inst : Instance} (hargs : ∀ a ∈ inst.2, InTable s a) : (s.reserve inst).Closed where
  table := (hs.insert (k := .pending) fun _ h => nomatch h).table
  memo e he := by
    rcases List.mem_cons.mp he with rfl | he
    · exact ⟨inTable_fresh s .pending, fun a ha => (hargs a ha).insert .pending⟩
    · exact (hs.insert (k := .pending) fun _ h => nomatch h).memo e he
  enums := (hs.insert (k := .pending) fun _ h => nomatch h).enums

theorem define (hs : s.Closed) {place type : TypeId} (hplace : s.table.slots[place.slot]? = some (.kind .pending))
    (htype : InTable s type) : ({ s with table := (Table.define place type s.table).2 } : TypeState).Closed where
  table := hs.table.define htype
  memo e he := by
    unfold InTable
    simp only [Table.define_size]
    exact hs.memo e he
  enums e he m hm := by
    obtain ⟨l, hslot⟩ := hs.enums e he m hm
    have hne : place.slot ≠ m.2.slot := by
      intro heq
      rw [← heq, hplace] at hslot
      cases hslot
    exact ⟨l, (Table.define_slot_ne hne).trans hslot⟩

theorem kind (hs : s.Closed) {id : TypeId} (hid : InTable s id) : ∀ a ∈ ids (s.table.kind id), InTable s a :=
  fun _ ha => hs.table.hasPart_lt hid ha

end TypeState.Closed

theorem inTable_of_slot {s : TypeState} {id : TypeId} {slot : Slot} (h : s.table.slots[id.slot]? = some slot) :
    InTable s id :=
  (Array.getElem?_eq_some_iff.mp h).1

theorem mem_of_lookup {α β : Type} [BEq α] [LawfulBEq α] {l : List (α × β)} {a : α} {b : β}
    (h : l.lookup a = some b) : (a, b) ∈ l := by
  obtain ⟨l₁, l₂, rfl, -⟩ := List.lookup_eq_some_iff.mp h
  exact List.mem_append_right _ List.mem_cons_self

end SchemaSplice.Annotation

namespace SchemaSplice.Declaration

open Annotation Source SchemaSplice.Types HasIds Relation

/-- What a declaration's body is read into, and what it grows to. -/
theorem Steady.size_lt {α ε : Type} {body : EStateM ε TypeState α} (hsteady : Steady body) (s : TypeState)
    (inst : Instance) : s.table.size < (stateAfter (body (s.reserve inst))).table.size :=
  (Array.getElem?_eq_some_iff.mp (reserved_of_steady hsteady s inst)).1

theorem Steady.slot {α ε : Type} {body : EStateM ε TypeState α} (hsteady : Steady body) (s : TypeState)
    (inst : Instance) : Extends s (stateAfter (body (s.reserve inst))) := by
  intro i hi
  have hlt : i < (s.reserve inst).table.size := by
    have := insert_size s .pending
    show i < (s.insert .pending).table.size
    omega
  rw [hsteady (s.reserve inst) (s.reserve inst) (Extends.refl _) i hlt]
  exact insert_slot_lt s .pending hi

theorem closed_upheld (p : Project) : Upheld p (fun _ => TypeState.Closed) (fun _ => InTable) True where
  transport _ := transport_self (fun _ _ _ hids hs => hs.insert hids) (fun _ hs _ => hs.kind)
    (fun s k _ _ _ => inTable_fresh s k) fun _ k _ _ hid => hid.insert k
  remembered hs hmemo _ := (hs.memo _ (mem_of_lookup hmemo)).1
  member hs henum m hm := by
    obtain ⟨l, hslot⟩ := hs.enums _ (mem_of_lookup henum) m hm
    exact inTable_of_slot hslot
  valid_member := inTable_of_slot
  valid_slots hid hslots := by
    unfold InTable Table.size
    rw [hslots]
    exact hid
  enumLiteral _ hs := ⟨hs.insert (fun _ h => nomatch h), fun _ hid => hid.insert _⟩
  recordEnum hs := ⟨hs.table, hs.memo, hs.enums⟩
  rememberEnum hmembers hs := by
    refine ⟨hs.table, hs.memo, fun e he => ?_⟩
    rcases List.mem_cons.mp he with rfl | he
    · exact hmembers
    · exact hs.enums e he
  defines := by
    intro O current name args first rest levels s _ _ hsteady hbody hs hargs
    have hplace := reserved_of_steady hsteady s (name, args)
    have hgrown : ∀ id, InTable s id → InTable (s.reserve (name, args)) id := fun _ hid => hid.insert .pending
    have hread := hbody O (s.reserve (name, args)) (hs.reserve hargs) fun a ha => hgrown a (hargs a ha)
    rw [defineInstance_apply]
    cases hres : declarationBody p (resolveWithin p levels) name (first :: rest) first args (s.reserve (name, args)) with
    | ok type t =>
      rw [hres] at hread hplace
      obtain ⟨hkeep, htype, ht⟩ := hread
      have hdefined := ht.define hplace (htype type (List.mem_singleton.mpr rfl))
      have hsize : ∀ id, InTable t id →
          InTable { t with table := (Table.define ⟨s.table.size⟩ type t.table).2 } id := by
        intro id hid
        unfold InTable
        rw [Table.define_size]
        exact hid
      refine ⟨fun id hid => hsize id (hkeep id (hgrown id hid)), fun id hid => ?_, hdefined⟩
      rw [List.mem_singleton.mp hid]
      exact hsize _ (inTable_of_slot hplace)
    | error e t =>
      rw [hres] at hread
      refine ⟨fun id hid => hread.1 id (hgrown id hid), fun _ => ?_⟩
      have ht := hread.2 trivial
      exact ⟨ht.table, fun e he => ht.memo e (List.mem_filter.mp he).1, ht.enums⟩

/-! ### Reserved places -/

/-- Only the places of `O` are reserved. -/
def PendingWithin (O : List Nat) (s : TypeState) : Prop :=
  ∀ i, s.table.slots[i]? = some (.kind .pending) → i ∈ O

theorem PendingWithin.insert {O : List Nat} {s : TypeState} (h : PendingWithin O s) {k : TypeKind}
    (hk : k ≠ .pending) : PendingWithin O (s.insert k) := by
  intro i hi
  obtain ⟨hlt, -⟩ := Array.getElem?_eq_some_iff.mp hi
  have hlt : i < s.table.size + 1 := by
    rw [← insert_size s k]
    exact hlt
  rcases Nat.lt_succ_iff_lt_or_eq.mp hlt with hi' | rfl
  · rw [insert_slot_lt s k hi'] at hi
    exact h i hi
  · rw [insert_slot_size] at hi
    cases hi
    exact absurd rfl hk

theorem PendingWithin.reserve {O : List Nat} {s : TypeState} (h : PendingWithin O s) (inst : Instance) :
    PendingWithin (s.table.size :: O) (s.reserve inst) := by
  intro i hi
  by_cases heq : i = s.table.size
  · rw [heq]
    exact List.mem_cons_self
  · obtain ⟨hlt, -⟩ := Array.getElem?_eq_some_iff.mp hi
    have hlt : i < s.table.size + 1 := by
      rw [← insert_size s .pending]
      exact hlt
    refine List.mem_cons_of_mem _ (h i ?_)
    rw [← insert_slot_lt s .pending (by omega)]
    exact hi

theorem PendingWithin.define {O : List Nat} {s : TypeState} {place : TypeId}
    (h : PendingWithin (place.slot :: O) s) (hplace : place.slot < s.table.size) (type : TypeId) :
    PendingWithin O { s with table := (Table.define place type s.table).2 } := by
  intro i hi
  have hne : place.slot ≠ i := by
    rintro rfl
    rw [show ({ s with table := (Table.define place type s.table).2 } : TypeState).table.slots[place.slot]? = _
      from Table.define_slot_self hplace] at hi
    cases hi
  rw [show ({ s with table := (Table.define place type s.table).2 } : TypeState).table.slots[i]? = _
    from Table.define_slot_ne hne] at hi
  exact (List.mem_cons.mp (h i hi)).resolve_left fun heq => hne heq.symm

/-- A reading that succeeds defines all places that it reserves. -/
theorem pendingWithin_upheld (p : Project) : Upheld p PendingWithin (fun _ => AnyId) False where
  transport _ := transport_same fun _ _ hk hs => hs.insert fun h => by
    rw [h] at hk
    exact hk
  remembered _ _ _ := trivial
  member _ _ _ _ := trivial
  valid_member _ := trivial
  valid_slots _ _ := trivial
  enumLiteral _ hs := ⟨hs.insert (fun h => nomatch h), fun _ _ => trivial⟩
  recordEnum hs := hs
  rememberEnum _ hs := hs
  defines := by
    intro O current name args first rest levels s _ _ hsteady hbody hs _
    have hread := hbody (s.table.size :: O) (s.reserve (name, args)) (hs.reserve (name, args)) fun _ _ => trivial
    have hsize := Steady.size_lt hsteady s (name, args)
    rw [defineInstance_apply]
    cases hres : declarationBody p (resolveWithin p levels) name (first :: rest) first args (s.reserve (name, args)) with
    | ok type t =>
      rw [hres] at hread hsize
      exact ⟨fun _ _ => trivial, fun _ _ => trivial, hread.2.2.define hsize type⟩
    | error e t => exact ⟨fun _ _ => trivial, False.elim⟩

/-! ### Remembered instances -/

/-- What is remembered for an instance leads to reserved places among those of `O` only, if its arguments do. -/
structure Tidy (O : List Nat) (s : TypeState) : Prop where
  closed : s.Closed
  memo : ∀ inst type, s.memo.lookup inst = some type → (∀ a ∈ inst.2, s.table.OpenAt O a) → s.table.OpenAt O type

theorem Tidy.grow {O : List Nat} {s s' : TypeState} (hs : Tidy O s) (hs' : s'.Closed) (hmemo : s'.memo = s.memo)
    (hgrow : Extends s s') : Tidy O s' where
  closed := hs'
  memo inst type htype hargs := by
    rw [hmemo] at htype
    obtain ⟨hin, hinargs⟩ := hs.closed.memo _ (mem_of_lookup htype)
    rw [hs.closed.table.openAt_iff hgrow hgrow.size_le hin]
    refine hs.memo inst type htype fun a ha => ?_
    rw [← hs.closed.table.openAt_iff hgrow hgrow.size_le (hinargs a ha)]
    exact hargs a ha

theorem OpenAt.grow {O : List Nat} {s s' : TypeState} (hs : s.Closed) (hgrow : Extends s s') {id : TypeId}
    (h : s.table.OpenAt O id) : s'.table.OpenAt O id :=
  (hs.table.openAt_iff hgrow hgrow.size_le h.1).mpr h

theorem openAt_fresh {O : List Nat} {s : TypeState} (hs : s.Closed) {k : TypeKind} (hk : k ≠ .pending)
    (hids : ∀ a ∈ ids k, s.table.OpenAt O a) : (s.insert k).table.OpenAt O ⟨s.table.size⟩ := by
  refine ⟨inTable_fresh s k, fun b hb hslot => ?_⟩
  rcases hb.cases_head with rfl | ⟨c, ⟨slot, hc, hmem⟩, hb⟩
  · rw [insert_slot_size] at hslot
    cases hslot
    exact absurd rfl hk
  · rw [insert_slot_size] at hc
    cases hc
    exact (OpenAt.grow hs ((Extends.refl s).insert k) (hids c hmem)).2 b hb hslot

theorem openAt_of_member {O : List Nat} {s : TypeState} {id : TypeId} {e m : String} {l : Literal}
    (h : s.table.slots[id.slot]? = some (.kind (.enumLiteral e m l))) : s.table.OpenAt O id := by
  refine ⟨inTable_of_slot h, fun b hb hslot => ?_⟩
  rcases hb.cases_head with rfl | ⟨c, ⟨slot, hc, hmem⟩, -⟩
  · cases h.symm.trans hslot
  · cases h.symm.trans hc
    cases hmem

theorem Tidy.reserve {O : List Nat} {s : TypeState} (hs : Tidy O s) {inst : Instance}
    (hargs : ∀ a ∈ inst.2, InTable s a) : Tidy (s.table.size :: O) (s.reserve inst) where
  closed := hs.closed.reserve hargs
  memo other type htype hopen := by
    have hgrow : Extends s (s.reserve inst) := (Extends.refl s).insert .pending
    by_cases heq : other = inst
    · subst heq
      rw [show (s.reserve other).memo.lookup other = some ⟨s.table.size⟩ from List.lookup_cons_self] at htype
      obtain rfl := Option.some.inj htype
      refine ⟨inTable_fresh s .pending, fun b hb hslot => ?_⟩
      rcases hb.cases_head with rfl | ⟨c, ⟨slot, hc, hmem⟩, -⟩
      · exact List.mem_cons_self
      · rw [show (s.reserve other).table.slots[s.table.size]? = _ from insert_slot_size s .pending] at hc
        cases hc
        cases hmem
    · rw [show (s.reserve inst).memo.lookup other = s.memo.lookup other from lookup_cons_ne heq _ _] at htype
      have hin := hs.closed.memo _ (mem_of_lookup htype)
      refine (OpenAt.grow hs.closed hgrow ?_).cons s.table.size
      refine hs.memo other type htype fun a ha => hs.closed.table.openAt_cons ?_
      rw [← hs.closed.table.openAt_iff hgrow hgrow.size_le (hin.2 a ha)]
      exact hopen a ha

/-- A reading that succeeds leads only to places that were open before it. -/
theorem tidy_upheld (p : Project) : Upheld p Tidy (fun O s => s.table.OpenAt O) False where
  transport O := by
    apply transport_self
    · intro s k hk hids hs
      exact hs.grow (hs.closed.insert fun a ha => (hids a ha).1) rfl ((Extends.refl s).insert k)
    · intro s hs id hid a ha
      have hleads : ReflTransGen s.table.Leads id a := Table.HasPart.leads ha
      exact ⟨hs.closed.table.reach_lt hid.1 hleads, fun b hb => hid.2 b (hleads.trans hb)⟩
    · intro s k hk hids hs
      refine openAt_fresh hs.closed (fun h => ?_) hids
      rw [h] at hk
      exact hk
    · intro s k hs id hid
      exact OpenAt.grow hs.closed ((Extends.refl s).insert k) hid
  remembered hs hmemo hargs := hs.memo _ _ hmemo hargs
  member hs henum m hm := by
    obtain ⟨l, hslot⟩ := hs.closed.enums _ (mem_of_lookup henum) m hm
    exact openAt_of_member hslot
  valid_member := openAt_of_member
  valid_slots hid hslots := by
    unfold Table.OpenAt Table.Leads Table.size
    rw [hslots]
    exact hid
  enumLiteral _ hs :=
    ⟨hs.grow (hs.closed.insert fun _ h => nomatch h) rfl ((Extends.refl _).insert _),
      fun _ hid => OpenAt.grow hs.closed ((Extends.refl _).insert _) hid⟩
  recordEnum hs := hs.grow ⟨hs.closed.table, hs.closed.memo, hs.closed.enums⟩ rfl (Extends.refl _)
  rememberEnum hmembers hs := hs.grow ((closed_upheld p).rememberEnum (O := []) hmembers hs.closed) rfl (Extends.refl _)
  defines := by
    intro O current name args first rest levels s _ _ hsteady hbody hs hargs
    have hgrow : Extends s (s.reserve (name, args)) := (Extends.refl s).insert .pending
    have hopen : ∀ id, s.table.OpenAt O id → (s.reserve (name, args)).table.OpenAt (s.table.size :: O) id :=
      fun id hid => (OpenAt.grow hs.closed hgrow hid).cons s.table.size
    have hread := hbody (s.table.size :: O) (s.reserve (name, args)) (hs.reserve fun a ha => (hargs a ha).1)
      fun a ha => hopen a (hargs a ha)
    have hplace := reserved_of_steady hsteady s (name, args)
    have hextends := Steady.slot hsteady s (name, args)
    rw [defineInstance_apply]
    cases hres : declarationBody p (resolveWithin p levels) name (first :: rest) first args (s.reserve (name, args)) with
    | error e t =>
      rw [hres] at hextends
      exact ⟨fun id hid => OpenAt.grow hs.closed hextends hid, False.elim⟩
    | ok type t =>
      rw [hres] at hread hplace
      obtain ⟨hkeep, htype, ht⟩ := hread
      have htarget := htype type (List.mem_singleton.mpr rfl)
      have hdefine : ∀ id, t.table.OpenAt (s.table.size :: O) id →
          (Table.define ⟨s.table.size⟩ type t.table).2.OpenAt O id := fun id hid =>
        Table.OpenAt.define ht.closed.table htarget hid
      refine ⟨fun id hid => hdefine id (hkeep id (hopen id hid)), fun id hid => ?_,
        ht.closed.define hplace htarget.1, fun inst found hfound hfinished => ?_⟩
      · rw [List.mem_singleton.mp hid]
        refine hdefine _ ⟨inTable_of_slot hplace, fun b hb hslot => ?_⟩
        rcases hb.cases_head with rfl | ⟨c, ⟨slot, hc, hmem⟩, -⟩
        · exact List.mem_cons_self
        · rw [show t.table.slots[s.table.size]? = _ from hplace] at hc
          cases hc
          cases hmem
      · apply hdefine
        apply ht.memo inst found hfound
        intro a ha
        exact Table.OpenAt.of_define hplace (hfinished a ha)

/-! ### Queries -/

/-- What may be known after queries, each asked with types of the table. -/
inductive Reached (p : Project) (current : Nat) : Inquiry → Prop where
  | start : Reached p current {}
  | step {s : Inquiry} (q : Query) : Reached p current s → (∀ a ∈ q.args, a.slot < s.table.size) →
      Reached p current (ask p current s q).2

/-- What may be known after queries that all had an answer. -/
inductive Answered (p : Project) (current : Nat) : Inquiry → Prop where
  | start : Answered p current {}
  | step {s : Inquiry} (q : Query) (id : TypeId) : Answered p current s → (∀ a ∈ q.args, a.slot < s.table.size) →
      (ask p current s q).1 = some id → Answered p current (ask p current s q).2

theorem closed_start : TypeState.Closed {} where
  table := by
    rintro a b ⟨slot, hslot, -⟩
    cases hslot
  memo _ h := nomatch h
  enums _ h := nomatch h

section

variable {p : Project} {current : Nat} {s : Inquiry}

theorem Reached.known (h : Reached p current s) : Known TypeState.Closed InTable s := by
  induction h with
  | start => exact ⟨closed_start, fun _ _ h => nomatch h⟩
  | step q _ hargs ih => exact ((closed_upheld p).ask ih q hargs).known fun _ => trivial

theorem Answered.pendingWithin (h : Answered p current s) : PendingWithin [] s.types := by
  have hknown : Known (PendingWithin []) AnyId s := by
    induction h with
    | start => exact ⟨(fun _ h => nomatch h), fun _ _ _ => trivial⟩
    | step q id _ _ hid ih =>
      refine ((pendingWithin_upheld p).ask ih q fun _ _ => trivial).known fun hnone => ?_
      rw [hid] at hnone
      cases hnone
  exact hknown.types

/-- With no place reserved, every type of the table is finished. -/
theorem finished_of_pendingWithin {t : TypeState} (h : PendingWithin [] t) {id : TypeId} (hid : InTable t id) :
    t.table.Finished id :=
  Table.finished_iff.mpr ⟨hid, fun b _ hslot => h b.slot hslot⟩

/-- Types that are finished stay so, whatever is asked. -/
theorem Reached.finished_ask (h : Reached p current s) {id : TypeId} (hid : s.table.Finished id) (q : Query) :
    (ask p current s q).2.table.Finished id := by
  have hgrow : Extends s.types (ask p current s q).2.types :=
    (extends_maintained p s.types).ask s q (Extends.refl s.types)
  exact Table.finished_iff.mpr (OpenAt.grow h.known.types hgrow (Table.finished_iff.mp hid))

/-- What is remembered is finished, as far as it was asked for with finished types. -/
def RememberedFinished (s : Inquiry) : Prop :=
  ∀ q id, (∀ a ∈ q.args, s.table.Finished a) → s.remembered q = some (some id) → s.table.Finished id

theorem RememberedFinished.known (h : RememberedFinished s) (hs : Reached p current s) :
    Known (Tidy []) (fun t => t.table.OpenAt []) s where
  types := by
    refine ⟨hs.known.types, fun inst type htype hargs => ?_⟩
    refine Table.finished_iff.mp (h (.named inst.1 inst.2) type (fun a ha => ?_) ?_)
    · exact Table.finished_iff.mpr (hargs a ha)
    · simp only [Inquiry.remembered, htype, Option.map_some]
  values name id hid := Table.finished_iff.mp (h (.value name) id (fun _ ha => nomatch ha) hid)

theorem ask_of_remembered (p : Project) (current : Nat) {q : Query} {id : TypeId} (h : s.remembered q = some (some id)) :
    ask p current s q = (some id, s) := by
  cases q with
  | named name args =>
    simp only [Inquiry.remembered, Option.map_eq_some_iff] at h
    obtain ⟨type, htype, heq⟩ := h
    obtain rfl := Option.some.inj heq
    exact ask_named_of_remembered current htype
  | value name => exact ask_value_of_remembered current h
  | member qualifier name => cases h
  | signature start? => cases h

end

/-- After any queries, the answers to come are finished if and only if the remembered ones are; they are as long as every query
had an answer. What is finished stays so. -/
theorem answers_finished (p : Project) (current : Nat) (s : Inquiry) (hs : Reached p current s) :
    ((∀ q id, (∀ a ∈ q.args, s.table.Finished a) → (ask p current s q).1 = some id →
        (ask p current s q).2.table.Finished id) ↔
      ∀ q id, (∀ a ∈ q.args, s.table.Finished a) → s.remembered q = some (some id) → s.table.Finished id) ∧
    (Answered p current s → ∀ q id, (∀ a ∈ q.args, a.slot < s.table.size) → (ask p current s q).1 = some id →
      (ask p current s q).2.table.Finished id) ∧
    ∀ id, s.table.Finished id → ∀ q, (ask p current s q).2.table.Finished id := by
  refine ⟨⟨fun hanswers q id hargs hid => ?_, fun hremembered q id hargs hid => ?_⟩, fun hanswered q id hargs hid => ?_,
    fun id hid q => hs.finished_ask hid q⟩
  · have hask := ask_of_remembered p current hid
    have hfinished := hanswers q id hargs (congrArg Prod.fst hask)
    rw [hask] at hfinished
    exact hfinished
  · have hknown := RememberedFinished.known hremembered hs
    exact Table.finished_iff.mpr
      (((tidy_upheld p).ask hknown q fun a ha => Table.finished_iff.mp (hargs a ha)).answer id hid)
  · have hnext := Answered.step q id hanswered hargs hid
    exact finished_of_pendingWithin hnext.pendingWithin
      (((closed_upheld p).ask hs.known q hargs).answer id hid)

/-- Interfaces that refer to each other. -/
def eachOther : Project := .ofFiles [.parse "a.ts" "interface A \x7b b: B \x7d interface B \x7b a: A[] \x7d"]

theorem eachOther_finished :
    (ask eachOther 0 {} (.named "A" [])).1 = some ⟨0⟩ ∧ (ask eachOther 0 {} (.named "A" [])).2.table.Finished ⟨0⟩ := by
  have hanswer : (ask eachOther 0 {} (.named "A" [])).1 = some ⟨0⟩ := by decide +kernel
  refine ⟨hanswer, (answers_finished eachOther 0 {} .start).2.1 .start _ _ ?_ hanswer⟩
  intro a ha
  cases ha

/-- Interfaces that refer to each other, the first with a property of an unknown type after the reference. -/
def broken : Project :=
  .ofFiles [.parse "a.ts" "interface A \x7b b: B; x: Missing \x7d interface B \x7b a: A \x7d"]

/-- `A` has no answer; `B`, which was finished meanwhile, has one from then on, whose property is still to be defined and
is validated by `z.never()`. -/
theorem broken_leaves_unfinished :
    (ask broken 0 {} (.named "A" [])).1 = none ∧
      (ask broken 0 (after broken 0 [.named "A" []]) (.named "B" [])).1 = some ⟨1⟩ ∧
      ¬(ask broken 0 (after broken 0 [.named "A" []]) (.named "B" [])).2.table.Finished ⟨1⟩ ∧
      (validatorOfResult (ask broken 0 (after broken 0 [.named "A" []]) (.named "B" [])).2.table 50 ⟨1⟩).map
          Validator.print = .ok "z.object(\x7b a: z.never() \x7d)" := by
  refine ⟨by decide +kernel, by decide +kernel, ?_, by decide +kernel⟩
  intro hfinished
  have hpart : (ask broken 0 (after broken 0 [.named "A" []]) (.named "B" [])).2.table.HasPart ⟨1⟩ ⟨0⟩ := by
    show (⟨0⟩ : TypeId) ∈ _
    decide +kernel
  exact hfinished.2 ⟨0⟩ (.single hpart) (by decide +kernel)

end SchemaSplice.Declaration
