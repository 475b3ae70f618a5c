import Mathlib.Data.Fintype.Card
import Mathlib.Logic.Relation
import SchemaSplice.Proofs.Resolution.Persistence
/-!
# Types that are defined throughout

A type is finished when none of the types it is made of, through any number of steps, reads as reserved. Reading a place
follows forwards, so a step from type to type is some steps from place to place; a chain of forwards that ends has no
place twice and so is never cut short. Growing a closed table and defining a reserved place change which reserved
places can be reached in a way that is told here.
-/

namespace SchemaSplice.Types

open Annotation HasIds Relation

/-! ### Chains of forwards -/

namespace Table

def Forwards (t : Table) (a b : TypeId) : Prop := t.slots[a.slot]? = some (.forward b)

/-- From a place, `n` forwards lead to one with a kind. -/
def Ends (t : Table) : Nat → TypeId → TypeKind → Prop
  | 0, id, k => t.slots[id.slot]? = some (.kind k)
  | n + 1, id, k => ∃ target, t.Forwards id target ∧ t.Ends n target k

variable {t : Table} {id a b : TypeId} {k k' : TypeKind} {n m : Nat}

theorem Ends.slot_lt (h : t.Ends n id k) : id.slot < t.size := by
  cases n with
  | zero => exact (Array.getElem?_eq_some_iff.mp h).1
  | succ n =>
    obtain ⟨target, hforward, -⟩ := h
    exact (Array.getElem?_eq_some_iff.mp hforward).1

theorem Ends.unique (h : t.Ends n id k) (h' : t.Ends m id k') : n = m := by
  induction n generalizing id m with
  | zero =>
    cases m with
    | zero => rfl
    | succ m =>
      obtain ⟨target, hforward, -⟩ := h'
      exact nomatch h.symm.trans hforward
  | succ n ih =>
    obtain ⟨target, hforward, hrest⟩ := h
    cases m with
    | zero => exact nomatch h'.symm.trans hforward
    | succ m =>
      obtain ⟨target', hforward', hrest'⟩ := h'
      cases hforward.symm.trans hforward'
      rw [ih hrest hrest']

theorem Ends.exists_of_le (h : t.Ends n id k) (hm : m ≤ n) : ∃ a, t.Ends m a k := by
  induction n generalizing id with
  | zero =>
    obtain rfl : m = 0 := Nat.le_zero.mp hm
    exact ⟨id, h⟩
  | succ n ih =>
    rcases Nat.lt_or_eq_of_le hm with hm | rfl
    · obtain ⟨target, -, hrest⟩ := h
      exact ih hrest (Nat.le_of_lt_succ hm)
    · exact ⟨id, h⟩

/-- The places on a chain that ends are all different, so there are no more of them than the table has. -/
theorem Ends.lt_size (h : t.Ends n id k) : n < t.size := by
  have hplaces : ∀ i : Fin (n + 1), ∃ a, t.Ends i a k := fun i => h.exists_of_le (Nat.le_of_lt_succ i.isLt)
  choose place hplace using hplaces
  have hinjective : Function.Injective fun i => (⟨(place i).slot, (hplace i).slot_lt⟩ : Fin t.size) := by
    intro i j hij
    have hslot : (place i).slot = (place j).slot := congrArg Fin.val hij
    have hsame : place i = place j := by
      generalize place i = a at hslot ⊢
      generalize place j = b at hslot ⊢
      cases a
      cases b
      exact congrArg TypeId.mk hslot
    exact Fin.ext ((hplace i).unique (hsame ▸ hplace j))
  have hcard := Fintype.card_le_of_injective _ hinjective
  rw [Fintype.card_fin, Fintype.card_fin] at hcard
  omega

/-- The kind that is found within some steps, if there is one. -/
def followed? (t : Table) : (steps : Nat) → TypeId → Option TypeKind
  | 0, _ => none
  | steps + 1, id =>
    match t.slots[id.slot]? with
    | some (.kind k) => some k
    | some (.forward target) => followed? t steps target
    | none => none

/-- Where nothing is found, `never` is read. -/
theorem follow_eq (t : Table) (steps : Nat) (id : TypeId) : t.follow steps id = (t.followed? steps id).getD .never := by
  induction steps generalizing id with
  | zero => rfl
  | succ steps ih =>
    rw [follow, followed?]
    cases t.slots[id.slot]? with
    | none => rfl
    | some slot =>
      cases slot with
      | kind k => rfl
      | forward target => exact ih target

theorem Ends.followed? (h : t.Ends n id k) (hm : n < m) : t.followed? m id = some k := by
  induction n generalizing id m with
  | zero =>
    obtain ⟨m, rfl⟩ := Nat.exists_eq_succ_of_ne_zero (by omega : m ≠ 0)
    rw [Table.followed?, h]
  | succ n ih =>
    obtain ⟨target, hforward, hrest⟩ := h
    obtain ⟨m, rfl⟩ := Nat.exists_eq_succ_of_ne_zero (by omega : m ≠ 0)
    rw [Table.followed?, hforward]
    exact ih hrest (by omega)

theorem exists_ends_of_followed? (h : t.followed? m id = some k) : ∃ n, t.Ends n id k := by
  induction m generalizing id with
  | zero => cases h
  | succ m ih =>
    rw [followed?] at h
    split at h
    · next hslot =>
      rw [Option.some.inj h] at hslot
      exact ⟨0, hslot⟩
    · next target hslot =>
      obtain ⟨n, hn⟩ := ih h
      exact ⟨n + 1, target, hslot, hn⟩
    · cases h

theorem Ends.kind (h : t.Ends n id k) : t.kind id = k := by
  rw [Table.kind, follow_eq, h.followed? h.lt_size, Option.getD_some]

theorem exists_ends_of_follow (h : t.follow m id = k) (hk : k ≠ .never) : ∃ n, t.Ends n id k := by
  rw [follow_eq] at h
  cases hfound : t.followed? m id with
  | none =>
    rw [hfound] at h
    exact absurd h.symm hk
  | some k' =>
    rw [hfound, Option.getD_some] at h
    exact exists_ends_of_followed? (h ▸ hfound)

theorem exists_ends (hk : t.kind id ≠ .never) : ∃ n, t.Ends n id (t.kind id) := exists_ends_of_follow rfl hk

theorem exists_ends_of_kind (h : t.kind id = k) (hk : k ≠ .never) : ∃ n, t.Ends n id k := exists_ends_of_follow h hk

theorem Ends.of_forwards (h : ReflTransGen t.Forwards a b) (hb : t.slots[b.slot]? = some (.kind k)) :
    ∃ n, t.Ends n a k := by
  induction h using ReflTransGen.head_induction_on with
  | refl => exact ⟨0, hb⟩
  | head hstep _ ih =>
    obtain ⟨n, hn⟩ := ih
    exact ⟨n + 1, _, hstep, hn⟩

theorem Ends.forwards (h : t.Ends n id k) :
    ∃ b, ReflTransGen t.Forwards id b ∧ t.slots[b.slot]? = some (.kind k) := by
  induction n generalizing id with
  | zero => exact ⟨id, .refl, h⟩
  | succ n ih =>
    obtain ⟨target, hforward, hrest⟩ := h
    obtain ⟨b, hb, hslot⟩ := ih hrest
    exact ⟨b, .head hforward hb, hslot⟩

/-! ### What a type leads to -/

/-- A type has another one as a part. -/
def HasPart (t : Table) (a b : TypeId) : Prop := b ∈ ids (t.kind a)

/-- No type that can be reached through parts is still to be defined. -/
def Finished (t : Table) (id : TypeId) : Prop :=
  id.slot < t.size ∧ ∀ b, ReflTransGen t.HasPart id b → t.kind b ≠ .pending

/-- The types that stand in a place. -/
def slotIds : Slot → List TypeId
  | .kind k => ids k
  | .forward target => [target]

def Leads (t : Table) (a b : TypeId) : Prop := ∃ slot, t.slots[a.slot]? = some slot ∧ b ∈ slotIds slot

/-- The reserved places that can be reached from a place are among those of `O`. -/
def OpenAt (t : Table) (O : List Nat) (id : TypeId) : Prop :=
  id.slot < t.size ∧ ∀ b, ReflTransGen t.Leads id b → t.slots[b.slot]? = some (.kind .pending) → b.slot ∈ O

theorem Forwards.leads (h : t.Forwards a b) : t.Leads a b := ⟨_, h, List.mem_singleton.mpr rfl⟩

theorem leads_of_slot (hslot : t.slots[a.slot]? = some (.kind k)) (hb : b ∈ ids k) : t.Leads a b := ⟨_, hslot, hb⟩

theorem leads_of_forwards (h : ReflTransGen t.Forwards a b) : ReflTransGen t.Leads a b :=
  ReflTransGen.mono (fun _ _ hstep => hstep.leads) _ _ h

theorem HasPart.leads (h : t.HasPart a b) : ReflTransGen t.Leads a b := by
  have hk : t.kind a ≠ .never := by
    intro hk
    unfold HasPart at h
    rw [hk] at h
    cases h
  obtain ⟨n, hn⟩ := exists_ends hk
  obtain ⟨c, hc, hslot⟩ := hn.forwards
  exact (leads_of_forwards hc).tail (leads_of_slot hslot h)

theorem leads_of_hasPart (h : ReflTransGen t.HasPart a b) : ReflTransGen t.Leads a b := by
  induction h with
  | refl => exact .refl
  | tail _ hstep ih => exact ih.trans hstep.leads

/-- Every place on a way is reached by forwards from a type that is reached through parts. -/
theorem exists_hasPart_forwards (h : ReflTransGen t.Leads a b) :
    ∃ c, ReflTransGen t.HasPart a c ∧ ReflTransGen t.Forwards c b := by
  induction h with
  | refl => exact ⟨a, .refl, .refl⟩
  | @tail b d _ hstep ih =>
    obtain ⟨c, hc, hforwards⟩ := ih
    obtain ⟨slot, hslot, hmem⟩ := hstep
    cases slot with
    | forward target =>
      rw [List.mem_singleton.mp hmem]
      exact ⟨c, hc, hforwards.tail hslot⟩
    | kind k =>
      obtain ⟨n, hn⟩ := Ends.of_forwards hforwards hslot
      have hpart : t.HasPart c d := by
        unfold HasPart
        rw [hn.kind]
        exact hmem
      exact ⟨d, hc.tail hpart, .refl⟩

theorem finished_iff : t.Finished id ↔ t.OpenAt [] id := by
  constructor
  · rintro ⟨hid, h⟩
    refine ⟨hid, fun b hb hslot => ?_⟩
    obtain ⟨c, hc, hforwards⟩ := exists_hasPart_forwards hb
    obtain ⟨n, hn⟩ := Ends.of_forwards hforwards hslot
    exact absurd hn.kind (h c hc)
  · rintro ⟨hid, h⟩
    refine ⟨hid, fun b hb hpending => ?_⟩
    have hleads := leads_of_hasPart hb
    obtain ⟨n, hn⟩ := exists_ends_of_kind hpending (fun h => nomatch h)
    obtain ⟨c, hc, hslot⟩ := hn.forwards
    exact List.not_mem_nil (h c (hleads.trans (leads_of_forwards hc)) hslot)

theorem OpenAt.leads {O : List Nat} (h : t.OpenAt O a) (hab : t.Leads a b) (hb : b.slot < t.size) :
    t.OpenAt O b :=
  ⟨hb, fun c hc => h.2 c (.head hab hc)⟩

/-! ### Growing and defining -/

/-- Places lead to places of the table. -/
def Closed (t : Table) : Prop := ∀ a b, t.Leads a b → b.slot < t.size

variable {t' : Table} {O : List Nat}

theorem Closed.reach_lt (ht : t.Closed) (ha : a.slot < t.size) (h : ReflTransGen t.Leads a b) :
    b.slot < t.size := by
  cases h with
  | refl => exact ha
  | tail _ hstep => exact ht _ _ hstep

theorem Closed.hasPart_lt (ht : t.Closed) (ha : a.slot < t.size) (h : t.HasPart a b) : b.slot < t.size :=
  ht.reach_lt ha h.leads

/-- What can be reached from the places of a closed table stays the same when others are added. -/
theorem Closed.reach_iff (ht : t.Closed) (hgrow : ∀ i, i < t.size → t'.slots[i]? = t.slots[i]?)
    (ha : a.slot < t.size) : ReflTransGen t'.Leads a b ↔ ReflTransGen t.Leads a b := by
  constructor
  · intro h
    induction h with
    | refl => exact .refl
    | tail _ hstep ih =>
      obtain ⟨slot, hslot, hmem⟩ := hstep
      rw [hgrow _ (ht.reach_lt ha ih)] at hslot
      exact ih.tail ⟨slot, hslot, hmem⟩
  · intro h
    induction h with
    | refl => exact .refl
    | tail hbefore hstep ih =>
      obtain ⟨slot, hslot, hmem⟩ := hstep
      rw [← hgrow _ (ht.reach_lt ha hbefore)] at hslot
      exact ih.tail ⟨slot, hslot, hmem⟩

theorem Closed.openAt_iff (ht : t.Closed) (hgrow : ∀ i, i < t.size → t'.slots[i]? = t.slots[i]?)
    (hsize : t.size ≤ t'.size) (ha : a.slot < t.size) : t'.OpenAt O a ↔ t.OpenAt O a := by
  constructor
  · rintro ⟨-, h⟩
    refine ⟨ha, fun b hb hslot => h b ((ht.reach_iff hgrow ha).mpr hb) ?_⟩
    rw [hgrow _ (ht.reach_lt ha hb)]
    exact hslot
  · rintro ⟨-, h⟩
    refine ⟨Nat.lt_of_lt_of_le ha hsize, fun b hb hslot => ?_⟩
    have hb := (ht.reach_iff hgrow ha).mp hb
    rw [hgrow _ (ht.reach_lt ha hb)] at hslot
    exact h b hb hslot

theorem Closed.ends_iff (ht : t.Closed) (hgrow : ∀ i, i < t.size → t'.slots[i]? = t.slots[i]?)
    (ha : a.slot < t.size) : t'.Ends n a k ↔ t.Ends n a k := by
  induction n generalizing a with
  | zero =>
    unfold Ends
    rw [hgrow _ ha]
  | succ n ih =>
    have hstep : ∀ target, t'.Forwards a target ↔ t.Forwards a target := by
      intro target
      unfold Forwards
      rw [hgrow _ ha]
    constructor
    · rintro ⟨target, hforward, hrest⟩
      have hforward := (hstep target).mp hforward
      exact ⟨target, hforward, (ih (ht _ _ hforward.leads)).mp hrest⟩
    · rintro ⟨target, hforward, hrest⟩
      exact ⟨target, (hstep target).mpr hforward, (ih (ht _ _ hforward.leads)).mpr hrest⟩

/-- A type of a closed table reads the same when places are added. -/
theorem Closed.kind_eq (ht : t.Closed) (hgrow : ∀ i, i < t.size → t'.slots[i]? = t.slots[i]?)
    (ha : a.slot < t.size) : t'.kind a = t.kind a := by
  by_cases hnever : t'.kind a = .never
  · by_cases hnever' : t.kind a = .never
    · rw [hnever, hnever']
    · obtain ⟨n, hn⟩ := exists_ends hnever'
      exact ((ht.ends_iff hgrow ha).mpr hn).kind
  · obtain ⟨n, hn⟩ := exists_ends hnever
    exact ((ht.ends_iff hgrow ha).mp hn).kind.symm

/-- A place is reached whether or not a place that can be reached anyway is added to the open ones. -/
theorem Closed.openAt_cons (ht : t.Closed) (h : t.OpenAt (t.size :: O) a) : t.OpenAt O a := by
  refine ⟨h.1, fun b hb hslot => ?_⟩
  have hlt := ht.reach_lt h.1 hb
  rcases List.mem_cons.mp (h.2 b hb hslot) with heq | hmem
  · omega
  · exact hmem

theorem OpenAt.cons (h : t.OpenAt O a) (place : Nat) : t.OpenAt (place :: O) a :=
  ⟨h.1, fun b hb hslot => List.mem_cons_of_mem _ (h.2 b hb hslot)⟩

section

variable {place target : TypeId}

theorem define_size (place target : TypeId) (t : Table) : (Table.define place target t).2.size = t.size :=
  Array.size_setIfInBounds

theorem define_slot_ne {i : Nat} (h : place.slot ≠ i) :
    (Table.define place target t).2.slots[i]? = t.slots[i]? :=
  Array.getElem?_setIfInBounds_ne h

theorem define_slot_self (h : place.slot < t.size) :
    (Table.define place target t).2.slots[place.slot]? = some (.forward target) :=
  Array.getElem?_setIfInBounds_self_of_lt h

/-- A step in the table where a place is defined is a step before, or the one from that place. -/
theorem leads_define (h : (Table.define place target t).2.Leads a b) : t.Leads a b ∨ b = target := by
  obtain ⟨slot, hslot, hmem⟩ := h
  by_cases ha : place.slot = a.slot
  · obtain ⟨hlt, -⟩ := Array.getElem?_eq_some_iff.mp hslot
    have hlt : place.slot < t.size := by
      rw [ha, ← define_size place target t]
      exact hlt
    rw [← ha, define_slot_self hlt] at hslot
    cases hslot
    exact Or.inr (List.mem_singleton.mp hmem)
  · rw [define_slot_ne ha] at hslot
    exact Or.inl ⟨slot, hslot, hmem⟩

theorem Closed.define (ht : t.Closed) (htarget : target.slot < t.size) :
    (Table.define place target t).2.Closed := by
  intro a b hab
  rw [define_size]
  rcases leads_define hab with h | rfl
  · exact ht a b h
  · exact htarget

/-- Once a reserved place is defined, it is no longer among the open ones. -/
theorem OpenAt.define (ht : t.Closed) (htarget : t.OpenAt (place.slot :: O) target)
    (h : t.OpenAt (place.slot :: O) a) : (Table.define place target t).2.OpenAt O a := by
  have hreach : ∀ b, ReflTransGen (Table.define place target t).2.Leads a b → t.OpenAt (place.slot :: O) b := by
    intro b hb
    induction hb with
    | refl => exact h
    | tail _ hstep ih =>
      rcases leads_define hstep with hstep | rfl
      · exact ih.leads hstep (ht _ _ hstep)
      · exact htarget
  refine ⟨by rw [define_size]; exact h.1, fun b hb hslot => ?_⟩
  have hne : place.slot ≠ b.slot := by
    intro heq
    rw [← heq, define_slot_self (by rw [heq]; exact (hreach b hb).1)] at hslot
    cases hslot
  rw [define_slot_ne hne] at hslot
  exact (List.mem_cons.mp ((hreach b hb).2 b .refl hslot)).resolve_left fun heq => hne heq.symm

theorem OpenAt.of_define (hplace : t.slots[place.slot]? = some (.kind .pending))
    (h : (Table.define place target t).2.OpenAt O a) : t.OpenAt (place.slot :: O) a := by
  have hstep : ∀ b c, t.Leads b c → (Table.define place target t).2.Leads b c := by
    rintro b c ⟨slot, hslot, hmem⟩
    have hne : place.slot ≠ b.slot := by
      intro heq
      rw [← heq, hplace] at hslot
      cases hslot
      cases hmem
    exact ⟨slot, (define_slot_ne hne).trans hslot, hmem⟩
  refine ⟨by rw [← define_size place target t]; exact h.1, fun b hb hslot => ?_⟩
  by_cases hne : place.slot = b.slot
  · rw [hne]
    exact List.mem_cons_self
  · refine List.mem_cons_of_mem _ (h.2 b (ReflTransGen.mono hstep _ _ hb) ?_)
    rw [define_slot_ne hne]
    exact hslot

end

end Table

end SchemaSplice.Types
