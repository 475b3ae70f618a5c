import SchemaSplice.Proofs.Reading.Inquiry
import SchemaSplice.Types.Display
/-!
# What stays in a table

Resolution fills places that were reserved and adds others; it never changes what stands in a place. So a type that leads
to no reserved place is shown in the same way from then on.
-/

namespace SchemaSplice.Types

/-- What stands in a place stays there, unless the place is only reserved. -/
def Table.Persists (t t' : Table) : Prop :=
  ∀ (i : Nat) (slot : Slot), t.slots[i]? = some slot → slot ≠ .kind .pending → t'.slots[i]? = some slot

def Table.Shows (t : Table) (id : TypeId) (text : String) : Prop :=
  ∀ t', t.Persists t' → t'.display id = text

theorem Table.kind_of_slot {t : Table} {id : TypeId} {k : TypeKind}
    (h : t.slots[id.slot]? = some (.kind k)) : t.kind id = k := by
  obtain ⟨hlt, -⟩ := Array.getElem?_eq_some_iff.mp h
  have hsize : t.size = (t.size - 1) + 1 := by
    have : id.slot < t.size := hlt
    omega
  rw [Table.kind, hsize, Table.follow, h]

theorem Table.kind_of_forward {t : Table} {id target : TypeId} {k : TypeKind}
    (h : t.slots[id.slot]? = some (.forward target)) (htarget : t.slots[target.slot]? = some (.kind k)) :
    t.kind id = k := by
  obtain ⟨hlt, -⟩ := Array.getElem?_eq_some_iff.mp h
  obtain ⟨hlt', -⟩ := Array.getElem?_eq_some_iff.mp htarget
  have hne : id.slot ≠ target.slot := by
    intro heq
    rw [heq, htarget] at h
    cases h
  have hsize : t.size = (t.size - 2) + 1 + 1 := by
    have : id.slot < t.size := hlt
    have : target.slot < t.size := hlt'
    omega
  rw [Table.kind, hsize, Table.follow, h]
  simp only
  rw [Table.follow, htarget]

theorem Table.kind_of_size_le {t : Table} {id : TypeId} (h : t.size ≤ id.slot) : t.kind id = .never := by
  unfold Table.kind
  cases t.size with
  | zero => rfl
  | succ n =>
    have hnone : t.slots[id.slot]? = none := Array.getElem?_eq_none h
    rw [Table.follow, hnone]

theorem Table.Persists.refl (t : Table) : t.Persists t := fun _ _ h _ => h

theorem Table.Persists.trans {t t' t'' : Table} (h : t.Persists t') (h' : t'.Persists t'') :
    t.Persists t'' :=
  fun i slot hslot hne => h' i slot (h i slot hslot hne) hne

theorem Table.Persists.push {t t' : Table} (h : t.Persists t') (k : TypeKind) :
    t.Persists (Table.insert k t').2 := by
  intro i slot hslot hne
  have hi := h i slot hslot hne
  obtain ⟨hlt, hget⟩ := Array.getElem?_eq_some_iff.mp hi
  rw [← hget]
  exact Array.getElem?_push_lt hlt

theorem Table.Persists.define {t t' : Table} (h : t.Persists t') (place : TypeId)
    (hplace : t'.slots[place.slot]? = some (.kind .pending)) (target : TypeId) :
    t.Persists (Table.define place target t').2 := by
  intro i slot hslot hne
  have hi := h i slot hslot hne
  have hdiff : place.slot ≠ i := by
    rintro rfl
    exact hne (Option.some.inj (hi.symm.trans hplace))
  rw [← hi]
  exact Array.getElem?_setIfInBounds_ne hdiff

theorem Table.Shows.display {t : Table} {id : TypeId} {text : String} (h : t.Shows id text) :
    t.display id = text :=
  h t (.refl t)

theorem Table.Shows.mono {t t' : Table} {id : TypeId} {text : String} (h : t.Shows id text)
    (ht : t.Persists t') : t'.Shows id text :=
  fun t'' ht' => h t'' (ht.trans ht')

/-- A reserved place that comes to stand for a type is shown as that type. -/
theorem Table.Shows.define {t : Table} {target : TypeId} {k : TypeKind} {text : String}
    (h : t.Shows target text) (place : TypeId) (hplace : t.slots[place.slot]? = some (.kind .pending))
    (htarget : t.slots[target.slot]? = some (.kind k)) (hk : k ≠ .pending) :
    (Table.define place target t).2.Shows place text := by
  intro t' ht'
  have hpersists : t.Persists t' := ((Table.Persists.refl t).define place hplace target).trans ht'
  have hslot : (Table.define place target t).2.slots[place.slot]? = some (.forward target) := by
    obtain ⟨hlt, -⟩ := Array.getElem?_eq_some_iff.mp hplace
    exact Array.getElem?_setIfInBounds_self_of_lt hlt
  have hforward := ht' _ _ hslot (fun h => nomatch h)
  have hkind := hpersists _ _ htarget (fun h => hk (Slot.kind.inj h))
  have hsame : t'.kind place = t'.kind target :=
    (Table.kind_of_forward hforward hkind).trans (Table.kind_of_slot hkind).symm
  rw [← h t' hpersists, Table.display, Table.display]
  unfold Table.displayLevels
  rw [hsame]

end SchemaSplice.Types

namespace SchemaSplice.Declaration

open Annotation Source SchemaSplice.Types

/-- The place of an instance is still reserved when its body has been read. -/
theorem reserved_of_steady {α ε : Type} {body : EStateM ε TypeState α} (hsteady : Steady body) (s : TypeState)
    (inst : Instance) :
    (stateAfter (body (s.reserve inst))).table.slots[s.table.size]? = some (.kind .pending) := by
  have hextends := hsteady (s.reserve inst) (s.reserve inst) (Extends.refl _)
  have hlt : s.table.size < (s.reserve inst).table.size := by
    show s.table.slots.size < (s.table.slots.push (.kind .pending)).size
    rw [Array.size_push]
    omega
  rw [hextends _ hlt]
  exact Array.getElem?_push_size

theorem persists_maintained (p : Project) (t₀ : Table) : Maintained p fun s => t₀.Persists s.table where
  insert _ k _ h := h.push k
  enumLiteral _ e m l _ h := h.push (.enumLiteral e m l)
  recordEnum _ _ _ h := h
  rememberEnum _ _ _ h := h
  defines := by
    intro current name args first rest resolver s _ _ hsteady hbody hs
    have hread := hbody (s.reserve (name, args)) (hs.push .pending)
    have hplace := reserved_of_steady hsteady s (name, args)
    rw [defineInstance_apply]
    split
    · next type t hres =>
      rw [hres] at hread hplace
      exact Table.Persists.define hread ⟨s.table.size⟩ hplace type
    · next e t hres =>
      rw [hres] at hread
      exact hread

end SchemaSplice.Declaration
