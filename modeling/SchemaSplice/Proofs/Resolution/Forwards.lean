import Mathlib.Order.Interval.Finset.Nat
import Mathlib.Order.Preorder.Finite
import SchemaSplice.Proofs.Resolution.Reaching
/-!
# Chains of forwards

Reading a place follows forwards for as many steps as the table has places. That is always enough: a chain that comes to a
kind has no place twice, so the kind is read however long the chain is, and a chain that is still under way after that many
steps has come back to a place. So the loop gives up on the cyclic chains and on no others. Defining a place changes what
is read on the chains that pass it, and on no others.
-/

namespace SchemaSplice.Types.Table

open Relation

variable {t : Table} {id a b place target : TypeId} {k : TypeKind} {n m : Nat}

/-! ### Chains that settle -/

/-- Following forwards from one place leads to another, or the two are the same. -/
abbrev Passes (t : Table) (a b : TypeId) : Prop := ReflTransGen t.Forwards a b

def Holds (t : Table) (id : TypeId) (k : TypeKind) : Prop := t.slots[id.slot]? = some (.kind k)

/-- Following forwards from a place leads to one that holds a kind. -/
def Settles (t : Table) (id : TypeId) (k : TypeKind) : Prop := ∃ b, t.Passes id b ∧ t.Holds b k

/-- Following forwards from a place leads into a circle. -/
def Cycles (t : Table) (id : TypeId) : Prop := ∃ b, t.Passes id b ∧ TransGen t.Forwards b b

def ForwardsInside (t : Table) : Prop := ∀ a b, t.Forwards a b → b.slot < t.size

theorem settles_iff : t.Settles id k ↔ ∃ n, t.Ends n id k :=
  ⟨fun ⟨_, hpass, hholds⟩ => Ends.of_forwards hpass hholds, fun ⟨_, h⟩ => h.forwards⟩

theorem Settles.kind (h : t.Settles id k) : t.kind id = k := by
  obtain ⟨n, hn⟩ := settles_iff.mp h
  exact hn.kind

/-- A place forwards to one place at most. -/
theorem Forwards.unique {c : TypeId} (h : t.Forwards a b) (h' : t.Forwards a c) : b = c := by
  cases h.symm.trans h'
  rfl

theorem Holds.not_forwards (h : t.Holds a k) : ¬t.Forwards a b := fun h' => nomatch h.symm.trans h'

/-- Of two places on one chain, the later one comes after the earlier one. -/
theorem Passes.linear {c : TypeId} (h : t.Passes a b) (h' : t.Passes a c) : t.Passes b c ∨ t.Passes c b :=
  ReflTransGen.total_of_right_unique (fun _ _ _ => Forwards.unique) h h'

/-- A circle has no way out. -/
theorem TransGen.of_passes (h : TransGen t.Forwards a a) (hpass : t.Passes a b) : TransGen t.Forwards b b := by
  induction hpass with
  | refl => exact h
  | tail _ hstep ih =>
    obtain ⟨c, hforward, hback⟩ := TransGen.head'_iff.mp ih
    obtain rfl := hstep.unique hforward
    exact TransGen.tail' hback hstep

theorem Cycles.not_settles (h : t.Cycles id) : ¬t.Settles id k := by
  rintro ⟨c, hpass, hholds⟩
  obtain ⟨b, hcycle, hback⟩ := h
  rcases Passes.linear hpass hcycle with hcb | hbc
  · rcases ReflTransGen.cases_head hcb with rfl | ⟨d, hforward, -⟩
    · obtain ⟨d, hforward, -⟩ := TransGen.head'_iff.mp hback
      exact hholds.not_forwards hforward
    · exact hholds.not_forwards hforward
  · obtain ⟨d, hforward, -⟩ := TransGen.head'_iff.mp (TransGen.of_passes hback hbc)
    exact hholds.not_forwards hforward

/-! ### Chains that do not settle -/

/-- The place that a place forwards to; the place itself if it does not forward. -/
def next (t : Table) (id : TypeId) : TypeId :=
  match t.slots[id.slot]? with
  | some (.forward target) => target
  | _ => id

theorem passes_iterate_next (t : Table) (id : TypeId) (i n : Nat) : t.Passes (t.next^[i] id) (t.next^[i + n] id) := by
  induction n with
  | zero => exact .refl
  | succ n ih =>
    rw [← Nat.add_assoc, Function.iterate_succ_apply']
    generalize t.next^[i + n] id = c at ih ⊢
    unfold next
    split
    · next hforward => exact ih.tail hforward
    · exact ih

/-- A chain that never settles goes on at each of its places. -/
theorem forwards_next (ht : t.ForwardsInside) (hid : id.slot < t.size) (hnot : ∀ k, ¬t.Settles id k)
    (hpass : t.Passes id a) : t.Forwards a (t.next a) := by
  have ha : a.slot < t.size := by
    rcases ReflTransGen.cases_tail hpass with rfl | ⟨c, -, hforward⟩
    · exact hid
    · exact ht c a hforward
  have hslot : t.slots[a.slot]? = some t.slots[a.slot] := Array.getElem?_eq_getElem ha
  unfold Forwards next
  generalize t.slots[a.slot] = slot at hslot
  rw [hslot]
  cases slot with
  | kind k => exact absurd ⟨a, hpass, hslot⟩ (hnot k)
  | forward b => rfl

/-- There are only so many places, so a chain that never settles comes back to one. -/
theorem settles_or_cycles (ht : t.ForwardsInside) (hid : id.slot < t.size) : (∃ k, t.Settles id k) ∨ t.Cycles id := by
  by_contra hneither
  obtain ⟨hnot, hcycles⟩ := not_or.mp hneither
  have hpasses : ∀ n, t.Passes id (t.next^[n] id) := fun n => by
    simpa using passes_iterate_next t id 0 n
  have hforward : ∀ n, t.Forwards (t.next^[n] id) (t.next^[n + 1] id) := fun n => by
    rw [Function.iterate_succ_apply']
    exact forwards_next ht hid (not_exists.mp hnot) (hpasses n)
  have hslots : ∀ n, (t.next^[n] id).slot ∈ Set.Iio t.size := fun n =>
    (Array.getElem?_eq_some_iff.mp (hforward n)).1
  obtain ⟨i, j, hij, hslot⟩ := Set.Finite.exists_lt_map_eq_of_forall_mem hslots (Set.finite_Iio t.size)
  have hsame : t.next^[i] id = t.next^[j] id := congrArg TypeId.mk hslot
  refine hcycles ⟨t.next^[i] id, hpasses i, ?_⟩
  have hback : t.Passes (t.next^[i + 1] id) (t.next^[i + 1 + (j - (i + 1))] id) := passes_iterate_next ..
  rw [Nat.add_sub_cancel' hij, ← hsame] at hback
  exact TransGen.head' (hforward i) hback

/-! ### The loop -/

/-- The kind that reading a place finds before it gives up. -/
def found? (t : Table) (id : TypeId) : Option TypeKind := t.followed? t.size id

theorem kind_eq_found? (t : Table) (id : TypeId) : t.kind id = (t.found? id).getD .never := follow_eq t t.size id

/-- The loop finds what the chain settles at. -/
theorem found?_eq_some_iff : t.found? id = some k ↔ t.Settles id k := by
  rw [settles_iff]
  exact ⟨exists_ends_of_followed?, fun ⟨_, h⟩ => h.followed? h.lt_size⟩

/-- The loop gives up on chains that are cyclic. -/
theorem found?_eq_none_iff (ht : t.ForwardsInside) (hid : id.slot < t.size) : t.found? id = none ↔ t.Cycles id := by
  rw [Option.eq_none_iff_forall_ne_some]
  constructor
  · intro hnone
    refine (settles_or_cycles ht hid).resolve_left ?_
    rintro ⟨k, hk⟩
    exact hnone k (found?_eq_some_iff.mpr hk)
  · intro hcycles k hk
    exact hcycles.not_settles (found?_eq_some_iff.mp hk)

/-! ### Defining a place -/

theorem ForwardsInside.define (ht : t.ForwardsInside) (htarget : target.slot < t.size) :
    (Table.define place target t).2.ForwardsInside := by
  intro a b hab
  rw [define_size]
  by_cases ha : place.slot = a.slot
  · obtain ⟨hlt, -⟩ := Array.getElem?_eq_some_iff.mp hab
    have hplace : place.slot < t.size := by
      rw [ha, ← define_size place target t]
      exact hlt
    have hself : (Table.define place target t).2.slots[place.slot]? = some (.forward target) := define_slot_self hplace
    rw [Forwards, ← ha, hself] at hab
    cases hab
    exact htarget
  · rw [Forwards, define_slot_ne ha] at hab
    exact ht a b hab

/-- Before a chain comes to the place, nothing has changed. -/
theorem slot_define_of_not_passes (h : ¬t.Passes id place) (hpass : t.Passes id a) :
    (Table.define place target t).2.slots[a.slot]? = t.slots[a.slot]? := by
  refine define_slot_ne fun heq => h ?_
  rwa [show place = a from congrArg TypeId.mk heq]

/-- Chains that do not pass the place find what they found before. -/
theorem followed?_define (h : ¬t.Passes id place) (steps : Nat) :
    (Table.define place target t).2.followed? steps id = t.followed? steps id := by
  induction steps generalizing id with
  | zero => rfl
  | succ steps ih =>
    rw [followed?, followed?, slot_define_of_not_passes h .refl]
    split
    · rfl
    · next b hforward => exact ih fun hb => h (hb.head hforward)
    · rfl

theorem found?_define (h : ¬t.Passes id place) : (Table.define place target t).2.found? id = t.found? id := by
  rw [found?, found?, define_size]
  exact followed?_define h t.size

/-- The way to the place is the same before and after. -/
theorem passes_define (h : t.Passes id place) : (Table.define place target t).2.Passes id place := by
  induction h using ReflTransGen.head_induction_on with
  | refl => exact .refl
  | @head a c hstep _ ih =>
    by_cases heq : place.slot = a.slot
    · rw [show place = a from congrArg TypeId.mk heq]
    · exact ih.head ((define_slot_ne heq).trans hstep)

theorem forwards_define (hplace : place.slot < t.size) : (Table.define place target t).2.Forwards place target :=
  define_slot_self hplace

/-- What is found does not change along a chain. -/
theorem found?_of_passes (h : t.Passes a b) : t.found? a = t.found? b := by
  apply Option.ext
  intro k
  rw [found?_eq_some_iff, found?_eq_some_iff]
  constructor
  · rintro ⟨c, hpass, hholds⟩
    rcases Passes.linear h hpass with hbc | hcb
    · exact ⟨c, hbc, hholds⟩
    · rcases ReflTransGen.cases_head hcb with rfl | ⟨d, hforward, -⟩
      · exact ⟨c, .refl, hholds⟩
      · exact absurd hforward hholds.not_forwards
  · rintro ⟨c, hpass, hholds⟩
    exact ⟨c, h.trans hpass, hholds⟩

/-! ### Exactness -/

/-- Reading a place finds what its chain of forwards settles at, and gives up if the chain is cyclic. -/
structure FollowsChain (t : Table) (id : TypeId) : Prop where
  settled : ∀ b k, t.Passes id b → t.Holds b k → t.found? id = some k ∧ t.kind id = k
  fallback : t.kind id = (t.found? id).getD .never
  cyclic : t.found? id = none ↔ t.Cycles id

/-- In the table `t'` a place of the table `t` was made to stand for a type: it is read as that type, unless the type
leads back to the place, and so is what passes the place; all else is read as before. -/
structure StandsFor (t t' : Table) (place target : TypeId) : Prop where
  inside : t'.ForwardsInside
  same : ¬t.Passes target place → t'.kind place = t.kind target ∧ t'.kind target = t.kind target
  back : t.Passes target place → t'.found? place = none ∧ t'.found? target = none
  through : ∀ id, t.Passes id place → t'.kind id = t'.kind place
  apart : ∀ id, ¬t.Passes id place → t'.kind id = t.kind id

theorem followsChain (ht : t.ForwardsInside) (hid : id.slot < t.size) : t.FollowsChain id where
  settled b _ hpass hholds := ⟨found?_eq_some_iff.mpr ⟨b, hpass, hholds⟩, Settles.kind ⟨b, hpass, hholds⟩⟩
  fallback := t.kind_eq_found? id
  cyclic := found?_eq_none_iff ht hid

theorem standsFor_define (ht : t.ForwardsInside) (hplace : place.slot < t.size) (htarget : target.slot < t.size) :
    t.StandsFor (Table.define place target t).2 place target := by
  have hinside : (Table.define place target t).2.ForwardsInside := ht.define htarget
  have hforward : (Table.define place target t).2.Forwards place target := forwards_define hplace
  have hapart : ∀ id, ¬t.Passes id place → (Table.define place target t).2.kind id = t.kind id := by
    intro id h
    rw [kind_eq_found?, kind_eq_found?, found?_define h]
  have hthrough : ∀ id, (Table.define place target t).2.Passes id place →
      (Table.define place target t).2.kind id = (Table.define place target t).2.kind place := by
    intro id h
    rw [kind_eq_found?, kind_eq_found?, found?_of_passes h]
  have hsame := found?_of_passes (.single hforward)
  refine ⟨hinside, fun h => ⟨?_, hapart target h⟩, fun h => ?_, fun id h => hthrough id (passes_define h), hapart⟩
  · rw [kind_eq_found?, hsame, ← kind_eq_found?, hapart target h]
  · have hcycle : (Table.define place target t).2.Cycles place :=
      ⟨place, .refl, TransGen.head' hforward (passes_define h)⟩
    have hnone := (found?_eq_none_iff hinside (by rwa [define_size])).mpr hcycle
    exact ⟨hnone, hsame ▸ hnone⟩

/-- Forwards are followed exactly: as far as they lead, and in vain only on a circle. So a place that is defined reads as
the type it was made to stand for, unless that type leads back to it, and nothing else changes but what passes the place. -/
theorem forwarding_exact (ht : t.ForwardsInside) :
    (∀ id, id.slot < t.size → t.FollowsChain id) ∧
      ∀ place target, place.slot < t.size → target.slot < t.size →
        t.StandsFor (Table.define place target t).2 place target :=
  ⟨fun _ => followsChain ht, fun _ _ => standsFor_define ht⟩

/-- A reserved place with a chain to it, a circle with a chain into it, and a chain to a text. -/
def chainsAndCircle : Table where
  slots := #[.kind .pending, .forward ⟨0⟩, .forward ⟨1⟩, .forward ⟨4⟩, .forward ⟨3⟩, .forward ⟨4⟩, .kind .string,
    .forward ⟨6⟩]

/-- The place is defined as the text, which what passes the place then reads, and as the end of the chain to itself. -/
theorem chainsAndCircle_exact :
    chainsAndCircle.ForwardsInside ∧ chainsAndCircle.kind ⟨7⟩ = .string ∧ chainsAndCircle.Cycles ⟨5⟩ ∧
      chainsAndCircle.StandsFor (Table.define ⟨0⟩ ⟨7⟩ chainsAndCircle).2 ⟨0⟩ ⟨7⟩ ∧
      (Table.define ⟨0⟩ ⟨7⟩ chainsAndCircle).2.kind ⟨2⟩ = .string ∧
      chainsAndCircle.StandsFor (Table.define ⟨0⟩ ⟨2⟩ chainsAndCircle).2 ⟨0⟩ ⟨2⟩ ∧
      (Table.define ⟨0⟩ ⟨2⟩ chainsAndCircle).2.found? ⟨0⟩ = none := by
  have hinside : chainsAndCircle.ForwardsInside := by
    intro a b h
    have hmem := Array.mem_of_getElem? h
    simp only [chainsAndCircle, List.mem_toArray, List.mem_cons, Slot.forward.injEq, List.not_mem_nil, reduceCtorEq,
      false_or, or_false] at hmem
    show b.slot < 8
    rcases hmem with rfl | rfl | rfl | rfl | rfl | rfl
    all_goals decide
  obtain ⟨hfollow, hdefine⟩ := forwarding_exact hinside
  have htext := hdefine ⟨0⟩ ⟨7⟩ (by decide) (by decide)
  have hself := hdefine ⟨0⟩ ⟨2⟩ (by decide) (by decide)
  have hfirst : chainsAndCircle.Forwards ⟨2⟩ ⟨1⟩ := by rfl
  have hsecond : chainsAndCircle.Forwards ⟨1⟩ ⟨0⟩ := by rfl
  have hpass : chainsAndCircle.Passes ⟨2⟩ ⟨0⟩ := .head hfirst (.single hsecond)
  have hend : chainsAndCircle.Forwards ⟨7⟩ ⟨6⟩ := by rfl
  refine ⟨hinside, ?_, ?_, htext, ?_, hself, (hself.back hpass).1⟩
  · exact ((hfollow ⟨7⟩ (by decide)).settled ⟨6⟩ .string (.single hend) rfl).2
  · exact (hfollow ⟨5⟩ (by decide)).cyclic.mp (by decide)
  · rw [htext.through ⟨2⟩ hpass]
    decide

end SchemaSplice.Types.Table
