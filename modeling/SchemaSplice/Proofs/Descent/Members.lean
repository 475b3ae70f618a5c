import Mathlib.Data.List.Forall2
import SchemaSplice.Proofs.Descent.Limits
/-!
# The members of an intersection

The validator of an intersection of objects nests one validator for each member to the right, in their order. Each of them
lists the properties of its member, whatever the member is like. Alone, a member goes through the tests of `objectLayer`
first, so it keeps the validator that it has alone exactly if it is a plain object: a date, a set, a map or a record loses it.
-/

namespace SchemaSplice

open SchemaSplice.Types

/-- Validators of the members of an intersection, nested to the right. -/
def Validator.nested : List Validator → Validator
  | [] => .primitive "never"
  | [only] => only
  | first :: second :: rest => .call "intersection" [.validator first, .validator (nested (second :: rest))]

theorem Validator.nested_injective {vs ws : List Validator} (hlength : vs.length = ws.length)
    (h : nested vs = nested ws) : vs = ws := by
  induction vs generalizing ws with
  | nil => exact (List.length_eq_zero_iff.mp hlength.symm).symm
  | cons v vs ih =>
    match ws, hlength with
    | w :: ws, hlength =>
      have hrest : vs.length = ws.length := Nat.succ.inj hlength
      match vs, ws, hrest with
      | [], [], _ => exact congrArg (fun v => [v]) h
      | v' :: vs, w' :: ws, hrest =>
        simp only [nested, Validator.call.injEq, true_and, List.cons.injEq, Argument.validator.injEq, and_true] at h
        rw [h.1, ih hrest h.2]

def IsValidatorOf (t : Table) (id : TypeId) (v : Validator) : Prop := ∃ limit, synthesize t limit 0 id = .ok v

def ListsProperties (t : Table) (id : TypeId) (v : Validator) : Prop :=
  ∃ entries, v = .call "object" [.fields entries] ∧
    List.Forall₂ (fun p e => p.1 = e.1 ∧ IsValidatorOf t p.2 e.2) (Synthesis.validatedProperties t id) entries

def IsPlainObject (t : Table) (id : TypeId) : Prop := ∃ o, IsObject t id o ∧ o.shape = .plain

variable {t : Table} {limit depth : Nat} {id : TypeId} {v w : Validator}

theorem IsValidatorOf.of_synthesize (h : synthesize t limit depth id = .ok v) : IsValidatorOf t id v :=
  ⟨limit, (synthesize_upTo (by omega) id).eq_of_ok h⟩

theorem IsValidatorOf.unique (h : IsValidatorOf t id v) (h' : IsValidatorOf t id w) : v = w := by
  obtain ⟨_, h⟩ := h
  obtain ⟨_, h'⟩ := h'
  exact synthesize_unique h h'

namespace Synthesis

/-- What `synthesize` gives `layer` for the parts of a type that lies at a depth. -/
abbrev below (t : Table) (limit depth : Nat) : Parts := fun k part => synthesize t limit (depth + 1 + k) part

theorem listsProperties_of_object {k : Nat} (h : object t (below t limit depth) k id = .ok v) : ListsProperties t id v := by
  obtain ⟨entries, hentries, h⟩ := exists_of_bind_eq_ok h
  cases h
  refine ⟨entries, rfl, (forall₂_of_mapM_eq_ok hentries).imp fun p e he => ?_⟩
  obtain ⟨w, hw, he⟩ := exists_of_bind_eq_ok he
  cases he
  exact ⟨rfl, .of_synthesize hw⟩

theorem layer_of_isObject {part : Parts} {o : ObjectType} (ho : IsObject t id o) :
    layer t part id = objectLayer t part id := by
  have hfun : t.isFunction id = false := by
    rw [← Bool.not_eq_true, isFunction_iff]
    rintro ⟨o', ho', hcalls⟩
    rw [ho.1] at ho'
    cases ho'
    exact hcalls ho.2
  unfold layer
  simp only [hfun, Bool.false_eq_true, if_false, ho.1]

/-- The validator of an object only lists its properties if the object is a plain one. -/
theorem plain_of_objectLayer {part : Parts} {o : ObjectType} (ho : IsObject t id o)
    {entries : List (String × Validator)} (h : objectLayer t part id = .ok (.call "object" [.fields entries])) :
    o.shape = .plain := by
  rw [objectLayer_eq ho.1] at h
  cases hs : o.shape with
  | plain => rfl
  | date => simp [hs, Validator.primitive] at h
  | set =>
    rw [hs] at h
    obtain ⟨element, -, h⟩ := exists_of_bind_eq_ok h
    simp [pure, Except.pure] at h
  | map | record =>
    rw [hs] at h
    obtain ⟨key, -, h⟩ := exists_of_bind_eq_ok h
    obtain ⟨value, -, h⟩ := exists_of_bind_eq_ok h
    simp [pure, Except.pure] at h

/-- The validator that lists the properties of an object is the one it has alone if it is a plain object, and only then. -/
theorem isValidatorOf_iff_plain {o : ObjectType} {k : Nat} (ho : IsObject t id o)
    (h : object t (below t limit depth) k id = .ok v) : IsValidatorOf t id v ↔ IsPlainObject t id := by
  constructor
  · rintro ⟨limit', h'⟩
    obtain ⟨entries, rfl, -⟩ := listsProperties_of_object h
    obtain ⟨-, hlayer⟩ := layer_of_synthesize h'
    rw [layer_of_isObject ho] at hlayer
    exact ⟨o, ho, plain_of_objectLayer ho hlayer⟩
  · rintro ⟨o', ho', hs⟩
    -- Alone the object lies at the root, so its properties have at least as many levels left.
    have hroot : UpTo (· = .depth limit) (object t (below t limit depth) k id)
        (object t (fun _ => synthesize t limit 1) k id) := by
      refine object_upTo fun p _ => synthesize_upTo ?_ p.2
      omega
    refine ⟨limit, ?_⟩
    rw [synthesize, dif_neg (Nat.not_lt_zero limit), layer_of_isObject ho', objectLayer_eq ho'.1, hs]
    exact hroot.eq_of_ok h

theorem exists_of_chain_eq_ok {ms : List TypeId} (hne : ms ≠ []) {k : Nat}
    (h : chain t (below t limit depth) k ms = .ok v) :
    ∃ vs, v = .nested vs ∧ List.Forall₂ (fun m w => ∃ j, object t (below t limit depth) j m = .ok w) ms vs := by
  induction ms generalizing k v with
  | nil => exact absurd rfl hne
  | cons first others ih =>
    cases others with
    | nil => exact ⟨[v], rfl, .cons ⟨k, h⟩ .nil⟩
    | cons second others =>
      obtain ⟨left, hleft, h⟩ := exists_of_bind_eq_ok h
      obtain ⟨right, hright, h⟩ := exists_of_bind_eq_ok h
      cases h
      obtain ⟨vs, rfl, hvs⟩ := ih (List.cons_ne_nil _ _) hright
      obtain ⟨w, vs', -, -, rfl⟩ := List.forall₂_cons_left_iff.mp hvs
      exact ⟨left :: w :: vs', rfl, .cons ⟨k, hleft⟩ hvs⟩

end Synthesis

theorem forall₂_iff_forall_mem {α β : Type} {R : α → β → Prop} {P : α → Prop} {as : List α} {bs : List β}
    (h : List.Forall₂ (fun a b => R a b ↔ P a) as bs) : List.Forall₂ R as bs ↔ ∀ a ∈ as, P a := by
  induction h with
  | nil => simp
  | cons hab _ ih => rw [List.forall₂_cons, List.forall_mem_cons, hab, ih]

/-- Each member of an intersection of objects is validated by its properties, in order; that is the chain of the validators
that the members have alone exactly if all of them are plain objects. -/
theorem members_alone_iff_plain {ms : List TypeId} (hms : ObjectIntersection t id ms)
    (h : synthesize t limit depth id = .ok v) :
    (∃ vs, v = .nested vs ∧
      List.Forall₂ (fun m w => ListsProperties t m w ∧ (IsValidatorOf t m w ↔ IsPlainObject t m)) ms vs) ∧
    ((∃ vs, v = .nested vs ∧ List.Forall₂ (IsValidatorOf t) ms vs) ↔ ∀ m ∈ ms, IsPlainObject t m) := by
  obtain ⟨-, hlayer⟩ := layer_of_synthesize h
  rw [Synthesis.layer_of_objectIntersection hms] at hlayer
  obtain ⟨vs, rfl, hvs⟩ := Synthesis.exists_of_chain_eq_ok hms.ne_nil hlayer
  have hmembers : List.Forall₂ (fun m w => ListsProperties t m w ∧ (IsValidatorOf t m w ↔ IsPlainObject t m)) ms vs := by
    refine ((List.forall₂_and_left ms vs).mpr ⟨hms.2.2, hvs⟩).imp ?_
    rintro m w ⟨⟨o, ho⟩, j, hw⟩
    exact ⟨Synthesis.listsProperties_of_object hw, Synthesis.isValidatorOf_iff_plain ho hw⟩
  have hplain := forall₂_iff_forall_mem (hmembers.imp fun m w hw => hw.2)
  refine ⟨⟨vs, rfl, hmembers⟩, ?_⟩
  rw [← hplain]
  constructor
  · rintro ⟨ws, hnested, hws⟩
    have hlength : vs.length = ws.length := hvs.length_eq.symm.trans hws.length_eq
    rwa [Validator.nested_injective hlength hnested]
  · intro halone
    exact ⟨vs, rfl, halone⟩

theorem statusAndName_alone :
    ObjectIntersection statusAndName ⟨7⟩ [⟨5⟩, ⟨6⟩] ∧
      ∃ v, synthesize statusAndName 50 0 ⟨7⟩ = .ok v ∧
        ∃ vs, v = .nested vs ∧ List.Forall₂ (IsValidatorOf statusAndName) [⟨5⟩, ⟨6⟩] vs := by
  have hstatus : IsObject statusAndName ⟨5⟩ { properties := [⟨.name "status", ⟨4⟩, false⟩] } := ⟨by rfl, rfl⟩
  have hname : IsObject statusAndName ⟨6⟩ { properties := [⟨.name "name", ⟨0⟩, false⟩] } := ⟨by rfl, rfl⟩
  have hms : ObjectIntersection statusAndName ⟨7⟩ [⟨5⟩, ⟨6⟩] := by
    refine ⟨by rfl, by decide, ?_⟩
    simp only [List.mem_cons, List.not_mem_nil, or_false, forall_eq_or_imp, forall_eq]
    exact ⟨⟨_, hstatus⟩, ⟨_, hname⟩⟩
  obtain ⟨v, hv⟩ : ∃ v, synthesize statusAndName 50 0 ⟨7⟩ = .ok v := by
    have hfound : (synthesize statusAndName 50 0 ⟨7⟩).toOption.isSome = true := by decide +kernel
    cases hv : synthesize statusAndName 50 0 ⟨7⟩ with
    | ok v => exact ⟨v, rfl⟩
    | error e =>
      rw [hv] at hfound
      cases hfound
  refine ⟨hms, v, hv, (members_alone_iff_plain hms hv).2.mpr ?_⟩
  simp only [List.mem_cons, List.not_mem_nil, or_false, forall_eq_or_imp, forall_eq]
  exact ⟨⟨_, hstatus, by decide⟩, ⟨_, hname, by decide⟩⟩

/-- Beside an object, the validator of a record lists its properties, of which it has none, and is not the one it has alone. -/
theorem recordAndObject_not_alone :
    ObjectIntersection recordAndObject ⟨4⟩ [⟨2⟩, ⟨3⟩] ∧
      ∃ v, synthesize recordAndObject 50 0 ⟨4⟩ = .ok v ∧
        ¬∃ vs, v = .nested vs ∧ List.Forall₂ (IsValidatorOf recordAndObject) [⟨2⟩, ⟨3⟩] vs := by
  have hms : ObjectIntersection recordAndObject ⟨4⟩ [⟨2⟩, ⟨3⟩] := by
    refine ⟨by rfl, by decide, ?_⟩
    simp only [List.mem_cons, List.not_mem_nil, or_false, forall_eq_or_imp, forall_eq]
    exact ⟨⟨Builtin.recordObject ⟨0⟩ ⟨1⟩, by rfl, rfl⟩, ⟨_, show recordAndObject.kind ⟨3⟩ = .object _ by rfl, rfl⟩⟩
  have hv : synthesize recordAndObject 50 0 ⟨4⟩ =
      .ok (.nested [.call "object" [.fields []], .call "object" [.fields [("a", .primitive "string")]]]) := by cbv
  have halone : IsValidatorOf recordAndObject ⟨2⟩
      (.call "record" [.validator (.primitive "string"), .validator (.primitive "number")]) := ⟨50, by cbv⟩
  refine ⟨hms, _, hv, ?_⟩
  rintro ⟨vs, hnested, hvs⟩
  obtain rfl := Validator.nested_injective hvs.length_eq hnested
  obtain ⟨hrecord, -⟩ := List.forall₂_cons.mp hvs
  have hsame := hrecord.unique halone
  simp at hsame

end SchemaSplice
