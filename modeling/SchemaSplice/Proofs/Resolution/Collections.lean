import SchemaSplice.Proofs.Descent.Members
import SchemaSplice.Proofs.Resolution.Provenance
/-!
# Validators of interfaces that extend a collection

An interface that extends a built-in set or map has its members and is taken for one by them. The types of its elements are
taken from its own type arguments though, not from those of its base, so they are right exactly if both are validated alike.
-/

namespace SchemaSplice

open SchemaSplice.Types

namespace Types

theorem ObjectType.offers_iff {o : ObjectType} {names : List String} :
    o.Offers names ↔ ∀ n ∈ names, PropertyKey.name n ∈ o.keys := by
  unfold ObjectType.Offers ObjectType.keys
  simp only [List.mem_map]

namespace Collection

variable {c : Collection} {o own : ObjectType}

def shape : Collection → ObjectShape
  | set => .set
  | map => .map

/-- What an object is taken for that has the keys of a collection and some of its own: nothing that has elements if it has
the members of a date, and a set if it has what a map lacks to be one. -/
def seenAs (c : Collection) (own : ObjectType) : Option Collection :=
  if own.Offers ["toUTCString", "toISOString", "getDate", "getTime"] then none
  else if own.Offers ["add"] then some set
  else some c

/-- Only the names that a collection lacks have to be own members. -/
theorem offers_iff_of_keys (hkeys : ∀ key, key ∈ o.keys ↔ key ∈ own.keys ∨ key ∈ c.keys) (names : List String) :
    o.Offers names ↔ own.Offers (names.filter fun n => .name n ∉ c.keys) := by
  simp only [ObjectType.offers_iff, hkeys, List.mem_filter, decide_eq_true_eq, and_imp]
  constructor
  · intro h n hn hnot
    exact (h n hn).resolve_right hnot
  · intro h n hn
    exact or_iff_not_imp_right.mpr (h n hn)

theorem shape_eq_of_keys (hkeys : ∀ key, key ∈ o.keys ↔ key ∈ own.keys ∨ key ∈ c.keys) :
    o.shape = ((c.seenAs own).map shape).getD .date := by
  have hoffers := offers_iff_of_keys hkeys
  have hdate : o.Offers ["toUTCString", "toISOString", "getDate", "getTime"] ↔
      own.Offers ["toUTCString", "toISOString", "getDate", "getTime"] := by
    cases c <;> exact hoffers _
  cases c with
  | set =>
    have hset : o.Offers ["add", "has", "forEach", "delete"] := (hoffers _).mpr fun _ h => nomatch h
    unfold ObjectType.shape seenAs
    simp only [hdate, hset, if_true]
    split
    · rfl
    · split <;> rfl
  | map =>
    have hset : o.Offers ["add", "has", "forEach", "delete"] ↔ own.Offers ["add"] := hoffers _
    have hmap : o.Offers ["set", "get", "has", "forEach", "delete"] := (hoffers _).mpr fun _ h => nomatch h
    unfold ObjectType.shape seenAs
    simp only [hdate, hset, hmap, if_true]
    split
    · rfl
    · split <;> rfl

end Collection

end Types

namespace Synthesis

variable {t : Table} {part : Parts} {id : TypeId} {o : ObjectType} {c c' : Collection} {args args' : List TypeId}
  {v : Validator}

/-- The validator of a collection, by those of its elements. -/
def collection (part : Parts) : Collection → List TypeId → Except SynthesisError Validator
  | .set, args => do
    let element ← orUnknown part args[0]?
    return .call "set" [.validator element]
  | .map, args => do
    let key ← orUnknown part args[0]?
    let value ← orUnknown part args[1]?
    return .call "map" [.validator key, .validator value]

theorem objectLayer_of_collection (ho : t.kind id = .object o) (hshape : o.shape = c.shape) :
    objectLayer t part id = collection part c o.typeArgs := by
  rw [objectLayer_eq ho, hshape]
  cases c <;> rfl

theorem collection_set_eq_ok : collection part .set args = .ok v ↔
    ∃ element, orUnknown part args[0]? = .ok element ∧ v = .call "set" [.validator element] := by
  constructor
  · intro h
    obtain ⟨element, helement, h⟩ := exists_of_bind_eq_ok h
    exact ⟨element, helement, (Except.ok.inj h).symm⟩
  · intro h
    obtain ⟨element, helement, rfl⟩ := h
    rw [collection, helement]
    rfl

theorem collection_map_eq_ok : collection part .map args = .ok v ↔
    ∃ key value, orUnknown part args[0]? = .ok key ∧ orUnknown part args[1]? = .ok value ∧
      v = .call "map" [.validator key, .validator value] := by
  constructor
  · intro h
    obtain ⟨key, hkey, h⟩ := exists_of_bind_eq_ok h
    obtain ⟨value, hvalue, h⟩ := exists_of_bind_eq_ok h
    exact ⟨key, value, hkey, hvalue, (Except.ok.inj h).symm⟩
  · intro h
    obtain ⟨key, value, hkey, hvalue, rfl⟩ := h
    rw [collection, hkey, hvalue]
    rfl

/-- Collections have the same validator exactly if they are the same and their elements have. -/
theorem collection_eq_ok_iff (h : collection part c args = .ok v) :
    collection part c' args' = .ok v ↔
      c' = c ∧ ∀ i < c.arity, orUnknown part args'[i]? = orUnknown part args[i]? := by
  cases c with
  | set =>
    obtain ⟨element, helement, rfl⟩ := collection_set_eq_ok.mp h
    cases c' with
    | set =>
      have hone : (∀ i < Collection.set.arity, orUnknown part args'[i]? = orUnknown part args[i]?) ↔
          orUnknown part args'[0]? = .ok element := by
        rw [← helement]
        exact ⟨fun h => h 0 Nat.one_pos, fun h i hi => Nat.lt_one_iff.mp hi ▸ h⟩
      rw [hone, collection_set_eq_ok]
      simp
    | map => simp [collection_map_eq_ok]
  | map =>
    obtain ⟨key, value, hkey, hvalue, rfl⟩ := collection_map_eq_ok.mp h
    cases c' with
    | set => simp [collection_set_eq_ok]
    | map =>
      have htwo : (∀ i < Collection.map.arity, orUnknown part args'[i]? = orUnknown part args[i]?) ↔
          orUnknown part args'[0]? = .ok key ∧ orUnknown part args'[1]? = .ok value := by
        rw [← hkey, ← hvalue]
        constructor
        · intro h
          exact ⟨h 0 Nat.two_pos, h 1 Nat.one_lt_two⟩
        · intro h i hi
          have hi : i < 2 := hi
          rcases Nat.lt_succ_iff_lt_or_eq.mp hi with hi | hi
          · exact Nat.lt_one_iff.mp hi ▸ h.1
          · exact hi ▸ h.2
      rw [htwo, collection_map_eq_ok]
      simp

/-- An object that is seen as a collection or a date has the validator of a collection of the same kind whose elements are
validated like those of its own type arguments, and of no other. -/
theorem layer_of_seen {seen : Option Collection} (ho : IsObject t id o)
    (hshape : o.shape = (seen.map Collection.shape).getD .date) (h : layer t part id = .ok v) :
    (seen = none → v = .primitive "date") ∧
      (∀ c, seen = some c → collection part c o.typeArgs = .ok v) ∧
      ∀ c args, collection part c args = .ok v ↔
        seen = some c ∧ ∀ i < c.arity, orUnknown part args[i]? = orUnknown part o.typeArgs[i]? := by
  rw [layer_of_isObject ho] at h
  cases seen with
  | none =>
    rw [objectLayer_eq ho.1, hshape] at h
    cases h
    refine ⟨fun _ => rfl, ?_, ?_⟩
    · intro c hc
      cases hc
    · intro c args
      cases c with
      | set => simp [collection_set_eq_ok, Validator.primitive]
      | map => simp [collection_map_eq_ok, Validator.primitive]
  | some seen =>
    rw [objectLayer_of_collection ho.1 hshape] at h
    refine ⟨?_, ?_, ?_⟩
    · intro hnone
      cases hnone
    · intro c hc
      cases hc
      exact h
    · intro c args
      rw [collection_eq_ok_iff h, Option.some.injEq, eq_comm]
      refine and_congr_right ?_
      intro hsame
      subst hsame
      rfl

end Synthesis

namespace Declaration

open Annotation Source Synthesis

variable {p : Project} {inst : Instance} {c : Collection}

/-- Wherever a declared name is looked up, it stands for an interface that names a built-in collection as its base. -/
structure ExtendsCollection (p : Project) (name : String) (c : Collection) : Prop where
  builtin : ∀ d ∈ p.types, d.name ≠ c.typeName
  declared : ∃ d ∈ p.types, d.name = name
  extended : ∀ home first rest, p.typesNamed name home = first :: rest →
    first.form = .interface ∧ ∃ d ∈ first :: rest, d.form = .interface ∧ ExtendsByName c (p.file first.file) d.token

theorem exists_typesNamed {name : String} (hname : ∃ d ∈ p.types, d.name = name) (current : Nat) :
    ∃ first rest, p.typesNamed name current = first :: rest := by
  obtain ⟨d, hd, heq⟩ := hname
  have hmem : d ∈ p.types.filter (·.name == name) := List.mem_filter.mpr ⟨hd, beq_iff_eq.mpr heq⟩
  apply List.exists_cons_of_ne_nil
  simp only [Project.typesNamed, visible]
  cases hnamed : p.types.filter (·.name == name) with
  | nil =>
    rw [hnamed] at hmem
    cases hmem
  | cons first rest =>
    -- Declarations of the file itself come first, else those of the file of the first declaration.
    by_cases hany : (first :: rest).any (·.file == current) = true
    · obtain ⟨e, he, hfile⟩ := List.any_eq_true.mp hany
      simp only [hany, if_true]
      exact List.ne_nil_of_mem (List.mem_filter.mpr ⟨he, hfile⟩)
    · simp only [hany]
      exact List.ne_nil_of_mem (List.mem_filter.mpr ⟨List.mem_cons_self, beq_self_eq_true _⟩)

/-- Bases add properties only. -/
theorem withBases_eq (t : Table) (bases : List TypeId) (o : ObjectType) :
    ∃ merged, withBases t bases o = { o with properties := merged } := by
  unfold withBases
  induction bases generalizing o with
  | nil => exact ⟨o.properties, rfl⟩
  | cons base bases ih =>
    obtain ⟨properties, hinherit⟩ := inherit_eq o (((t.object? base).map (·.properties)).getD [])
    rw [List.foldl_cons, hinherit]
    exact ih _

namespace InterfaceRead

variable (r : InterfaceRead p inst)

theorem object_typeArgs : r.object.typeArgs = inst.2 := by
  obtain ⟨merged, hmerged⟩ := withBases_eq r.after.table r.bases r.own
  rw [object, hmerged]
  exact (interfaceParts_ok r.read).2

theorem object_calls : r.object.calls = r.own.calls := by
  obtain ⟨merged, hmerged⟩ := withBases_eq r.after.table r.bases r.own
  rw [object, hmerged]

theorem builtAs (hextends : ExtendsCollection p inst.1 c) {base : TypeId} (hbases : r.bases = [base]) :
    BuiltAs c r.after.table base := by
  obtain ⟨-, d, hd, hform, hname⟩ := hextends.extended _ _ _ r.named
  have hread := r.read
  rw [hbases] at hread
  have hmem : d ∈ (r.first :: r.rest).filter (·.form == .interface) := by
    rw [List.mem_filter, hform]
    exact ⟨hd, rfl⟩
  exact builtAs_of_interfaceParts hextends.builtin r.declared hmem hname hread

end InterfaceRead

/-- An interface whose only base is a built-in collection is validated as a date if its own members make it one, and else as a
collection whose elements are those of its own type arguments. That is the validator of its base exactly if it is seen as what
it extends and the arguments of both are validated alike, one by one. -/
theorem inherited_collection_validator (p : Project) (current : Nat) (s s' : Inquiry) (hs : Reached p current s)
    (name : String) (args : List TypeId) (c : Collection) (hextends : ExtendsCollection p name c) (id : TypeId)
    (hid : ask p current s (.named name args) = (some id, s')) :
    ∃ r : InterfaceRead p (name, args), r.StandsIn s'.table id ∧
      (s.remembered (.named name args) = none → r.IsMadeIn current s.types) ∧
      ∀ base b, r.bases = [base] → s'.table.object? base = some b → r.own.calls = [] →
        IsCollection c b ∧ ∀ limit depth v, synthesize s'.table limit depth id = .ok v →
          (c.seenAs r.own = none → v = .primitive "date") ∧
          (∀ seen, c.seenAs r.own = some seen → collection (below s'.table limit depth) seen args = .ok v) ∧
          (collection (below s'.table limit depth) c b.typeArgs = .ok v ↔
            c.seenAs r.own = some c ∧ ∀ i < c.arity,
              orUnknown (below s'.table limit depth) b.typeArgs[i]? = orUnknown (below s'.table limit depth) args[i]?) := by
  obtain ⟨first, rest, hnamed⟩ := exists_typesNamed hextends.declared current
  obtain ⟨r, hr, hmade⟩ := hs.interfaceRead_of_ask (fun _ _ _ h => (hextends.extended _ _ _ h).1) hnamed hid
  refine ⟨r, hr, hmade, ?_⟩
  intro base b hbases hb hcalls
  obtain ⟨hbuilt, hsame⟩ := (r.builtAs hextends hbases).persists hr.persists
  have hbase := hbuilt.isCollection hb
  refine ⟨hbase, ?_⟩
  intro limit depth v hv
  have hkeys : ∀ key, key ∈ r.object.keys ↔ key ∈ r.own.keys ∨ key ∈ c.keys := by
    intro key
    unfold InterfaceRead.object
    rw [mem_keys_withBases, hbases]
    simp [← hsame, hb, hbase.keys]
  have ho : IsObject s'.table id r.object := ⟨hr.kind, r.object_calls.trans hcalls⟩
  obtain ⟨hdate, hseen, hsame⟩ := layer_of_seen ho (Collection.shape_eq_of_keys hkeys) (layer_of_synthesize hv).2
  rw [r.object_typeArgs] at hseen hsame
  exact ⟨hdate, hseen, hsame c b.typeArgs⟩

/-- An interface that hands its parameter on to a set, and a type to use it with. -/
def bag : Project :=
  .ofFiles [.parse "a.ts" "type S = string; interface Bag<T> extends Set<T> \x7b a: T \x7d"]

theorem bag_types : bag.types = [⟨"S", 0, .typeAlias, 1⟩, ⟨"Bag", 0, .interface, 6⟩] := by decide +kernel

theorem bag_named : bag.typesNamed "Bag" 0 = [⟨"Bag", 0, .interface, 6⟩] := by decide +kernel

theorem bag_extends : ExtendsCollection bag "Bag" .set where
  builtin := by
    rw [bag_types]
    decide
  declared := ⟨⟨"Bag", 0, .interface, 6⟩, by rw [bag_types]; decide, rfl⟩
  extended := by
    intro home first rest hnamed
    obtain ⟨hmem, hname⟩ := mem_of_mem_visible (hnamed ▸ List.mem_cons_self : first ∈ bag.typesNamed "Bag" home)
    rw [bag_types] at hmem
    have hfirst : first = ⟨"Bag", 0, .interface, 6⟩ := by
      rcases List.mem_cons.mp hmem with rfl | hmem
      · exact absurd hname (by decide)
      · exact List.mem_singleton.mp hmem
    subst hfirst
    refine ⟨rfl, _, List.mem_cons_self, rfl, [⟨"T", none⟩], 10, ?_⟩
    decide +kernel

def found? {ε α : Type} : EStateM.Result ε TypeState α → Option α
  | .ok a _ => some a
  | .error _ _ => none

def bagKnown : Inquiry := (ask bag 0 {} (.named "S" [])).2

theorem bag_validator :
    ∃ (r : InterfaceRead bag ("Bag", [⟨0⟩])) (b : ObjectType) (v : Validator), r.bases = [⟨12⟩] ∧ r.own.calls = [] ∧
      (ask bag 0 bagKnown (.named "Bag" [⟨0⟩])).2.table.object? ⟨12⟩ = some b ∧ b.typeArgs = [⟨0⟩] ∧
      synthesize (ask bag 0 bagKnown (.named "Bag" [⟨0⟩])).2.table 50 0 ⟨2⟩ = .ok v ∧ v.print = "z.set(z.string())" ∧
      collection (below (ask bag 0 bagKnown (.named "Bag" [⟨0⟩])).2.table 50 0) .set b.typeArgs = .ok v := by
  have hs : Reached bag 0 bagKnown := .step (.named "S" []) .start fun _ h => nomatch h
  have hid : (ask bag 0 bagKnown (.named "Bag" [⟨0⟩])).1 = some ⟨2⟩ := by decide +kernel
  obtain ⟨r, -, hmade, hbag⟩ := inherited_collection_validator bag 0 bagKnown _ hs "Bag" [⟨0⟩] .set bag_extends ⟨2⟩
    (Prod.ext hid rfl)
  have hlisted := (hmade (by decide +kernel)).listed bag_named
  have hread : (found? (listed bag "Bag" [⟨"Bag", 0, .interface, 6⟩] 0 [⟨0⟩] bagKnown.types)).map
      (fun parts => (parts.2, parts.1.calls, Collection.set.seenAs parts.1)) = some ([⟨12⟩], [], some .set) := by
    decide +kernel
  rw [hlisted] at hread
  simp only [found?, Option.map_some, Option.some.injEq, Prod.mk.injEq] at hread
  obtain ⟨hbases, hcalls, hseen⟩ := hread
  have hbase : ((ask bag 0 bagKnown (.named "Bag" [⟨0⟩])).2.table.object? ⟨12⟩).map (·.typeArgs) = some [⟨0⟩] := by
    decide +kernel
  obtain ⟨b, hb, hargs⟩ := Option.map_eq_some_iff.mp hbase
  have hprint : (synthesize (ask bag 0 bagKnown (.named "Bag" [⟨0⟩])).2.table 50 0 ⟨2⟩).map Validator.print =
      .ok "z.set(z.string())" := by decide +kernel
  cases hv : synthesize (ask bag 0 bagKnown (.named "Bag" [⟨0⟩])).2.table 50 0 ⟨2⟩ with
  | error e =>
    rw [hv] at hprint
    cases hprint
  | ok v =>
    rw [hv] at hprint
    have hsame := ((hbag ⟨12⟩ b hbases hb hcalls).2 50 0 v hv).2.2.mpr ⟨hseen, fun i _ => by rw [hargs]⟩
    exact ⟨r, b, v, hbases, hcalls, hb, hargs, rfl, Except.ok.inj hprint, hsame⟩

/-- An interface that extends a set and has no parameters. -/
def tagged : Project := .ofFiles [.parse "a.ts" "interface Tags extends Set<string> \x7b\x7d"]

/-- An interface that hands its parameters on to a map the other way round, and the map that it extends then. -/
def flipped : Project :=
  .ofFiles
    [.parse "a.ts"
      "interface Flip<A, B> extends Map<B, A> \x7b\x7d type F = Flip<string, number>; type M = Map<number, string>;"]

/-- The elements of the set are unknown, and those of the map are not the ones of its base. -/
theorem elements_not_inherited :
    (validatorOfResult (ask tagged 0 {} (.named "Tags" [])).2.table 50 ⟨0⟩).map Validator.print =
        .ok "z.set(z.unknown())" ∧
      (validatorOfResult (ask flipped 0 {} (.named "F" [])).2.table 50 ⟨0⟩).map Validator.print =
        .ok "z.map(z.string(), z.number())" ∧
      (validatorOfResult (ask flipped 0 {} (.named "M" [])).2.table 50 ⟨0⟩).map Validator.print =
        .ok "z.map(z.number(), z.string())" := by
  decide +kernel

end Declaration

end SchemaSplice
