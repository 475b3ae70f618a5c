import SchemaSplice.Proofs.Meaning.Faithful
import SchemaSplice.Validator.Printer
/-!
# The calls of synthesized validators

Synthesis calls few names, each with arguments of its own kind: a primitive takes none, a union a list of two or more
validators, an object one field list. `CallTree` is the grammar of the validators that result, and every layer keeps
to it when the validators of its parts do. Two things hold only because of what comes before the call: an enumeration has
nothing but strings, since all of its options are string literals, and a union has two options at least, since
fewer are left to the other cases.

What holds of the keys of a field list is a parameter. Keys are distinct in a table whose objects have distinct keys;
other properties of a validator do not depend on its keys.
-/

namespace SchemaSplice

open SchemaSplice.Types

/-! ### The grammar of calls -/

def bareNames : List String :=
  ["string", "number", "boolean", "bigint", "null", "undefined", "any", "unknown", "void", "never", "date"]

/-- A validator each of whose calls has the arguments that its name takes. The literals and enum names are those of a
table, and the keys of every field list satisfy `Keys`. -/
inductive CallTree (t : Table) (Keys : List String → Prop) : Validator → Prop where
  | bare {name : String} : name ∈ bareNames → CallTree t Keys (.call name [])
  | literal {id : TypeId} {l : Literal} : t.literal? id = some l →
      CallTree t Keys (.call "literal" [.ofLiteral l])
  | strings {texts : List String} : 2 ≤ texts.length → (∀ s ∈ texts, ∃ id, t.literal? id = some (.text s)) →
      CallTree t Keys (.call "enum" [.list (texts.map .text)])
  | wholeEnum {id : TypeId} {e m : String} {l : Literal} : t.kind id = .enumLiteral e m l →
      (t.enumCount? e).isSome → CallTree t Keys (.call "nativeEnum" [.name e])
  | union {options : List Validator} : 2 ≤ options.length → (∀ v ∈ options, CallTree t Keys v) →
      CallTree t Keys (.call "union" [.list (options.map .validator)])
  | tuple {items : List Validator} : (∀ v ∈ items, CallTree t Keys v) →
      CallTree t Keys (.call "tuple" [.list (items.map .validator)])
  | openTuple {items : List Validator} {rest : Validator} : (∀ v ∈ items, CallTree t Keys v) → CallTree t Keys rest →
      CallTree t Keys (.method (.call "tuple" [.list (items.map .validator)]) "rest" [.validator rest])
  | one {name : String} {v : Validator} : name ∈ ["array", "set"] → CallTree t Keys v →
      CallTree t Keys (.call name [.validator v])
  | two {name : String} {v w : Validator} : name ∈ ["map", "record", "intersection"] → CallTree t Keys v →
      CallTree t Keys w → CallTree t Keys (.call name [.validator v, .validator w])
  | object {entries : List (String × Validator)} : Keys (entries.map (·.1)) → (∀ e ∈ entries, CallTree t Keys e.2) →
      CallTree t Keys (.call "object" [.fields entries])
  | modified {name : String} {v : Validator} : name ∈ ["nullable", "optional", "nullish"] → CallTree t Keys v →
      CallTree t Keys (.method v name [])

def DistinctKeys (t : Table) : Prop :=
  ∀ id o, t.kind id = .object o → (o.properties.map (·.key)).Nodup

namespace Synthesis

variable {t : Table} {Keys : List String → Prop} {part : Parts} {v : Validator}

/-! ### Keys -/

/-- Of distinct keys, those that are validated are distinct. -/
theorem nodup_validatedProperties (h : DistinctKeys t) (id : TypeId) :
    ((validatedProperties t id).map (·.1)).Nodup := by
  unfold validatedProperties
  cases ho : t.object? id with
  | none => exact List.nodup_nil
  | some o =>
    have hkeys := h id o (object?_eq_some_iff.mp ho)
    rw [List.nodup_iff_pairwise_ne, List.pairwise_map] at hkeys ⊢
    rw [Option.map_some, Option.getD_some, List.pairwise_filterMap]
    refine hkeys.imp fun {p q} hne x hx y hy hxy => hne ?_
    -- A property that is validated is keyed by a name, so equal names mean equal keys.
    cases hp : p.key with
    | symbol a =>
      rw [hp] at hx
      cases hx
    | name a =>
      cases hq : q.key with
      | symbol b =>
        rw [hq] at hy
        cases hy
      | name b =>
        rw [hp] at hx
        rw [hq] at hy
        obtain ⟨-, hx⟩ := Option.ite_none_left_eq_some.mp hx
        obtain ⟨-, hy⟩ := Option.ite_none_left_eq_some.mp hy
        cases hx
        cases hy
        exact congrArg PropertyKey.name hxy

/-- An object has an entry for each property that is validated, under its key. -/
theorem keys_of_mapM {k : Nat} {properties : List (String × TypeId)} {entries : List (String × Validator)}
    (h : properties.mapM (fun (key, type) => return (key, ← part k type)) = .ok entries) :
    entries.map (·.1) = properties.map (·.1) ∧ ∀ e ∈ entries, ∃ id, part k id = .ok e.2 := by
  have hparts := forall₂_of_mapM_eq_ok h
  clear h
  induction hparts with
  | nil => simp
  | cons hz _ ih =>
    obtain ⟨v, hv, h⟩ := exists_of_bind_eq_ok hz
    cases h
    simp only [List.map_cons, List.forall_mem_cons, ih.1, true_and]
    exact ⟨⟨_, hv⟩, ih.2⟩

/-! ### Layers -/

/-- The validators of parts are made of calls. -/
def PartsCall (t : Table) (Keys : List String → Prop) (part : Parts) : Prop :=
  ∀ k id v, part k id = .ok v → CallTree t Keys v

theorem PartsCall.mapM (hpart : PartsCall t Keys part) {k : Nat} {ids : List TypeId} {vs : List Validator}
    (h : ids.mapM (part k) = .ok vs) : vs.length = ids.length ∧ ∀ v ∈ vs, CallTree t Keys v := by
  have hparts := forall₂_of_mapM_eq_ok h
  refine ⟨hparts.length_eq.symm, ?_⟩
  clear h
  induction hparts with
  | nil => simp
  | cons hz _ ih => exact List.forall_mem_cons.mpr ⟨hpart _ _ _ hz, ih⟩

theorem PartsCall.orUnknown (hpart : PartsCall t Keys part) {o : Option TypeId}
    (h : orUnknown part o = .ok v) : CallTree t Keys v := by
  cases o with
  | none =>
    cases h
    exact .bare (by simp [bareNames])
  | some id => exact hpart 0 id v h

theorem callTree_withAbsent (hasNull hasUndefined : Bool) (hv : CallTree t Keys v) :
    CallTree t Keys (withAbsent hasNull hasUndefined v) := by
  cases hasNull <;> cases hasUndefined
  · exact hv
  · exact .modified (by simp) hv
  · exact .modified (by simp) hv
  · exact .modified (by simp) hv

/-- The literals of string literals are strings, one for each. -/
theorem exists_texts {options : List TypeId} (h : ∀ m ∈ options, t.isTextLiteral m = true) :
    ∃ texts : List String, texts.length = options.length ∧ (∀ s ∈ texts, ∃ id, t.literal? id = some (.text s)) ∧
      (options.filterMap t.literal?).map Argument.ofLiteral = texts.map .text := by
  induction options with
  | nil => exact ⟨[], rfl, by simp, rfl⟩
  | cons m rest ih =>
    obtain ⟨hm, hrest⟩ := List.forall_mem_cons.mp h
    obtain ⟨texts, hlength, htexts, hmap⟩ := ih hrest
    unfold Table.isTextLiteral at hm
    split at hm
    · next s hs =>
      refine ⟨s :: texts, by simp [hlength], List.forall_mem_cons.mpr ⟨⟨m, hs⟩, htexts⟩, ?_⟩
      rw [List.filterMap_cons, hs, List.map_cons, List.map_cons, hmap]
      rfl
    · cases hm

theorem callTree_manyOptions (hpart : PartsCall t Keys part) {options : List TypeId}
    (hlength : 2 ≤ options.length) (h : manyOptions t part options = .ok v) : CallTree t Keys v := by
  unfold manyOptions at h
  split at h
  · next e he =>
    cases h
    obtain ⟨hmembers, hcount⟩ := wholeEnum?_eq_some he
    obtain ⟨m, hm⟩ := List.exists_mem_of_length_pos (Nat.lt_of_lt_of_le Nat.two_pos hlength)
    obtain ⟨name, l, hk⟩ := hmembers m hm
    exact .wholeEnum hk (by rw [hcount, Option.isSome_some])
  · split at h
    · next hall =>
      cases h
      obtain ⟨texts, htextsLength, htexts, hmap⟩ := exists_texts (List.all_eq_true.mp hall)
      rw [hmap]
      exact .strings (htextsLength ▸ hlength) htexts
    · obtain ⟨vs, hvs, h⟩ := exists_of_bind_eq_ok h
      cases h
      obtain ⟨hvsLength, hcalls⟩ := hpart.mapM hvs
      exact .union (hvsLength ▸ hlength) hcalls

theorem callTree_union (hpart : PartsCall t Keys part) {members : List TypeId}
    (h : union t part members = .ok v) : CallTree t Keys v := by
  unfold union at h
  split at h
  · cases h
    exact .modified (by simp) (.bare (by simp [bareNames]))
  · next only _ =>
    obtain ⟨v', hv', h⟩ := exists_of_bind_eq_ok h
    cases h
    exact callTree_withAbsent _ _ (hpart 0 only v' hv')
  · next hnil hone =>
    obtain ⟨v', hv', h⟩ := exists_of_bind_eq_ok h
    cases h
    have hlength : 2 ≤ (unionOptions t members).length := by
      match hoptions : unionOptions t members with
      | [] => exact absurd hoptions hnil
      | [only] => exact absurd hoptions (hone only)
      | _ :: _ :: rest => simp
    exact callTree_withAbsent _ _ (callTree_manyOptions hpart hlength hv')

section

variable (hkeys : ∀ id, Keys ((validatedProperties t id).map (·.1))) (hpart : PartsCall t Keys part)

include hkeys hpart

theorem callTree_object {k : Nat} {id : TypeId} (h : object t part k id = .ok v) : CallTree t Keys v := by
  unfold object at h
  obtain ⟨entries, hentries, hcall⟩ := exists_of_bind_eq_ok h
  cases hcall
  obtain ⟨hentryKeys, hparts⟩ := keys_of_mapM hentries
  refine .object (hentryKeys ▸ hkeys id) fun e he => ?_
  obtain ⟨part', hpart'⟩ := hparts e he
  exact hpart k part' e.2 hpart'

theorem callTree_chain {members : List TypeId} {k : Nat} (h : chain t part k members = .ok v) :
    CallTree t Keys v := by
  fun_induction chain t part k members generalizing v with
  | case1 =>
    cases h
    exact .bare (by simp [bareNames])
  | case2 => exact callTree_object hkeys hpart h
  | case3 k first second rest ih =>
    obtain ⟨left, hleft, h⟩ := exists_of_bind_eq_ok h
    obtain ⟨right, hright, h⟩ := exists_of_bind_eq_ok h
    cases h
    exact .two (by simp) (callTree_object hkeys hpart hleft) (ih hright)

theorem callTree_objectLayer {id : TypeId} (h : objectLayer t part id = .ok v) : CallTree t Keys v := by
  unfold objectLayer at h
  split at h
  · cases h
    exact .bare (by simp [bareNames])
  split at h
  · obtain ⟨element, helement, h⟩ := exists_of_bind_eq_ok h
    cases h
    exact .one (by simp) (hpart.orUnknown helement)
  split at h
  · obtain ⟨key, hkey, h⟩ := exists_of_bind_eq_ok h
    obtain ⟨value, hvalue, h⟩ := exists_of_bind_eq_ok h
    cases h
    exact .two (by simp) (hpart.orUnknown hkey) (hpart.orUnknown hvalue)
  split at h
  · obtain ⟨key, hkey, h⟩ := exists_of_bind_eq_ok h
    obtain ⟨value, hvalue, h⟩ := exists_of_bind_eq_ok h
    cases h
    exact .two (by simp) (hpart.orUnknown hkey) (hpart.orUnknown hvalue)
  · exact callTree_object hkeys hpart h

end

theorem callTree_tuple (hpart : PartsCall t Keys part) {shape : Table.TupleShape}
    (h : tuple part shape = .ok v) : CallTree t Keys v := by
  unfold tuple at h
  obtain ⟨vs, hvs, h⟩ := exists_of_bind_eq_ok h
  have hitems := (hpart.mapM hvs).2
  split at h
  · next rest _ =>
    obtain ⟨v', hv', h⟩ := exists_of_bind_eq_ok h
    cases h
    exact .openTuple hitems (hpart 0 rest v' hv')
  · cases h
    exact .tuple hitems

/-- A layer keeps to the grammar of calls when its parts do. -/
theorem callTree_layer (hkeys : ∀ id, Keys ((validatedProperties t id).map (·.1)))
    (hpart : PartsCall t Keys part) {id : TypeId} (h : layer t part id = .ok v) : CallTree t Keys v := by
  have hfun : t.isFunction id = false := by
    by_contra hf
    rw [Bool.not_eq_false] at hf
    simp only [layer, hf, if_true] at h
    cases h
  unfold layer at h
  simp only [hfun, Bool.false_eq_true, if_false] at h
  cases hk : t.kind id with
  | union ms =>
    rw [hk] at h
    exact callTree_union hpart h
  | literal l =>
    rw [hk] at h
    cases h
    have hl : t.literal? id = some l := by rw [Table.literal?, hk]; rfl
    exact .literal hl
  | enumLiteral e m l =>
    rw [hk] at h
    cases h
    have hl : t.literal? id = some l := by rw [Table.literal?, hk]; rfl
    exact .literal hl
  | array e =>
    rw [hk] at h
    obtain ⟨v', hv', h⟩ := exists_of_bind_eq_ok h
    cases h
    exact .one (by simp) (hpart.orUnknown hv')
  | tuple es =>
    rw [hk] at h
    obtain ⟨shape, hshape, h⟩ := exists_of_bind_eq_ok h
    exact callTree_tuple hpart h
  | object o =>
    rw [hk] at h
    exact callTree_objectLayer hkeys hpart h
  | intersection ms =>
    rw [hk] at h
    obtain ⟨shape, hshape, h⟩ := exists_of_bind_eq_ok h
    cases shape with
    | chain ms' => exact callTree_chain hkeys hpart h
    | single m => exact hpart 0 m v h
  | _ =>
    rw [hk] at h
    cases h
    exact .bare (by simp [bareNames])

end Synthesis

/-! ### Whole validators -/

/-- What holds of the keys of all objects of a table holds of all field lists of a validator. -/
theorem callTree_synthesize {t : Table} {Keys : List String → Prop}
    (hkeys : ∀ id, Keys ((Synthesis.validatedProperties t id).map (·.1))) {limit depth : Nat} {id : TypeId}
    {v : Validator} (h : synthesize t limit depth id = .ok v) : CallTree t Keys v := by
  induction hn : limit + 1 - depth using Nat.strongRecOn generalizing depth id v with
  | ind n ih =>
    obtain ⟨hle, hlayer⟩ := layer_of_synthesize h
    refine Synthesis.callTree_layer hkeys ?_ hlayer
    intro k part w hw
    exact ih (limit + 1 - (depth + 1 + k)) (by omega) hw rfl

/-- Every validator of a type is a tree of calls with the arguments that their names take, and no object is given a key
twice. -/
theorem callTree_of_distinctKeys {t : Table} (ht : DistinctKeys t) {limit depth : Nat} {id : TypeId}
    {v : Validator} (h : synthesize t limit depth id = .ok v) : CallTree t List.Nodup v :=
  callTree_synthesize (Synthesis.nodup_validatedProperties ht) h

/-- `{ level: "low" | "high" | null; sizes: [number | string, ...bigint[]] }` in place 8. -/
def levelAndSizes : Table :=
  tableOfKinds
    [.null, .literal (.text "low"), .literal (.text "high"), .union [⟨1⟩, ⟨2⟩, ⟨0⟩], .number, .string,
      .union [⟨4⟩, ⟨5⟩], .bigInt, .object { properties := [⟨.name "level", ⟨3⟩, false⟩, ⟨.name "sizes", ⟨9⟩, false⟩] },
      .tuple [⟨⟨6⟩, .required⟩, ⟨⟨7⟩, .rest⟩]] []

theorem levelAndSizes_distinctKeys : DistinctKeys levelAndSizes := by
  intro id
  unfold levelAndSizes
  apply forall_kind_tableOfKinds (P := fun k => ∀ o, k = .object o → (o.properties.map (fun p => p.key)).Nodup)
  · simp
  · simp

/-- Without `null`, the levels are an enumeration; the sizes are an open tuple that starts with a union. -/
theorem levelAndSizes_callTree :
    DistinctKeys levelAndSizes ∧
      ∃ v, synthesize levelAndSizes 30 0 ⟨8⟩ = .ok v ∧
        v.print = "z.object(\x7b level: z.enum([\"low\", \"high\"]).nullable(), " ++
          "sizes: z.tuple([z.union([z.number(), z.string()])]).rest(z.bigint()) \x7d)" ∧
        CallTree levelAndSizes List.Nodup v := by
  have h : synthesize levelAndSizes 30 0 ⟨8⟩ = .ok
      (.call "object" [.fields
        [("level", .method (.call "enum" [.list [.text "low", .text "high"]]) "nullable" []),
          ("sizes", .method (.call "tuple" [.list [.validator (.call "union" [.list [.validator (.call "number" []),
            .validator (.call "string" [])]])]]) "rest" [.validator (.call "bigint" [])])]]) := by
    cbv
  exact ⟨levelAndSizes_distinctKeys, _, h, by decide +kernel,
    callTree_of_distinctKeys levelAndSizes_distinctKeys h⟩

end SchemaSplice
