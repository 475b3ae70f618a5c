import SchemaSplice.Proofs.Meaning.Layers
/-!
# The parts that a layer visits

The validator of a type is built over those of the types that it visits. A layer reads no other part, so two runs that
agree on the visited parts, up to parts that the first one cuts off, agree on the layer up to being cut off; and a
layer is built only if every visited part is.
-/

namespace SchemaSplice

open SchemaSplice.Types

/-! ### Visited parts -/

def Types.IsField (t : Table) (o : ObjectType) (u : TypeId) : Prop :=
  ∃ p ∈ o.properties, ∃ key, p.key = .name key ∧ p.type = u ∧ ¬FunctionValued t u

/-- Two or more options of a union that are written as one validator: a whole enum, or strings only. -/
def Shortened (t : Table) (options : List TypeId) : Prop :=
  2 ≤ options.length ∧ ((∃ e, t.wholeEnum? options = some e) ∨ ∀ m ∈ options, t.isTextLiteral m = true)

/-- The types that the validator of a type is built over. -/
inductive Visits (t : Table) (id : TypeId) : TypeId → Prop
  | option {ms u} (h : t.kind id = .union ms) (hu : u ∈ Synthesis.unionOptions t ms)
      (hlist : ¬Shortened t (Synthesis.unionOptions t ms)) : Visits t id u
  | element {u} (h : t.kind id = .array (some u)) : Visits t id u
  | position {fixed rest u} (h : t.kind id = .tuple (tupleElements fixed rest)) (hu : u ∈ fixed) : Visits t id u
  | rest {fixed u} (h : t.kind id = .tuple (tupleElements fixed (some u))) : Visits t id u
  | setArg {o u} (h : IsObject t id o) (hs : o.shape = .set) (hu : o.typeArgs[0]? = some u) : Visits t id u
  | mapArg {o u} (h : IsObject t id o) (hs : o.shape = .map)
      (hu : o.typeArgs[0]? = some u ∨ o.typeArgs[1]? = some u) : Visits t id u
  | recordArg {o u} (h : IsObject t id o) (hs : o.shape = .record)
      (hu : o.aliasArgs[0]? = some u ∨ o.aliasArgs[1]? = some u) : Visits t id u
  | field {o u} (h : IsObject t id o) (hs : o.shape = .plain) (hu : IsField t o u) : Visits t id u
  | memberField {ms m o u} (h : ObjectIntersection t id ms) (hm : m ∈ ms) (ho : IsObject t m o)
      (hu : IsField t o u) : Visits t id u
  | base {u} (h : BrandOf t id u) (hne : u ≠ id) (hobjects : ¬∃ ms, ObjectIntersection t id ms) : Visits t id u

/-! ### Runs that are cut off -/

/-- The first result is an error that cuts off, or both are the same. -/
def UpTo (cut : SynthesisError → Prop) {α : Type} (x y : Except SynthesisError α) : Prop :=
  (∃ e, cut e ∧ x = .error e) ∨ x = y

namespace UpTo

variable {cut : SynthesisError → Prop} {α β : Type} {x y : Except SynthesisError α}

theorem refl (x : Except SynthesisError α) : UpTo cut x x := Or.inr rfl

theorem eq_of_ok {a : α} (h : UpTo cut x y) (hx : x = .ok a) : y = .ok a := by
  rcases h with ⟨e, -, h⟩ | rfl
  · rw [hx] at h
    cases h
  · exact hx

theorem bind {f g : α → Except SynthesisError β} (hx : UpTo cut x y) (hf : ∀ a, UpTo cut (f a) (g a)) :
    UpTo cut (x >>= f) (y >>= g) := by
  rcases hx with ⟨e, he, rfl⟩ | rfl
  · exact Or.inl ⟨e, he, rfl⟩
  · cases x with
    | error e => exact Or.inr rfl
    | ok a => exact hf a

theorem bind_self {f g : α → Except SynthesisError β} (hf : ∀ a, x = .ok a → UpTo cut (f a) (g a)) :
    UpTo cut (x >>= f) (x >>= g) := by
  cases x with
  | error e => exact Or.inr rfl
  | ok a => exact hf a rfl

theorem mapM {f g : α → Except SynthesisError β} {as : List α} (h : ∀ a ∈ as, UpTo cut (f a) (g a)) :
    UpTo cut (as.mapM f) (as.mapM g) := by
  induction as with
  | nil => exact refl _
  | cons a as ih =>
    rw [List.mapM_cons, List.mapM_cons]
    refine (h a List.mem_cons_self).bind fun b => ?_
    exact (ih fun a ha => h a (List.mem_cons_of_mem _ ha)).bind fun bs => refl _

end UpTo

namespace Synthesis

variable {t : Table} {cut : SynthesisError → Prop} {part part' : Parts} {id : TypeId} {z : Validator}

theorem visits_of_single {m : TypeId} (h : t.intersectionShape id = .ok (.single m)) : Visits t id m := by
  refine .base (brandOf_of_intersectionShape h) ?_ ?_
  · unfold Table.intersectionShape at h
    simp only at h
    split at h
    · cases h
    split at h
    · next hne =>
      cases h
      exact bne_iff_ne.mp hne
    · cases h
  · rintro ⟨ms, hms⟩
    rw [intersectionShape_of_objectIntersection hms] at h
    cases h

/-! ### Layers that are cut off -/

theorem orUnknown_upTo {o : Option TypeId} (h : ∀ u ∈ o, UpTo cut (part 0 u) (part' 0 u)) :
    UpTo cut (orUnknown part o) (orUnknown part' o) := by
  cases o with
  | none => exact .refl _
  | some u => exact h u rfl

theorem manyOptions_upTo {options : List TypeId}
    (h : ¬Shortened t options → ∀ u ∈ options, UpTo cut (part 0 u) (part' 0 u)) :
    UpTo cut (manyOptions t part options) (manyOptions t part' options) := by
  unfold manyOptions
  split
  · exact .refl _
  next hwhole =>
  split
  · exact .refl _
  next htext =>
  rw [List.all_eq_true] at htext
  have hlist : ¬Shortened t options := by
    rintro ⟨-, ⟨e, he⟩ | hall⟩
    · rw [hwhole] at he
      cases he
    · exact htext hall
  exact (UpTo.mapM (h hlist)).bind fun vs => .refl _

theorem union_upTo {ms : List TypeId}
    (h : ¬Shortened t (unionOptions t ms) → ∀ u ∈ unionOptions t ms, UpTo cut (part 0 u) (part' 0 u)) :
    UpTo cut (union t part ms) (union t part' ms) := by
  unfold union
  generalize unionOptions t ms = options at h
  cases options with
  | nil => exact .refl _
  | cons first others =>
    cases others with
    | nil =>
      have honly : ¬Shortened t [first] := fun hshort => absurd hshort.1 (by simp)
      exact (h honly first List.mem_cons_self).bind fun v => .refl _
    | cons second others => exact (manyOptions_upTo h).bind fun v => .refl _

theorem object_upTo {k : Nat} (h : ∀ p ∈ validatedProperties t id, UpTo cut (part k p.2) (part' k p.2)) :
    UpTo cut (object t part k id) (object t part' k id) := by
  unfold object
  refine UpTo.bind (.mapM fun p hp => ?_) fun entries => .refl _
  exact (h p hp).bind fun v => .refl _

theorem chain_upTo {ms : List TypeId} {k : Nat}
    (h : ∀ m ∈ ms, ∀ p ∈ validatedProperties t m, ∀ k, UpTo cut (part k p.2) (part' k p.2)) :
    UpTo cut (chain t part k ms) (chain t part' k ms) := by
  induction ms generalizing k with
  | nil => exact .refl _
  | cons first others ih =>
    have hfirst : UpTo cut (object t part k first) (object t part' k first) :=
      object_upTo fun p hp => h first List.mem_cons_self p hp k
    cases others with
    | nil => exact hfirst
    | cons second others =>
      refine hfirst.bind fun left => ?_
      exact (ih fun m hm => h m (List.mem_cons_of_mem _ hm)).bind fun right => .refl _

theorem tuple_upTo {shape : Table.TupleShape} (hitems : ∀ u ∈ shape.items, UpTo cut (part 0 u) (part' 0 u))
    (hrest : ∀ u ∈ shape.rest, UpTo cut (part 0 u) (part' 0 u)) :
    UpTo cut (tuple part shape) (tuple part' shape) := by
  unfold tuple
  refine UpTo.bind (.mapM hitems) fun items => ?_
  cases hshape : shape.rest with
  | none => exact .refl _
  | some rest => exact (hrest rest hshape).bind fun v => .refl _

theorem isField_of_mem {o : ObjectType} (h : t.kind id = .object o) {p : String × TypeId}
    (hp : p ∈ validatedProperties t id) : IsField t o p.2 := by
  obtain ⟨q, hq, hkey, htype, hfun⟩ := (mem_validatedProperties h).mp hp
  exact ⟨q, hq, p.1, hkey, htype, hfun⟩

theorem exists_mem_of_isField {o : ObjectType} (h : t.kind id = .object o) {u : TypeId} (hu : IsField t o u) :
    ∃ key, (key, u) ∈ validatedProperties t id := by
  obtain ⟨q, hq, key, hkey, htype, hfun⟩ := hu
  exact ⟨key, (mem_validatedProperties h).mpr ⟨q, hq, hkey, htype, hfun⟩⟩

theorem objectLayer_eq {o : ObjectType} (ho : t.kind id = .object o) :
    objectLayer t part id = match o.shape with
      | .date => .ok (.primitive "date")
      | .set => do
        let element ← orUnknown part o.typeArgs[0]?
        return .call "set" [.validator element]
      | .map => do
        let key ← orUnknown part o.typeArgs[0]?
        let value ← orUnknown part o.typeArgs[1]?
        return .call "map" [.validator key, .validator value]
      | .record => do
        let key ← orUnknown part o.aliasArgs[0]?
        let value ← orUnknown part o.aliasArgs[1]?
        return .call "record" [.validator key, .validator value]
      | .plain => object t part 0 id := by
  have hargs : t.typeArgs id = o.typeArgs := by
    rw [Table.typeArgs, object?_eq_some_iff.mpr ho, Option.map_some, Option.getD_some]
  rw [shape_eq ho]
  unfold objectLayer
  rw [hargs]
  split
  · rfl
  split
  · rfl
  split
  · rfl
  cases hrec : t.recordArgs? id with
  | none => rfl
  | some args =>
    obtain ⟨hkey, hvalue⟩ := recordArgs?_eq_some ho hrec
    simp only [Option.isSome_some, if_true, ← hkey, ← hvalue]

theorem objectLayer_upTo {o : ObjectType} (ho : IsObject t id o)
    (h : ∀ k u, Visits t id u → UpTo cut (part k u) (part' k u)) :
    UpTo cut (objectLayer t part id) (objectLayer t part' id) := by
  rw [objectLayer_eq ho.1, objectLayer_eq ho.1]
  cases hs : o.shape with
  | date => exact .refl _
  | set => exact (orUnknown_upTo fun u hu => h 0 u (.setArg ho hs hu)).bind fun element => .refl _
  | map =>
    refine (orUnknown_upTo fun u hu => h 0 u (.mapArg ho hs (.inl hu))).bind fun key => ?_
    exact (orUnknown_upTo fun u hu => h 0 u (.mapArg ho hs (.inr hu))).bind fun value => .refl _
  | record =>
    refine (orUnknown_upTo fun u hu => h 0 u (.recordArg ho hs (.inl hu))).bind fun key => ?_
    exact (orUnknown_upTo fun u hu => h 0 u (.recordArg ho hs (.inr hu))).bind fun value => .refl _
  | plain => exact object_upTo fun p hp => h 0 p.2 (.field ho hs (isField_of_mem ho.1 hp))

/-- A layer reads the parts that it visits and no others. -/
theorem layer_upTo (h : ∀ k u, Visits t id u → UpTo cut (part k u) (part' k u)) :
    UpTo cut (layer t part id) (layer t part' id) := by
  by_cases hfun : t.isFunction id = true
  · simp only [layer, hfun, if_true]
    exact .refl _
  have hcalls := mt isFunction_iff.mpr hfun
  unfold layer
  simp only [if_neg hfun]
  cases hk : t.kind id with
  | union ms => exact union_upTo fun hlist u hu => h 0 u (.option hk hu hlist)
  | array e =>
    refine UpTo.bind (orUnknown_upTo fun u hu => h 0 u (.element ?_)) fun v => .refl _
    rw [hk, hu]
  | tuple es =>
    refine UpTo.bind_self fun shape hshape => ?_
    rw [tupleShape_eq_ok (ofShape_eq_ok hshape)] at hk
    refine tuple_upTo (fun u hu => h 0 u (.position hk hu)) fun u hu => ?_
    have hrest : t.kind id = .tuple (tupleElements shape.items (some u)) := by rw [hk, hu]
    exact h 0 u (.rest hrest)
  | object o =>
    have ho : o.calls = [] := Classical.byContradiction fun hne => hcalls ⟨o, hk, hne⟩
    exact objectLayer_upTo ⟨hk, ho⟩ h
  | intersection ms =>
    refine UpTo.bind_self fun shape hshape => ?_
    cases shape with
    | chain ms' =>
      have hobjects := objectIntersection_of_intersectionShape (ofShape_eq_ok hshape)
      refine chain_upTo fun m hm p hp k => ?_
      obtain ⟨o, ho⟩ := hobjects.2.2 m hm
      exact h k p.2 (.memberField hobjects hm ho (isField_of_mem ho.1 hp))
    | single m => exact h 0 m (visits_of_single (ofShape_eq_ok hshape))
  | _ => exact .refl _

/-! ### Layers that are built -/

theorem exists_of_orUnknown {o : Option TypeId} {u : TypeId} (hu : o = some u) (h : orUnknown part o = .ok z) :
    ∃ k w, part k u = .ok w := by
  subst hu
  exact ⟨0, z, h⟩

theorem exists_of_mapM {ε α β : Type} {f : α → Except ε β} {as : List α} {bs : List β} {a : α}
    (h : as.mapM f = .ok bs) (ha : a ∈ as) : ∃ b, f a = .ok b := by
  induction as generalizing bs with
  | nil => cases ha
  | cons first others ih =>
    rw [List.mapM_cons] at h
    obtain ⟨b, hb, h⟩ := exists_of_bind_eq_ok h
    obtain ⟨bs', hbs, -⟩ := exists_of_bind_eq_ok h
    rcases List.mem_cons.mp ha with rfl | ha
    · exact ⟨b, hb⟩
    · exact ih hbs ha

theorem exists_of_union {ms : List TypeId} {u : TypeId} (h : union t part ms = .ok z) (hu : u ∈ unionOptions t ms)
    (hlist : ¬Shortened t (unionOptions t ms)) : ∃ k w, part k u = .ok w := by
  unfold union at h
  generalize unionOptions t ms = options at h hu hlist
  match options with
  | [] => cases hu
  | [only] =>
    obtain ⟨w, hw, -⟩ := exists_of_bind_eq_ok h
    rw [List.mem_singleton.mp hu]
    exact ⟨0, w, hw⟩
  | first :: second :: others =>
    obtain ⟨many, hmany, -⟩ := exists_of_bind_eq_ok h
    unfold manyOptions at hmany
    split at hmany
    · next e he => exact absurd ⟨by simp, Or.inl ⟨e, he⟩⟩ hlist
    split at hmany
    · next htext => exact absurd ⟨by simp, Or.inr (List.all_eq_true.mp htext)⟩ hlist
    obtain ⟨vs, hvs, -⟩ := exists_of_bind_eq_ok hmany
    exact ⟨0, exists_of_mapM hvs hu⟩

theorem exists_of_object {k : Nat} {o : ObjectType} {u : TypeId} (ho : t.kind id = .object o)
    (h : object t part k id = .ok z) (hu : IsField t o u) : ∃ k w, part k u = .ok w := by
  obtain ⟨key, hmem⟩ := exists_mem_of_isField ho hu
  obtain ⟨entries, hentries, -⟩ := exists_of_bind_eq_ok h
  obtain ⟨entry, hentry⟩ := exists_of_mapM hentries hmem
  obtain ⟨w, hw, -⟩ := exists_of_bind_eq_ok hentry
  exact ⟨k, w, hw⟩

theorem exists_of_chain {ms : List TypeId} {k : Nat} {m : TypeId} {o : ObjectType} {u : TypeId}
    (h : chain t part k ms = .ok z) (hm : m ∈ ms) (ho : t.kind m = .object o) (hu : IsField t o u) :
    ∃ k w, part k u = .ok w := by
  induction ms generalizing k z with
  | nil => cases hm
  | cons first others ih =>
    cases others with
    | nil =>
      rw [List.mem_singleton.mp hm] at ho
      exact exists_of_object ho h hu
    | cons second others =>
      obtain ⟨left, hleft, h⟩ := exists_of_bind_eq_ok h
      obtain ⟨right, hright, -⟩ := exists_of_bind_eq_ok h
      rcases List.mem_cons.mp hm with rfl | hm
      · exact exists_of_object ho hleft hu
      · exact ih hright hm

theorem exists_of_tuple {shape : Table.TupleShape} {u : TypeId} (h : tuple part shape = .ok z)
    (hu : u ∈ shape.items ∨ shape.rest = some u) : ∃ k w, part k u = .ok w := by
  obtain ⟨items, hitems, h⟩ := exists_of_bind_eq_ok h
  rcases hu with hu | hu
  · exact ⟨0, exists_of_mapM hitems hu⟩
  · simp only [hu] at h
    obtain ⟨w, hw, -⟩ := exists_of_bind_eq_ok h
    exact ⟨0, w, hw⟩

theorem exists_of_two {a b : Option TypeId} {u : TypeId} {f : Validator → Validator → Validator}
    (h : (do let x ← orUnknown part a; let y ← orUnknown part b; return f x y) = .ok z)
    (hu : a = some u ∨ b = some u) : ∃ k w, part k u = .ok w := by
  obtain ⟨x, hx, h⟩ := exists_of_bind_eq_ok h
  obtain ⟨y, hy, -⟩ := exists_of_bind_eq_ok h
  rcases hu with hu | hu
  · exact exists_of_orUnknown hu hx
  · exact exists_of_orUnknown hu hy

/-- A layer is built only if the parts that it visits are. -/
theorem exists_of_visits {u : TypeId} (h : layer t part id = .ok z) (hu : Visits t id u) :
    ∃ k w, part k u = .ok w := by
  have hfun : ¬t.isFunction id = true := by
    intro hfun
    simp only [layer, hfun, if_true] at h
    cases h
  unfold layer at h
  simp only [if_neg hfun] at h
  cases hu with
  | option hk hu hlist =>
    rw [hk] at h
    exact exists_of_union h hu hlist
  | element hk =>
    rw [hk] at h
    obtain ⟨w, hw, -⟩ := exists_of_bind_eq_ok h
    exact exists_of_orUnknown rfl hw
  | position hk hu =>
    rw [hk] at h
    obtain ⟨shape, hshape, htuple⟩ := exists_of_bind_eq_ok h
    obtain ⟨rfl, -⟩ := tupleElements_inj (tupleShape_eq_ok (ofShape_eq_ok hshape))
    exact exists_of_tuple htuple (.inl hu)
  | rest hk =>
    rw [hk] at h
    obtain ⟨shape, hshape, htuple⟩ := exists_of_bind_eq_ok h
    obtain ⟨-, hrest⟩ := tupleElements_inj (tupleShape_eq_ok (ofShape_eq_ok hshape))
    exact exists_of_tuple htuple (.inr hrest.symm)
  | setArg ho hs hu =>
    simp only [ho.1, objectLayer_eq ho.1, hs] at h
    obtain ⟨w, hw, -⟩ := exists_of_bind_eq_ok h
    exact exists_of_orUnknown hu hw
  | mapArg ho hs hu =>
    simp only [ho.1, objectLayer_eq ho.1, hs] at h
    exact exists_of_two h hu
  | recordArg ho hs hu =>
    simp only [ho.1, objectLayer_eq ho.1, hs] at h
    exact exists_of_two h hu
  | field ho hs hu =>
    simp only [ho.1, objectLayer_eq ho.1, hs] at h
    exact exists_of_object ho.1 h hu
  | memberField hobjects hm ho hu =>
    simp only [hobjects.1, intersectionShape_of_objectIntersection hobjects] at h
    exact exists_of_chain (k := 0) h hm ho.1 hu
  | base hbrand hne hobjects =>
    have hkind := hbrand
    obtain ⟨a, b, hk, -⟩ := hkind
    simp only [hk] at h
    obtain ⟨shape, hshape, h⟩ := exists_of_bind_eq_ok h
    have hshape := ofShape_eq_ok hshape
    cases shape with
    | chain ms => exact absurd ⟨ms, objectIntersection_of_intersectionShape hshape⟩ hobjects
    | single m =>
      rw [hbrand.unique (brandOf_of_intersectionShape hshape)]
      exact ⟨0, z, h⟩

end Synthesis

end SchemaSplice
