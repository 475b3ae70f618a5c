import SchemaSplice.Proofs.Meaning.Shapes
/-!
# The validator of one layer

When the validators of the parts of a type accept the values of the parts, the validator built over them accepts the values
of the type. Each kind has its lemma; `layer_accepts` joins them. An intersection of objects is the one case
with a condition: its members are validated by their properties alone, so the intersection must be met by
meeting them.
-/

namespace SchemaSplice.Synthesis

open SchemaSplice.Types Validator

/-! ### Computations that succeed -/

theorem exists_of_bind_eq_ok {ε α β : Type} {x : Except ε α} {f : α → Except ε β} {b : β}
    (h : x >>= f = .ok b) : ∃ a, x = .ok a ∧ f a = .ok b := by
  cases x with
  | error e => cases h
  | ok a => exact ⟨a, rfl, h⟩

theorem forall₂_of_mapM_eq_ok {ε α β : Type} {f : α → Except ε β} {as : List α} {bs : List β}
    (h : as.mapM f = .ok bs) : List.Forall₂ (fun a b => f a = .ok b) as bs := by
  induction as generalizing bs with
  | nil =>
    cases h
    exact .nil
  | cons a as ih =>
    rw [List.mapM_cons] at h
    obtain ⟨b, hb, h⟩ := exists_of_bind_eq_ok h
    obtain ⟨bs', hbs, h⟩ := exists_of_bind_eq_ok h
    cases h
    exact .cons hb (ih hbs)

theorem ofShape_eq_ok {α : Type} {e : Except ShapeError α} {a : α} (h : ofShape e = .ok a) :
    e = .ok a := by
  cases e with
  | error e => cases h
  | ok b =>
    cases h
    rfl

theorem exists_mem_iff_of_forall₂ {α β : Type} {P : α → Prop} {Q : β → Prop} {as : List α}
    {bs : List β} (h : List.Forall₂ (fun a b => P a ↔ Q b) as bs) :
    (∃ a ∈ as, P a) ↔ ∃ b ∈ bs, Q b := by
  induction h with
  | nil => simp
  | cons hab _ ih => simp only [List.exists_mem_cons_iff, hab, ih]

theorem forall_mem_iff_of_forall₂ {α β : Type} {P : α → Prop} {Q : β → Prop} {as : List α}
    {bs : List β} (h : List.Forall₂ (fun a b => P a ↔ Q b) as bs) :
    (∀ a ∈ as, P a) ↔ ∀ b ∈ bs, Q b := by
  induction h with
  | nil => simp
  | cons hab _ ih => simp only [List.forall_mem_cons, hab, ih]

/-- Validators of parts accept the values of the parts. -/
def PartsMean (t : Table) (members : EnumMembers) (part : Parts) : Prop :=
  ∀ k id z, part k id = .ok z → ∀ v, z.Accepts members v ↔ Inhabits t id v

section

variable {t : Table} {members : EnumMembers} {part : Parts} {z : Validator}

theorem PartsMean.orUnknown (hpart : PartsMean t members part) {o : Option TypeId}
    (h : orUnknown part o = .ok z) (v : Value) :
    z.Accepts members v ↔ ∀ el ∈ o, Inhabits t el v := by
  cases o with
  | none =>
    cases h
    refine iff_of_true trivial ?_
    intro el hel
    cases hel
  | some id =>
    rw [hpart 0 id z h v]
    simp

/-! ### Unions -/

theorem withAbsent_accepts (hasNull hasUndefined : Bool) (v : Value) :
    (withAbsent hasNull hasUndefined z).Accepts members v ↔
      (hasNull = true ∧ v = .null) ∨ (hasUndefined = true ∧ v = .undefined) ∨ z.Accepts members v := by
  cases hasNull <;> cases hasUndefined
  · simp [withAbsent]
  · show (v = .undefined ∨ z.Accepts members v) ↔ _
    simp
  · show (v = .null ∨ z.Accepts members v) ↔ _
    simp
  · show (v = .null ∨ v = .undefined ∨ z.Accepts members v) ↔ _
    simp

/-- The members of a union are `null`, `undefined` and its options. -/
theorem exists_mem_iff_options (hE : Enumerates members t) (ms : List TypeId) (v : Value) :
    (∃ m ∈ ms, Inhabits t m v) ↔
      (ms.any (t.isKind · .null) = true ∧ v = .null) ∨
        (ms.any (t.isKind · .undefined) = true ∧ v = .undefined) ∨
          ∃ m ∈ unionOptions t ms, Inhabits t m v := by
  rw [exists_mem_unionOptions hE]
  simp only [List.any_eq_true, Table.isKind, beq_iff_eq]
  constructor
  · rintro ⟨m, hm, hv⟩
    by_cases hnull : t.kind m = .null
    · exact Or.inl ⟨⟨m, hm, hnull⟩, (inhabits_null hnull).mp hv⟩
    · by_cases hundef : t.kind m = .undefined
      · exact Or.inr (Or.inl ⟨⟨m, hm, hundef⟩, (inhabits_undefined hundef).mp hv⟩)
      · exact Or.inr (Or.inr ⟨m, hm, ⟨hnull, hundef⟩, hv⟩)
  · rintro (⟨⟨m, hm, hk⟩, rfl⟩ | ⟨⟨m, hm, hk⟩, rfl⟩ | ⟨m, hm, -, hv⟩)
    · exact ⟨m, hm, .null hk⟩
    · exact ⟨m, hm, .undefined hk⟩
    · exact ⟨m, hm, hv⟩

/-- A union of two or more different members without options is that of `null` and `undefined`. -/
theorem both_absent_of_unionOptions_eq_nil {ms : List TypeId} (hlength : 2 ≤ ms.length)
    (hdistinct : ms.Pairwise (t.same · · = false)) (h : unionOptions t ms = []) :
    ms.any (t.isKind · .null) = true ∧ ms.any (t.isKind · .undefined) = true := by
  have habsent : ∀ m ∈ ms, t.kind m = .null ∨ t.kind m = .undefined := by
    intro m hm
    by_contra hne
    rw [not_or] at hne
    exact unionOptions_ne_nil hm hne h
  match ms, hlength, hdistinct, habsent with
  | a :: b :: rest, _, hdistinct, habsent =>
    have hab := List.rel_of_pairwise_cons hdistinct List.mem_cons_self
    rcases habsent a List.mem_cons_self with ha | ha <;>
      rcases habsent b (List.mem_cons_of_mem a List.mem_cons_self) with hb | hb <;>
        simp_all [Table.isKind, Table.same, TypeKind.agrees]

theorem exists_mem_literals {options : List TypeId} (h : options.all t.isTextLiteral = true) (v : Value) :
    (∃ l ∈ options.filterMap t.literal?, l.Holds v) ↔ ∃ m ∈ options, Inhabits t m v := by
  constructor
  · rintro ⟨l, hl, hv⟩
    obtain ⟨m, hm, hml⟩ := List.mem_filterMap.mp hl
    exact ⟨m, hm, (inhabits_of_literal? hml v).mpr hv⟩
  · rintro ⟨m, hm, hv⟩
    have htext := List.all_eq_true.mp h m hm
    unfold Table.isTextLiteral at htext
    split at htext
    · next s hs =>
      exact ⟨_, List.mem_filterMap.mpr ⟨m, hm, hs⟩, (inhabits_of_literal? hs v).mp hv⟩
    · cases htext

theorem manyOptions_accepts (hE : Enumerates members t) (hpart : PartsMean t members part)
    {options : List TypeId} (hdistinct : options.Pairwise (t.same · · = false))
    (h : manyOptions t part options = .ok z) (v : Value) :
    z.Accepts members v ↔ ∃ m ∈ options, Inhabits t m v := by
  unfold manyOptions at h
  split at h
  · next e he =>
    cases h
    rw [← exists_mem_of_wholeEnum? hE hdistinct he v]
    rfl
  · split at h
    · next hall =>
      cases h
      rw [accepts_enum]
      exact exists_mem_literals hall v
    · obtain ⟨zs, hzs, h⟩ := exists_of_bind_eq_ok h
      cases h
      rw [accepts_union]
      have hparts := forall₂_of_mapM_eq_ok hzs
      exact (exists_mem_iff_of_forall₂ (hparts.imp fun m z hz => (hpart 0 m z hz v).symm)).symm

theorem union_accepts (hE : Enumerates members t) (hpart : PartsMean t members part)
    {ms : List TypeId} (hlength : 2 ≤ ms.length) (hdistinct : ms.Pairwise (t.same · · = false))
    (h : union t part ms = .ok z) (v : Value) :
    z.Accepts members v ↔ ∃ m ∈ ms, Inhabits t m v := by
  rw [exists_mem_iff_options hE]
  unfold union at h
  split at h
  · next hnil =>
    cases h
    obtain ⟨hnull, hundef⟩ := both_absent_of_unionOptions_eq_nil hlength hdistinct hnil
    rw [hnil, hnull, hundef]
    show (v = .null ∨ v = .undefined) ↔ _
    simp
  · next only honly =>
    obtain ⟨z', hz', h⟩ := exists_of_bind_eq_ok h
    cases h
    rw [honly, withAbsent_accepts, hpart 0 only z' hz' v]
    simp
  · obtain ⟨z', hz', h⟩ := exists_of_bind_eq_ok h
    cases h
    rw [withAbsent_accepts, manyOptions_accepts hE hpart (unionOptions_pairwise ms) hz' v]

/-! ### Objects -/

theorem mem_validatedProperties {id : TypeId} {o : ObjectType} (h : t.kind id = .object o)
    {key : String} {type : TypeId} :
    (key, type) ∈ validatedProperties t id ↔
      ∃ p ∈ o.properties, p.key = .name key ∧ p.type = type ∧ ¬FunctionValued t type := by
  unfold validatedProperties
  rw [object?_eq_some_iff.mpr h, Option.map_some, Option.getD_some, List.mem_filterMap]
  constructor
  · rintro ⟨p, hp, hsome⟩
    split at hsome
    · next key' hkey =>
      split at hsome
      · cases hsome
      · next hfun =>
        cases hsome
        rw [holdsFunction_iff] at hfun
        exact ⟨p, hp, hkey, rfl, hfun⟩
    · cases hsome
  · rintro ⟨p, hp, hkey, rfl, hfun⟩
    rw [← holdsFunction_iff] at hfun
    refine ⟨p, hp, ?_⟩
    rw [hkey]
    simp [hfun]

/-- An object is validated by its properties. -/
theorem object_accepts (hpart : PartsMean t members part) {k : Nat} {id : TypeId} {o : ObjectType}
    (ho : IsObject t id o) (h : object t part k id = .ok z) (v : Value) :
    z.Accepts members v ↔ MeetsProperties t id v := by
  unfold object at h
  obtain ⟨entries, hentries, h⟩ := exists_of_bind_eq_ok h
  cases h
  have hparts : List.Forall₂ (fun p e => p.1 = e.1 ∧ part k p.2 = .ok e.2)
      (validatedProperties t id) entries := by
    refine (forall₂_of_mapM_eq_ok hentries).imp ?_
    intro p e he
    obtain ⟨z, hz, he⟩ := exists_of_bind_eq_ok he
    cases he
    exact ⟨rfl, hz⟩
  rw [accepts_object]
  have hfields : ∀ fields, (∀ p ∈ validatedProperties t id, Inhabits t p.2 (fieldOf fields p.1)) ↔
      ∀ e ∈ entries, e.2.Accepts members (fieldOf fields e.1) := by
    intro fields
    apply forall_mem_iff_of_forall₂
    refine hparts.imp ?_
    rintro p e ⟨hkey, hpart'⟩
    rw [hkey, hpart k p.2 e.2 hpart']
  constructor
  · rintro ⟨fields, rfl, hall⟩
    refine ⟨o, fields, ho, rfl, ?_⟩
    intro p hp key hkey hfun
    exact (hfields fields).mpr hall (key, p.type)
      ((mem_validatedProperties ho.1).mpr ⟨p, hp, hkey, rfl, hfun⟩)
  · rintro ⟨o', fields, ho', rfl, hall⟩
    rw [← ho.unique ho'] at hall
    refine ⟨fields, rfl, (hfields fields).mp ?_⟩
    rintro ⟨key, type⟩ hmem
    obtain ⟨p, hp, hkey, rfl, hfun⟩ := (mem_validatedProperties ho.1).mp hmem
    exact hall p hp key hkey hfun

theorem chain_accepts (hpart : PartsMean t members part) {ms : List TypeId} (hne : ms ≠ [])
    (hms : ∀ m ∈ ms, ∃ o, IsObject t m o) {k : Nat} (h : chain t part k ms = .ok z) (v : Value) :
    z.Accepts members v ↔ ∀ m ∈ ms, MeetsProperties t m v := by
  induction ms generalizing k z with
  | nil => exact absurd rfl hne
  | cons first rest ih =>
    obtain ⟨o, ho⟩ := hms first List.mem_cons_self
    cases rest with
    | nil =>
      rw [chain] at h
      rw [object_accepts hpart ho h v]
      simp
    | cons second rest =>
      rw [chain] at h
      obtain ⟨left, hleft, h⟩ := exists_of_bind_eq_ok h
      obtain ⟨right, hright, h⟩ := exists_of_bind_eq_ok h
      cases h
      have hrest := ih (List.cons_ne_nil second rest) (fun m hm => hms m (List.mem_cons_of_mem first hm))
        hright
      show (left.Accepts members v ∧ right.Accepts members v) ↔ _
      rw [object_accepts hpart ho hleft v, hrest]
      exact (List.forall_mem_cons (p := fun m => MeetsProperties t m v)).symm

theorem objectLayer_accepts (hpart : PartsMean t members part) {id : TypeId} {o : ObjectType}
    (ho : IsObject t id o) (h : objectLayer t part id = .ok z) (v : Value) :
    z.Accepts members v ↔ Inhabits t id v := by
  have hshape := shape_eq ho.1
  have hargs : t.typeArgs id = o.typeArgs := by
    rw [Table.typeArgs, object?_eq_some_iff.mpr ho.1, Option.map_some, Option.getD_some]
  unfold objectLayer at h
  rw [hargs] at h
  split at h
  · next hdate =>
    cases h
    rw [if_pos hdate] at hshape
    rw [inhabits_date ho hshape]
    rfl
  next hdate =>
  rw [if_neg hdate] at hshape
  split at h
  · next hset =>
    obtain ⟨element, helement, h⟩ := exists_of_bind_eq_ok h
    cases h
    rw [if_pos hset] at hshape
    rw [inhabits_set ho hshape]
    show (∃ items, v = .set items ∧ ∀ x ∈ items, element.Accepts members x) ↔ _
    simp only [hpart.orUnknown helement]
  next hset =>
  rw [if_neg hset] at hshape
  split at h
  · next hmap =>
    obtain ⟨key, hkey, h⟩ := exists_of_bind_eq_ok h
    obtain ⟨value, hvalue, h⟩ := exists_of_bind_eq_ok h
    cases h
    rw [if_pos hmap] at hshape
    rw [inhabits_map ho hshape]
    show (∃ entries, v = .map entries ∧
      ∀ x ∈ entries, key.Accepts members x.1 ∧ value.Accepts members x.2) ↔ _
    simp only [hpart.orUnknown hkey, hpart.orUnknown hvalue]
  next hmap =>
  rw [if_neg hmap] at hshape
  split at h
  · next key? value? hrec =>
    obtain ⟨key, hkey, h⟩ := exists_of_bind_eq_ok h
    obtain ⟨value, hvalue, h⟩ := exists_of_bind_eq_ok h
    cases h
    rw [hrec, Option.isSome_some, if_pos rfl] at hshape
    obtain ⟨rfl, rfl⟩ := recordArgs?_eq_some ho.1 hrec
    rw [inhabits_record ho hshape]
    show (∃ fields, v = .object fields ∧
      ∀ x ∈ fields, key.Accepts members (.text x.1) ∧ value.Accepts members x.2) ↔ _
    simp only [hpart.orUnknown hkey, hpart.orUnknown hvalue]
  · next hrec =>
    rw [hrec, Option.isSome_none, if_neg Bool.false_ne_true] at hshape
    rw [inhabits_plain ho hshape]
    exact object_accepts hpart ho h v

/-! ### Tuples -/

theorem forall₂_accepts_iff {items : List TypeId} {zs : List Validator}
    (h : List.Forall₂ (fun m z => ∀ x, z.Accepts members x ↔ Inhabits t m x) items zs)
    (xs : List Value) :
    List.Forall₂ (fun z x => z.Accepts members x) zs xs ↔ List.Forall₂ (Inhabits t) items xs := by
  induction h generalizing xs with
  | nil => cases xs <;> simp
  | cons hmz _ ih => cases xs <;> simp [hmz, ih]

theorem tuple_accepts (hpart : PartsMean t members part) {id : TypeId} {shape : Table.TupleShape}
    (hk : t.kind id = .tuple (tupleElements shape.items shape.rest))
    (h : tuple part shape = .ok z) (v : Value) : z.Accepts members v ↔ Inhabits t id v := by
  unfold tuple at h
  obtain ⟨zs, hzs, h⟩ := exists_of_bind_eq_ok h
  have hitems := forall₂_accepts_iff
    ((forall₂_of_mapM_eq_ok hzs).imp fun m z hz => hpart 0 m z hz)
  rw [inhabits_tuple hk]
  split at h
  · next rest hrest =>
    obtain ⟨zr, hzr, h⟩ := exists_of_bind_eq_ok h
    cases h
    show (∃ front back, v = .array (front ++ back) ∧
      (call "tuple" [.list (zs.map .validator)]).Accepts members (.array front) ∧
        ∀ x ∈ back, zr.Accepts members x) ↔ _
    simp only [accepts_tuple, Value.array.injEq, exists_eq_left', hitems, hpart 0 rest zr hzr, hrest,
      Option.mem_some_iff, forall_eq', reduceCtorEq, false_implies, true_and]
  · next hrest =>
    cases h
    rw [accepts_tuple]
    simp only [hitems, hrest]
    constructor
    · rintro ⟨xs, rfl, hxs⟩
      exact ⟨xs, [], by rw [List.append_nil], hxs, fun _ => rfl, fun x hx => nomatch hx⟩
    · rintro ⟨front, back, rfl, hfront, hback, -⟩
      rw [hback trivial, List.append_nil]
      exact ⟨front, rfl, hfront⟩

end

end SchemaSplice.Synthesis

namespace SchemaSplice

open SchemaSplice.Types Validator

/-! ### One layer -/

/-- A table without places that are still being read. -/
def NoPending (t : Table) : Prop := ∀ id, t.kind id ≠ .pending

/-- The unions of a table have two or more members, no two of them the same. -/
def ProperUnions (t : Table) : Prop :=
  ∀ id ms, t.kind id = .union ms → 2 ≤ ms.length ∧ ms.Pairwise (t.same · · = false)

/-- In an intersection of objects, each member is met by meeting its properties. -/
def MetByProperties (t : Table) (id : TypeId) : Prop :=
  ∀ ms, ObjectIntersection t id ms → ∀ v, Inhabits t id v ↔ ∀ m ∈ ms, MeetsProperties t m v

namespace Synthesis

variable {t : Table} {members : EnumMembers} {part : Parts} {z : Validator}

theorem layer_of_objectIntersection {id : TypeId} {ms : List TypeId} (h : ObjectIntersection t id ms) :
    layer t part id = chain t part 0 ms := by
  have hfun : t.isFunction id = false := by
    rw [← Bool.not_eq_true, isFunction_iff]
    rintro ⟨o, ho, -⟩
    rw [h.1] at ho
    cases ho
  unfold layer
  simp only [hfun, Bool.false_eq_true, if_false, h.1, intersectionShape_of_objectIntersection h]
  rfl

theorem layer_accepts (hE : Enumerates members t) (hpending : NoPending t) (hunions : ProperUnions t)
    (hpart : PartsMean t members part) {id : TypeId} (hmet : MetByProperties t id)
    (h : layer t part id = .ok z) (v : Value) : z.Accepts members v ↔ Inhabits t id v := by
  have hfun : t.isFunction id = false := by
    by_contra hf
    rw [Bool.not_eq_false] at hf
    simp only [layer, hf, if_true] at h
    cases h
  have hcalls : ¬Callable t id := by
    rw [← isFunction_iff, hfun]
    exact Bool.false_ne_true
  unfold layer at h
  simp only [hfun, Bool.false_eq_true, if_false] at h
  cases hk : t.kind id with
  | string =>
    rw [hk] at h
    cases h
    rw [inhabits_string hk]
    rfl
  | number =>
    rw [hk] at h
    cases h
    rw [inhabits_number hk]
    rfl
  | boolean =>
    rw [hk] at h
    cases h
    rw [inhabits_boolean hk]
    rfl
  | bigInt =>
    rw [hk] at h
    cases h
    rw [inhabits_bigInt hk]
    rfl
  | null =>
    rw [hk] at h
    cases h
    rw [inhabits_null hk]
    rfl
  | undefined =>
    rw [hk] at h
    cases h
    rw [inhabits_undefined hk]
    rfl
  | void =>
    rw [hk] at h
    cases h
    rw [inhabits_void hk]
    rfl
  | any =>
    rw [hk] at h
    cases h
    exact iff_of_true trivial (.any hk)
  | unknown =>
    rw [hk] at h
    cases h
    exact iff_of_true trivial (.unknown hk)
  | never =>
    rw [hk] at h
    cases h
    exact iff_of_false not_false (not_inhabits_never hk)
  | literal l =>
    rw [hk] at h
    cases h
    rw [accepts_literal, inhabits_literal hk]
  | enumLiteral e m l =>
    rw [hk] at h
    cases h
    rw [accepts_literal, inhabits_enumLiteral hk]
  | union ms =>
    rw [hk] at h
    obtain ⟨hlength, hdistinct⟩ := hunions id ms hk
    rw [inhabits_union hk]
    exact union_accepts hE hpart hlength hdistinct h v
  | array e =>
    rw [hk] at h
    obtain ⟨element, helement, h⟩ := exists_of_bind_eq_ok h
    cases h
    rw [inhabits_array hk]
    show (∃ items, v = .array items ∧ ∀ x ∈ items, element.Accepts members x) ↔ _
    simp only [hpart.orUnknown helement]
  | tuple es =>
    rw [hk] at h
    obtain ⟨shape, hshape, h⟩ := exists_of_bind_eq_ok h
    rw [tupleShape_eq_ok (ofShape_eq_ok hshape)] at hk
    exact tuple_accepts hpart hk h v
  | object o =>
    rw [hk] at h
    have ho : o.calls = [] := by
      by_contra hne
      exact hcalls ⟨o, hk, hne⟩
    exact objectLayer_accepts hpart ⟨hk, ho⟩ h v
  | intersection ms =>
    rw [hk] at h
    obtain ⟨shape, hshape, h⟩ := exists_of_bind_eq_ok h
    cases shape with
    | chain ms' =>
      have hobjects := objectIntersection_of_intersectionShape (ofShape_eq_ok hshape)
      rw [hmet ms' hobjects v]
      exact chain_accepts hpart hobjects.ne_nil hobjects.2.2 h v
    | single m =>
      rw [inhabits_brand (brandOf_of_intersectionShape (ofShape_eq_ok hshape))]
      exact hpart 0 m z h v
  | pending => exact absurd hk (hpending id)

end Synthesis

end SchemaSplice
