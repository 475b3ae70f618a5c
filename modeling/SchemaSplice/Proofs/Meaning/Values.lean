import Mathlib.Data.List.Forall2
import SchemaSplice.Types.Shape
/-!
# Values and the types they inhabit

Run-time values, and what it means for a value to inhabit a type of a table. The reading is structural and looks at
kinds only: it is written without the tests that synthesis uses. An object type has one of five shapes, tried
in a fixed order, because what has the members of a date is also an object. A function is a member of no
shape: it has no values here.
-/

namespace SchemaSplice

open SchemaSplice.Types

inductive Value where
  | undefined
  | null
  | flag (value : Bool)
  | number (value : Binary64)
  | bigInt (value : Nat)
  | text (value : String)
  | date (time : Binary64)
  | array (items : List Value)
  | set (items : List Value)
  | map (entries : List (Value × Value))
  | object (fields : List (String × Value))

def fieldOf (fields : List (String × Value)) (key : String) : Value :=
  (fields.lookup key).getD .undefined

def digitsValue (digits : String) : Nat :=
  digits.toList.foldl (fun n c => 10 * n + (c.toNat - '0'.toNat)) 0

namespace Types

/-- Whether a value is the one that a literal writes. -/
def Literal.Holds : Literal → Value → Prop
  | text s, .text v => s = v
  | number x, .number y => x.sameValue y = true
  | flag a, .flag b => a = b
  | bigInt digits, .bigInt n => digitsValue digits = n
  | _, _ => False

theorem Literal.holds_of_agrees {a b : Literal} (h : a.agrees b = true) {v : Value}
    (hv : a.Holds v) : b.Holds v := by
  cases a <;> cases b <;> simp only [agrees, beq_iff_eq, Bool.false_eq_true] at h
  · cases v <;> simp only [Literal.Holds] at hv ⊢
    rw [← h]
    exact hv
  · cases v <;> simp only [Literal.Holds] at hv ⊢
    rw [Binary64.sameValue_comm] at h
    exact Binary64.sameValue_trans h hv
  · cases v <;> simp only [Literal.Holds] at hv ⊢
    rw [← h]
    exact hv
  · cases v <;> simp only [Literal.Holds] at hv ⊢
    rw [← h]
    exact hv

theorem Literal.holds_iff_of_agrees {a b : Literal} (h : a.agrees b = true) (v : Value) :
    a.Holds v ↔ b.Holds v :=
  ⟨holds_of_agrees h, holds_of_agrees (by rw [Literal.agrees_comm]; exact h)⟩

/-! ### Shapes of object types -/

/-- What the values of an object type are. -/
inductive ObjectShape where
  | date
  | set
  | map
  | record
  | plain
deriving DecidableEq, Repr

namespace ObjectType

/-- Whether an object type has string-named properties of all the given names. -/
def Offers (o : ObjectType) (names : List String) : Prop :=
  ∀ n ∈ names, ∃ p ∈ o.properties, p.key = .name n

instance (o : ObjectType) (names : List String) : Decidable (o.Offers names) := by
  unfold Offers
  infer_instance

def shape (o : ObjectType) : ObjectShape :=
  if o.Offers ["toUTCString", "toISOString", "getDate", "getTime"] then .date
  else if o.Offers ["add", "has", "forEach", "delete"] then .set
  else if o.Offers ["set", "get", "has", "forEach", "delete"] then .map
  else if (o.aliased.map (·.name)) = some "Record" then .record
  else .plain

def aliasArgs (o : ObjectType) : List TypeId := (o.aliased.map (·.args)).getD []

def IsEmpty (o : ObjectType) : Prop := o.properties = [] ∧ o.calls = [] ∧ o.aliased = none

end ObjectType

/-! ### Inhabitation -/

def Callable (t : Table) (id : TypeId) : Prop := ∃ o, t.kind id = .object o ∧ o.calls ≠ []

/-- A member of a union other than `null` and `undefined`. -/
def Present (t : Table) (id : TypeId) : Prop := t.kind id ≠ .null ∧ t.kind id ≠ .undefined

/-- A function, or a union of functions with `null` or `undefined`. -/
def FunctionValued (t : Table) (id : TypeId) : Prop :=
  match t.kind id with
  | .union ms => (∃ m ∈ ms, Present t m) ∧ ∀ m ∈ ms, Present t m → Callable t m
  | _ => Callable t id

/-- The object types without call signatures. -/
def IsObject (t : Table) (id : TypeId) (o : ObjectType) : Prop := t.kind id = .object o ∧ o.calls = []

def IsEmptyType (t : Table) (id : TypeId) : Prop := ∃ o, t.kind id = .object o ∧ o.IsEmpty

/-- An intersection of two types, exactly one of them an object type that says nothing; `base` is the other. -/
def BrandOf (t : Table) (id base : TypeId) : Prop :=
  ∃ a b, t.kind id = .intersection [a, b] ∧
    ((IsEmptyType t a ∧ ¬IsEmptyType t b ∧ base = b) ∨ (¬IsEmptyType t a ∧ IsEmptyType t b ∧ base = a))

/-- An intersection of object types without call signatures. -/
def ObjectIntersection (t : Table) (id : TypeId) (ms : List TypeId) : Prop :=
  t.kind id = .intersection ms ∧ 2 ≤ ms.length ∧ ∀ m ∈ ms, ∃ o, IsObject t m o

/-- Required positions, then at most one rest position. -/
def tupleElements (fixed : List TypeId) (rest : Option TypeId) : List Element :=
  fixed.map (⟨·, .required⟩) ++ (rest.map fun el => ⟨el, .rest⟩).toList

/-- A value inhabits a type. A type argument that is missing admits every value. -/
inductive Inhabits (t : Table) : TypeId → Value → Prop
  | any {id v} (h : t.kind id = .any) : Inhabits t id v
  | unknown {id v} (h : t.kind id = .unknown) : Inhabits t id v
  | string {id s} (h : t.kind id = .string) : Inhabits t id (.text s)
  | number {id x} (h : t.kind id = .number) : Inhabits t id (.number x)
  | boolean {id b} (h : t.kind id = .boolean) : Inhabits t id (.flag b)
  | bigInt {id n} (h : t.kind id = .bigInt) : Inhabits t id (.bigInt n)
  | null {id} (h : t.kind id = .null) : Inhabits t id .null
  | undefined {id} (h : t.kind id = .undefined) : Inhabits t id .undefined
  | void {id} (h : t.kind id = .void) : Inhabits t id .undefined
  | literal {id l v} (h : t.kind id = .literal l) (hv : l.Holds v) : Inhabits t id v
  | enumLiteral {id e m l v} (h : t.kind id = .enumLiteral e m l) (hv : l.Holds v) : Inhabits t id v
  | union {id ms m v} (h : t.kind id = .union ms) (hm : m ∈ ms) (hv : Inhabits t m v) :
      Inhabits t id v
  | brand {id base v} (h : BrandOf t id base) (hv : Inhabits t base v) : Inhabits t id v
  | intersection {id ms v} (h : ObjectIntersection t id ms) (hb : ¬∃ base, BrandOf t id base)
      (hv : ∀ m ∈ ms, Inhabits t m v) : Inhabits t id v
  | array {id e items} (h : t.kind id = .array e)
      (hv : ∀ el, e = some el → ∀ x ∈ items, Inhabits t el x) : Inhabits t id (.array items)
  | tuple {id} {fixed : List TypeId} {rest : Option TypeId} {front back : List Value}
      (h : t.kind id = .tuple (tupleElements fixed rest))
      (hfront : List.Forall₂ (Inhabits t) fixed front)
      (hnone : rest = none → back = [])
      (hback : ∀ el, rest = some el → ∀ x ∈ back, Inhabits t el x) :
      Inhabits t id (.array (front ++ back))
  | date {id o d} (h : IsObject t id o) (hs : o.shape = .date) : Inhabits t id (.date d)
  | set {id o items} (h : IsObject t id o) (hs : o.shape = .set)
      (hv : ∀ el, o.typeArgs[0]? = some el → ∀ x ∈ items, Inhabits t el x) :
      Inhabits t id (.set items)
  | map {id o entries} (h : IsObject t id o) (hs : o.shape = .map)
      (hk : ∀ el, o.typeArgs[0]? = some el → ∀ x ∈ entries, Inhabits t el x.1)
      (hv : ∀ el, o.typeArgs[1]? = some el → ∀ x ∈ entries, Inhabits t el x.2) :
      Inhabits t id (.map entries)
  | record {id o fields} (h : IsObject t id o) (hs : o.shape = .record)
      (hk : ∀ el, o.aliasArgs[0]? = some el → ∀ x ∈ fields, Inhabits t el (.text x.1))
      (hv : ∀ el, o.aliasArgs[1]? = some el → ∀ x ∈ fields, Inhabits t el x.2) :
      Inhabits t id (.object fields)
  | plain {id o fields} (h : IsObject t id o) (hs : o.shape = .plain)
      (hv : ∀ p ∈ o.properties, ∀ key, p.key = .name key → ¬FunctionValued t p.type →
        Inhabits t p.type (fieldOf fields key)) : Inhabits t id (.object fields)

/-- A value is a plain object that meets the properties of an object type, whatever the shape of that type. -/
def MeetsProperties (t : Table) (id : TypeId) (v : Value) : Prop :=
  ∃ o fields, IsObject t id o ∧ v = .object fields ∧
    ∀ p ∈ o.properties, ∀ key, p.key = .name key → ¬FunctionValued t p.type →
      Inhabits t p.type (fieldOf fields key)

/-! ### Inversion, kind by kind -/

section

variable {t : Table} {id : TypeId} {v : Value}

theorem inhabits_string (h : t.kind id = .string) : Inhabits t id v ↔ ∃ s, v = .text s := by
  constructor
  · intro hv
    cases hv <;> simp_all [BrandOf, ObjectIntersection, IsObject]
  · rintro ⟨s, rfl⟩
    exact .string h

theorem inhabits_number (h : t.kind id = .number) : Inhabits t id v ↔ ∃ x, v = .number x := by
  constructor
  · intro hv
    cases hv <;> simp_all [BrandOf, ObjectIntersection, IsObject]
  · rintro ⟨x, rfl⟩
    exact .number h

theorem inhabits_boolean (h : t.kind id = .boolean) : Inhabits t id v ↔ ∃ b, v = .flag b := by
  constructor
  · intro hv
    cases hv <;> simp_all [BrandOf, ObjectIntersection, IsObject]
  · rintro ⟨b, rfl⟩
    exact .boolean h

theorem inhabits_bigInt (h : t.kind id = .bigInt) : Inhabits t id v ↔ ∃ n, v = .bigInt n := by
  constructor
  · intro hv
    cases hv <;> simp_all [BrandOf, ObjectIntersection, IsObject]
  · rintro ⟨n, rfl⟩
    exact .bigInt h

theorem inhabits_null (h : t.kind id = .null) : Inhabits t id v ↔ v = .null := by
  constructor
  · intro hv
    cases hv <;> simp_all [BrandOf, ObjectIntersection, IsObject]
  · rintro rfl
    exact .null h

theorem inhabits_undefined (h : t.kind id = .undefined) : Inhabits t id v ↔ v = .undefined := by
  constructor
  · intro hv
    cases hv <;> simp_all [BrandOf, ObjectIntersection, IsObject]
  · rintro rfl
    exact .undefined h

theorem inhabits_void (h : t.kind id = .void) : Inhabits t id v ↔ v = .undefined := by
  constructor
  · intro hv
    cases hv <;> simp_all [BrandOf, ObjectIntersection, IsObject]
  · rintro rfl
    exact .void h

theorem not_inhabits_never (h : t.kind id = .never) : ¬Inhabits t id v := by
  intro hv
  cases hv <;> simp_all [BrandOf, ObjectIntersection, IsObject]

theorem inhabits_literal {l : Literal} (h : t.kind id = .literal l) :
    Inhabits t id v ↔ l.Holds v := by
  constructor
  · intro hv
    cases hv <;> simp_all [BrandOf, ObjectIntersection, IsObject]
  · intro hv
    exact .literal h hv

theorem inhabits_enumLiteral {e m : String} {l : Literal} (h : t.kind id = .enumLiteral e m l) :
    Inhabits t id v ↔ l.Holds v := by
  constructor
  · intro hv
    cases hv <;> simp_all [BrandOf, ObjectIntersection, IsObject]
  · intro hv
    exact .enumLiteral h hv

theorem inhabits_union {ms : List TypeId} (h : t.kind id = .union ms) :
    Inhabits t id v ↔ ∃ m ∈ ms, Inhabits t m v := by
  constructor
  · intro hv
    cases hv <;> simp_all [BrandOf, ObjectIntersection, IsObject]
    exact ⟨_, ‹_›, ‹_›⟩
  · rintro ⟨m, hm, hv⟩
    exact .union h hm hv

theorem inhabits_array {e : Option TypeId} (h : t.kind id = .array e) :
    Inhabits t id v ↔ ∃ items, v = .array items ∧ ∀ x ∈ items, ∀ el ∈ e, Inhabits t el x := by
  constructor
  · intro hv
    cases hv <;> simp_all [BrandOf, ObjectIntersection, IsObject]
  · rintro ⟨items, rfl, hv⟩
    exact .array h fun el hel x hx => hv x hx el hel

theorem tupleElements_inj {fixed fixed' : List TypeId} {rest rest' : Option TypeId}
    (h : tupleElements fixed rest = tupleElements fixed' rest') : fixed = fixed' ∧ rest = rest' := by
  induction fixed generalizing fixed' with
  | nil =>
    cases fixed' <;> cases rest <;> cases rest' <;> simp_all [tupleElements]
  | cons f fs ih =>
    cases fixed' with
    | nil => cases rest' <;> simp [tupleElements] at h
    | cons f' fs' =>
      simp only [tupleElements, List.map_cons, List.cons_append, List.cons.injEq, Element.mk.injEq,
        and_true] at h
      obtain ⟨rfl, hrest⟩ := ih h.2
      exact ⟨by rw [h.1], hrest⟩

theorem inhabits_tuple {fixed : List TypeId} {rest : Option TypeId}
    (h : t.kind id = .tuple (tupleElements fixed rest)) :
    Inhabits t id v ↔ ∃ front back, v = .array (front ++ back) ∧
      List.Forall₂ (Inhabits t) fixed front ∧ (rest = none → back = []) ∧
        ∀ x ∈ back, ∀ el ∈ rest, Inhabits t el x := by
  constructor
  · intro hv
    cases hv with
    | tuple h' hfront hnone hback =>
      rw [h, TypeKind.tuple.injEq] at h'
      obtain ⟨rfl, rfl⟩ := tupleElements_inj h'
      exact ⟨_, _, rfl, hfront, hnone, fun x hx el hel => hback el hel x hx⟩
    | _ => simp_all [BrandOf, ObjectIntersection, IsObject]
  · rintro ⟨front, back, rfl, hfront, hnone, hback⟩
    exact .tuple h hfront hnone fun el hel x hx => hback x hx el hel

theorem BrandOf.unique {base base' : TypeId} (h : BrandOf t id base) (h' : BrandOf t id base') :
    base = base' := by
  obtain ⟨a, b, hk, h⟩ := h
  obtain ⟨a', b', hk', h'⟩ := h'
  rw [hk, TypeKind.intersection.injEq, List.cons.injEq, List.cons.injEq] at hk'
  obtain ⟨rfl, rfl, -⟩ := hk'
  rcases h with ⟨ha, hb, rfl⟩ | ⟨ha, hb, rfl⟩
  · rcases h' with ⟨-, -, rfl⟩ | ⟨ha', -, -⟩
    · rfl
    · exact absurd ha ha'
  · rcases h' with ⟨ha', -, -⟩ | ⟨-, -, rfl⟩
    · exact absurd ha' ha
    · rfl

theorem inhabits_brand {base : TypeId} (h : BrandOf t id base) :
    Inhabits t id v ↔ Inhabits t base v := by
  constructor
  · intro hv
    cases hv with
    | brand h' hv =>
      rwa [BrandOf.unique h h']
    | intersection _ hb => exact absurd ⟨base, h⟩ hb
    | _ => simp_all [BrandOf, IsObject]
  · exact .brand h

theorem ObjectIntersection.ne_nil {ms : List TypeId} (h : ObjectIntersection t id ms) : ms ≠ [] := by
  rintro rfl
  exact absurd h.2.1 (by simp)

theorem inhabits_intersection {ms : List TypeId} (h : ObjectIntersection t id ms)
    (hb : ¬∃ base, BrandOf t id base) : Inhabits t id v ↔ ∀ m ∈ ms, Inhabits t m v := by
  constructor
  · intro hv
    cases hv with
    | brand h' _ => exact absurd ⟨_, h'⟩ hb
    | intersection h' _ hv =>
      have hms := h.1.symm.trans h'.1
      rw [TypeKind.intersection.injEq] at hms
      rw [hms]
      exact hv
    | _ => simp_all [ObjectIntersection, IsObject]
  · exact .intersection h hb

/-! ### Inversion, shape by shape -/

variable {o : ObjectType}

theorem IsObject.unique {o' : ObjectType} (h : IsObject t id o) (h' : IsObject t id o') : o = o' := by
  have ho := h.1.symm.trans h'.1
  rwa [TypeKind.object.injEq] at ho

theorem inhabits_date (h : IsObject t id o) (hs : o.shape = .date) :
    Inhabits t id v ↔ ∃ d, v = .date d := by
  constructor
  · intro hv
    cases hv <;> simp_all [BrandOf, ObjectIntersection, IsObject]
  · rintro ⟨d, rfl⟩
    exact .date h hs

theorem inhabits_set (h : IsObject t id o) (hs : o.shape = .set) :
    Inhabits t id v ↔
      ∃ items, v = .set items ∧ ∀ x ∈ items, ∀ el ∈ o.typeArgs[0]?, Inhabits t el x := by
  constructor
  · intro hv
    cases hv <;> simp_all [BrandOf, ObjectIntersection, IsObject]
  · rintro ⟨items, rfl, hv⟩
    exact .set h hs fun el hel x hx => hv x hx el hel

theorem inhabits_map (h : IsObject t id o) (hs : o.shape = .map) :
    Inhabits t id v ↔
      ∃ entries, v = .map entries ∧ ∀ x ∈ entries,
        (∀ el ∈ o.typeArgs[0]?, Inhabits t el x.1) ∧ ∀ el ∈ o.typeArgs[1]?, Inhabits t el x.2 := by
  constructor
  · intro hv
    cases hv with
    | map h' _ hk hv =>
      rw [IsObject.unique h h']
      exact ⟨_, rfl, fun x hx => ⟨fun el hel => hk el hel x hx, fun el hel => hv el hel x hx⟩⟩
    | _ => simp_all [BrandOf, ObjectIntersection, IsObject]
  · rintro ⟨entries, rfl, hv⟩
    exact .map h hs (fun el hel x hx => (hv x hx).1 el hel) fun el hel x hx => (hv x hx).2 el hel

theorem inhabits_record (h : IsObject t id o) (hs : o.shape = .record) :
    Inhabits t id v ↔
      ∃ fields, v = .object fields ∧ ∀ x ∈ fields,
        (∀ el ∈ o.aliasArgs[0]?, Inhabits t el (.text x.1)) ∧ ∀ el ∈ o.aliasArgs[1]?, Inhabits t el x.2 := by
  constructor
  · intro hv
    cases hv with
    | record h' _ hk hv =>
      rw [IsObject.unique h h']
      exact ⟨_, rfl, fun x hx => ⟨fun el hel => hk el hel x hx, fun el hel => hv el hel x hx⟩⟩
    | _ => simp_all [BrandOf, ObjectIntersection, IsObject]
  · rintro ⟨fields, rfl, hv⟩
    exact .record h hs (fun el hel x hx => (hv x hx).1 el hel) fun el hel x hx => (hv x hx).2 el hel

/-- Of a plain object type the properties are all there is. -/
theorem inhabits_plain (h : IsObject t id o) (hs : o.shape = .plain) :
    Inhabits t id v ↔ MeetsProperties t id v := by
  constructor
  · intro hv
    cases hv with
    | plain h' _ hv => exact ⟨_, _, h', rfl, hv⟩
    | _ => simp_all [BrandOf, ObjectIntersection, IsObject]
  · rintro ⟨o', fields, h', rfl, hv⟩
    rw [IsObject.unique h h'] at hs
    exact .plain h' hs hv

end

end Types

end SchemaSplice
