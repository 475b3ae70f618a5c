import SchemaSplice.Proofs.Resolution.Completeness
/-!
# What reading does to a state

Whatever is read, the state changes by few kinds of moves: a type is added, an enum is read, and an instance is reserved,
moved on from, and then defined or forgotten. `Yields` says that a reading makes only such moves and that what it finds has
a property; the property that matters is that no key of an object type occurs twice. A fact about all states that queries
leave behind is then proved by induction on moves.
-/

namespace SchemaSplice.Types

/-! ### Keys -/

def ObjectType.Keyed (o : ObjectType) : Prop := (o.properties.map (·.key)).Nodup

def TypeKind.Keyed (k : TypeKind) : Prop := ∀ o, k.object? = some o → o.Keyed

theorem ObjectType.Keyed.kind {o : ObjectType} (h : o.Keyed) : (TypeKind.object o).Keyed := by
  rintro _ ⟨rfl⟩
  exact h

theorem TypeKind.keyed_of_object?_eq_none {k : TypeKind} (h : k.object? = none) : k.Keyed := by
  intro o ho
  rw [h] at ho
  cases ho

theorem ObjectType.Keyed.addProperty {o : ObjectType} (h : o.Keyed) (q : Property) : (o.addProperty q).Keyed := by
  unfold ObjectType.addProperty
  split
  · exact h
  · next hany =>
    unfold Keyed
    rw [List.map_append, List.map_singleton]
    refine h.append (List.nodup_singleton _) ?_
    intro key hkey hq
    rw [List.mem_singleton.mp hq] at hkey
    obtain ⟨r, hr, heq⟩ := List.mem_map.mp hkey
    exact hany (List.any_eq_true.mpr ⟨r, hr, beq_iff_eq.mpr heq⟩)

theorem Builtin.keyed_recordObject (key value : TypeId) : (recordObject key value).Keyed := List.nodup_nil

end SchemaSplice.Types

namespace SchemaSplice.Declaration

open Annotation Source SchemaSplice.Types

theorem keyed_inherit {o : ObjectType} (h : o.Keyed) (properties : List Property) : (inherit o properties).Keyed := by
  unfold inherit
  induction properties generalizing o with
  | nil => exact h
  | cons q qs ih => exact ih (h.addProperty q)

theorem keyed_withBases {t : Table} {merged : ObjectType} (h : merged.Keyed) (bases : List TypeId) :
    (withBases t bases merged).Keyed := by
  unfold withBases
  induction bases generalizing merged with
  | nil => exact h
  | cons base bases ih => exact ih (keyed_inherit h _)

/-! ### Moves -/

/-- From one state to another by adding types, reading enums and defining or forgetting instances. -/
inductive Moves (p : Project) : TypeState → TypeState → Prop where
  | refl (s : TypeState) : Moves p s s
  | insert {s t : TypeState} {k : TypeKind} (h : Moves p s t) (hk : k.Keyed) : Moves p s (t.insert k)
  | enum {s t : TypeState} (h : Moves p s t) (current : Nat) (name : String) :
    Moves p s (stateAfter (enumMembers p current name t))
  /-- The body of an instance has been read into its place. -/
  | define {s t u : TypeState} {inst : Instance} (h : Moves p s t) (hnew : t.memo.lookup inst = none)
    (hbody : Moves p (t.reserve inst) u) (type : TypeId) :
    Moves p s { u with table := (Table.define ⟨t.table.size⟩ type u.table).2 }
  /-- The body of an instance could not be read. -/
  | forget {s t u : TypeState} {inst : Instance} (h : Moves p s t) (hnew : t.memo.lookup inst = none)
    (hbody : Moves p (t.reserve inst) u) : Moves p s { u with memo := u.memo.filter (·.1 != inst) }

theorem Moves.trans {p : Project} {s t u : TypeState} (h : Moves p s t) (h' : Moves p t u) : Moves p s u := by
  induction h' with
  | refl => exact h
  | insert _ hk ih => exact .insert (ih h) hk
  | enum _ current name ih => exact .enum (ih h) current name
  | define _ hnew hbody type ih => exact .define (ih h) hnew hbody type
  | forget _ hnew hbody ih => exact .forget (ih h) hnew hbody

/-- Only moves have led to a result, and what was found has a property. -/
def Moved (p : Project) {ε α : Type} (Q : α → Prop) (s : TypeState) : EStateM.Result ε TypeState α → Prop
  | .ok a t => Moves p s t ∧ Q a
  | .error _ t => Moves p s t

/-- A reading only makes moves, and what it finds has a property. -/
def Yields (p : Project) {ε α : Type} (Q : α → Prop) (m : EStateM ε TypeState α) : Prop := ∀ s, Moved p Q s (m s)

/-- What may be anything. -/
abbrev Anything {α : Type} (_ : α) : Prop := True

def TableYields (p : Project) {α : Type} (Q : α → Prop) (change : TableM α) : Prop :=
  ∀ s : TypeState, Moves p s { s with table := (change s.table).2 } ∧ Q (change s.table).1

namespace Yields

variable {p : Project} {ε α β : Type} {P Q : α → Prop} {R : β → Prop}

theorem moves {m : EStateM ε TypeState α} (h : Yields p Q m) (s : TypeState) : Moves p s (stateAfter (m s)) := by
  have hs := h s
  cases hres : m s with
  | ok a t =>
    rw [hres] at hs
    exact hs.1
  | error e t =>
    rw [hres] at hs
    exact hs

theorem pure {a : α} (ha : Q a) : Yields (ε := ε) p Q (pure a) := fun s => ⟨.refl s, ha⟩

theorem throw (e : ε) : Yields p Q (MonadExcept.throw e : EStateM ε TypeState α) := fun s => Moves.refl s

theorem bind {m : EStateM ε TypeState α} {k : α → EStateM ε TypeState β} (hm : Yields p P m)
    (hk : ∀ a, P a → Yields p R (k a)) : Yields p R (m >>= k) := by
  intro s
  have hs := hm s
  show Moved p R s (EStateM.bind m k s)
  unfold EStateM.bind
  cases hres : m s with
  | ok a t =>
    rw [hres] at hs
    have ht := hk a hs.2 t
    simp only
    cases hres' : k a t with
    | ok b u =>
      rw [hres'] at ht
      exact ⟨hs.1.trans ht.1, ht.2⟩
    | error e u =>
      rw [hres'] at ht
      exact hs.1.trans ht
  | error e t =>
    rw [hres] at hs
    exact hs

theorem bind_get {k : TypeState → EStateM ε TypeState β} (hk : ∀ s, Yields p R (k s)) : Yields p R (get >>= k) :=
  fun s => hk s s

theorem ite {c : Prop} [Decidable c] {m k : EStateM ε TypeState α} (hm : c → Yields p Q m) (hk : ¬c → Yields p Q k) :
    Yields p Q (if c then m else k) := by
  by_cases h : c
  · rw [if_pos h]
    exact hm h
  · rw [if_neg h]
    exact hk h

theorem dite {c : Prop} [Decidable c] {m : c → EStateM ε TypeState α} {k : ¬c → EStateM ε TypeState α}
    (hm : ∀ h, Yields p Q (m h)) (hk : ∀ h, Yields p Q (k h)) : Yields p Q (if h : c then m h else k h) := by
  by_cases h : c
  · rw [dif_pos h]
    exact hm h
  · rw [dif_neg h]
    exact hk h

theorem adaptExcept {ε' : Type} {m : EStateM ε TypeState α} (g : ε → ε') (h : Yields p Q m) :
    Yields p Q (m.adaptExcept g) := by
  intro s
  have hs := h s
  unfold EStateM.adaptExcept
  cases hres : m s with
  | ok a t =>
    rw [hres] at hs
    exact hs
  | error e t =>
    rw [hres] at hs
    exact hs

theorem lookup {m : Reading α} (position : Nat) (h : Yields p Q m) : Yields p Q (lookup position m) := by
  intro s
  have hs := h s
  unfold Annotation.lookup
  cases hres : m s with
  | ok a t =>
    rw [hres] at hs
    exact hs
  | error e t =>
    rw [hres] at hs
    exact hs

theorem fail (position : Nat) (cause : TypeError) : Yields p Q (fail position cause : Parse α) :=
  throw (⟨cause, position⟩ : ParseError)

theorem onTable {change : TableM α} (h : TableYields p Q change) : Yields (ε := ε) p Q (onTable change) :=
  fun s => h s

end Yields

namespace TableYields

variable {p : Project} {α β : Type} {P Q : α → Prop} {R : β → Prop}

theorem pure {a : α} (ha : Q a) : TableYields p Q (pure a) := fun s => ⟨.refl s, ha⟩

theorem bind {m : TableM α} {k : α → TableM β} (hm : TableYields p P m) (hk : ∀ a, P a → TableYields p R (k a)) :
    TableYields p R (m >>= k) := by
  intro s
  obtain ⟨hmoves, ha⟩ := hm s
  obtain ⟨hmoves', hb⟩ := hk (m s.table).1 ha { s with table := (m s.table).2 }
  exact ⟨hmoves.trans hmoves', hb⟩

theorem insert {k : TypeKind} (hk : k.Keyed) : TableYields p Anything (Table.insert k) :=
  fun s => ⟨.insert (.refl s) hk, trivial⟩

theorem plain {k : TypeKind} (hk : k.object? = none) : TableYields p Anything (Table.insert k) :=
  insert (TypeKind.keyed_of_object?_eq_none hk)

theorem function (result : TypeId) : TableYields p Anything (Table.function result) :=
  insert (ObjectType.Keyed.kind List.nodup_nil)

theorem soleOr {build : List TypeId → TypeKind} (hbuild : ∀ ms, (build ms).object? = none) (ms : List TypeId) :
    TableYields p Anything (Table.soleOr build ms) := by
  unfold Table.soleOr
  split
  · exact pure trivial
  · exact plain (hbuild ms)

theorem widen (ms : List TypeId) (s : TypeState) :
    Moves p s { s with table := (Table.widenFlags ms s.table).2 } := by
  rw [Table.widenFlags_apply]
  simp only
  split
  · split
    · exact .refl s
    · exact .insert (.refl s) (TypeKind.keyed_of_object?_eq_none rfl)
  · exact .refl s

theorem union (ms : List TypeId) : TableYields p Anything (Table.union ms) := by
  intro s
  rw [Table.union_apply]
  have hwide := widen (p := p) (s.table.dedupe [] (s.table.flattenUnion ms)) s
  exact ⟨hwide.trans (soleOr (fun _ => rfl) _ { s with table := _ }).1, trivial⟩

theorem intersection (ms : List TypeId) : TableYields p Anything (Table.intersection ms) := by
  intro s
  rw [Table.intersection_apply]
  exact soleOr (fun _ => rfl) _ s

end TableYields

/-! ### Built-in types -/

section

variable {p : Project}

theorem yields_method (name : String) (result : TypeId) :
    TableYields p (fun q => q.key = .name name) (Builtin.method name result) :=
  (TableYields.function result).bind fun _ _ => TableYields.pure rfl

theorem yields_symbolMethod (name : String) (result : TypeId) :
    TableYields p (fun q => q.key = .symbol name) (Builtin.symbolMethod name result) :=
  (TableYields.function result).bind fun _ _ => TableYields.pure rfl

theorem yields_nominal (name : String) (typeArgs : List TypeId) {properties : List Property}
    (h : (properties.map (·.key)).Nodup) : TableYields p Anything (Builtin.nominal name typeArgs properties) :=
  TableYields.insert (ObjectType.Keyed.kind h)

theorem yields_date : TableYields p Anything Builtin.date := by
  refine (TableYields.plain rfl).bind fun string _ => (TableYields.plain rfl).bind fun number _ => ?_
  refine (yields_method _ string).bind fun toUTCString h₁ => (yields_method _ string).bind fun toISOString h₂ => ?_
  refine (yields_method _ number).bind fun getDate h₃ => (yields_method _ number).bind fun getTime h₄ => ?_
  refine (yields_method _ number).bind fun valueOf h₅ => yields_nominal _ _ ?_
  simp only [List.map_cons, List.map_nil, h₁, h₂, h₃, h₄, h₅]
  decide

theorem yields_set (name : String) (element : TypeId) : TableYields p Anything (Builtin.set name element) := by
  have hrest : ∀ (void boolean number : TypeId) (changing : List Property),
      (changing.map Property.key ++ [PropertyKey.name "has", .name "forEach", .name "size", .symbol "iterator"]).Nodup →
      TableYields p Anything (do
        let has ← Builtin.method "has" boolean
        let forEach ← Builtin.method "forEach" void
        let iterator ← Builtin.symbolMethod "iterator" void
        Builtin.nominal name [element] (changing ++ [has, forEach, Builtin.field "size" number, iterator])) := by
    intro void boolean number changing hnodup
    refine (yields_method _ boolean).bind fun has h₁ => (yields_method _ void).bind fun forEach h₂ => ?_
    refine (yields_symbolMethod _ void).bind fun iterator h₃ => yields_nominal _ _ ?_
    simp only [List.map_append, List.map_cons, List.map_nil, h₁, h₂, h₃, Builtin.field]
    exact hnodup
  unfold Builtin.set
  refine (TableYields.plain rfl).bind fun void _ => (TableYields.plain rfl).bind fun boolean _ => ?_
  refine (TableYields.plain rfl).bind fun number _ => ?_
  simp only
  split
  · refine (yields_method _ void).bind fun add h₁ => (yields_method _ boolean).bind fun delete h₂ => ?_
    refine (yields_method _ void).bind fun clear h₃ => hrest void boolean number [add, delete, clear] ?_
    simp only [List.map_cons, List.map_nil, h₁, h₂, h₃]
    decide
  · exact hrest void boolean number [] (by decide)

theorem yields_map (name : String) (key value : TypeId) : TableYields p Anything (Builtin.map name key value) := by
  have hrest : ∀ (void boolean number : TypeId) (changing : List Property),
      (changing.map Property.key ++ [PropertyKey.name "get", .name "has", .name "forEach", .name "size", .symbol "iterator"]).Nodup →
      TableYields p Anything (do
        let get ← Builtin.method "get" value
        let has ← Builtin.method "has" boolean
        let forEach ← Builtin.method "forEach" void
        let iterator ← Builtin.symbolMethod "iterator" void
        Builtin.nominal name [key, value]
          (changing ++ [get, has, forEach, Builtin.field "size" number, iterator])) := by
    intro void boolean number changing hnodup
    refine (yields_method _ value).bind fun get h₁ => (yields_method _ boolean).bind fun has h₂ => ?_
    refine (yields_method _ void).bind fun forEach h₃ => (yields_symbolMethod _ void).bind fun iterator h₄ => ?_
    apply yields_nominal
    simp only [List.map_append, List.map_cons, List.map_nil, h₁, h₂, h₃, h₄, Builtin.field]
    exact hnodup
  unfold Builtin.map
  refine (TableYields.plain rfl).bind fun void _ => (TableYields.plain rfl).bind fun boolean _ => ?_
  refine (TableYields.plain rfl).bind fun number _ => ?_
  simp only
  split
  · refine (yields_method _ void).bind fun set h₁ => (yields_method _ boolean).bind fun delete h₂ => ?_
    refine (yields_method _ void).bind fun clear h₃ => hrest void boolean number [set, delete, clear] ?_
    simp only [List.map_cons, List.map_nil, h₁, h₂, h₃]
    decide
  · exact hrest void boolean number [] (by decide)

theorem yields_promise (inner : TypeId) : TableYields p Anything (Builtin.promise inner) := by
  refine (TableYields.plain rfl).bind fun any _ => (yields_method _ any).bind fun thenMethod h₁ => ?_
  refine (yields_method _ any).bind fun catchMethod h₂ => (yields_method _ any).bind fun finallyMethod h₃ => ?_
  apply yields_nominal
  simp only [List.map_cons, List.map_nil, h₁, h₂, h₃]
  decide

theorem yields_builtin {name : String} {args : List TypeId} {build : TableM TypeId}
    (h : Builtin.lookup? name args = some build) : TableYields p Anything build := by
  unfold Builtin.lookup? at h
  split at h <;> cases h
  · exact TableYields.plain rfl
  · exact TableYields.plain rfl
  · exact yields_date
  · exact yields_set _ _
  · exact yields_set _ _
  · exact yields_map _ _ _
  · exact yields_map _ _ _
  · exact TableYields.insert (Builtin.keyed_recordObject _ _).kind
  · exact yields_promise _
  · exact TableYields.insert (ObjectType.Keyed.kind List.nodup_nil)

/-! ### The reader -/

structure ScopeYields (p : Project) (scope : Scope) : Prop where
  named : ∀ name args, Yields p Anything (scope.named name args)
  member : ∀ qualifier name, Yields p Anything (scope.member qualifier name)

variable {env : Env} {position : Nat}

theorem yields_insertAs {next : Nat} (lt : position < next) (le : next ≤ env.file.size) {k : TypeKind}
    (hk : k.Keyed) : Yields p Anything (insertAs env.file position next lt le k) :=
  (Yields.onTable (TableYields.insert hk)).bind fun _ _ => Yields.pure trivial

theorem yields_separatedRest {separator : Kind} {item : (q : Nat) → position ≤ q → Parse (Parsed env.file q TypeId)}
    (hitem : ∀ q h, Yields p Anything (item q h)) (q : Nat) (lt : position < q) (le : q ≤ env.file.size)
    (items : List TypeId) : Yields p Anything (separatedRest env.file separator item q lt le items) := by
  fun_induction separatedRest env.file separator item q lt le items with
  | case1 q lt le items h ih =>
    exact (hitem _ _).bind fun r _ => ih r
  | case2 q lt le items h =>
    exact Yields.pure trivial

theorem yields_separated {separator : Kind} {item : (q : Nat) → position ≤ q → Parse (Parsed env.file q TypeId)}
    (hitem : ∀ q h, Yields p Anything (item q h)) :
    Yields p Anything (separated env.file separator position item) :=
  (hitem _ _).bind fun _ _ => yields_separatedRest hitem _ _ _ _

theorem yields_sole {read : Parsed env.file position (List TypeId)} {build : List TypeId → TableM TypeId}
    (hbuild : ∀ ms, TableYields p Anything (build ms)) :
    Yields p Anything (match read.value with
      | [only] => return ⟨only, read.next, read.lt_next, read.next_le⟩
      | many => return ⟨← onTable (build many), read.next, read.lt_next, read.next_le⟩ :
      Parse (Parsed env.file position TypeId)) := by
  split
  · exact Yields.pure trivial
  · exact (Yields.onTable (hbuild _)).bind fun _ _ => Yields.pure trivial

section

variable {later : Later env.file position} (hlater : ∀ q h, Yields p Anything (later q h))

include hlater

theorem yields_signatureResult (hp : position < env.file.size) (q c : Nat) (hq : position ≤ q)
    (hc : q < c ∧ c < env.file.size) : Yields p Anything (signatureResult env hp later q c hq hc) := by
  unfold signatureResult
  apply Yields.ite
  · intro _
    exact (hlater _ _).bind fun _ _ => Yields.pure trivial
  · intro _
    exact yields_insertAs _ _ (TypeKind.keyed_of_object?_eq_none rfl)

theorem yields_signature (hp : position < env.file.size) (q : Nat) (hq : position ≤ q) :
    Yields p Anything (signature env hp later q hq) := by
  cases hs : env.file.anglesFrom? q with
  | none =>
    rw [signature_of_none env hp later hq hs]
    exact Yields.fail _ _
  | some o =>
    rw [signature_of_some env hp later hq hs]
    apply Yields.ite
    · intro _
      cases env.file.closer? o with
      | none => exact Yields.fail _ _
      | some c => exact yields_signatureResult hlater hp q c.1 hq _
    · intro _
      exact Yields.fail _ _

omit hlater in
theorem yields_propertyKey (q : Nat) : Yields p Anything (propertyKey env.file q) := by
  unfold propertyKey
  split
  · exact Yields.pure trivial
  · exact Yields.pure trivial
  · exact Yields.pure trivial
  · split
    · split
      · exact Yields.pure trivial
      · exact Yields.fail _ _
    · exact Yields.fail _ _
  · exact Yields.fail _ _

theorem yields_indexSignature (hp : position < env.file.size) (q : Nat) (hq : position ≤ q) :
    Yields p Anything (indexSignature env hp later q hq) := by
  refine (hlater _ _).bind fun key _ => Yields.ite (fun _ => Yields.ite (fun _ => ?_) fun _ => ?_) fun _ => ?_
  · exact (hlater _ _).bind fun value _ => Yields.pure trivial
  · exact Yields.fail _ _
  · exact Yields.fail _ _

theorem yields_propertyMember (hp : position < env.file.size) (q : Nat) (hq : position ≤ q) :
    Yields p Anything (propertyMember env hp later q hq) := by
  refine (yields_propertyKey q).bind fun key _ => ?_
  -- The end of a property adds `undefined` to the type of an optional one.
  have hfinish : ∀ (type : TypeId) (next : Nat) (lt : q < next) (le : next ≤ env.file.size) (optional : Bool),
      Yields p Anything (if optional = true then do
          let undefined ← onTable (Table.insert .undefined)
          let type ← onTable (Table.union [type, undefined])
          return ⟨.property ⟨key.value, type, true⟩, next, lt, le⟩
        else return ⟨.property ⟨key.value, type, false⟩, next, lt, le⟩ : Parse (Parsed env.file q Member)) := by
    intro type next lt le optional
    refine Yields.ite (fun _ => ?_) fun _ => Yields.pure trivial
    refine (Yields.onTable (TableYields.plain rfl)).bind fun undefined _ => ?_
    exact (Yields.onTable (TableYields.union _)).bind fun union _ => Yields.pure trivial
  refine Yields.ite (fun _ => ?_) fun _ => Yields.ite (fun _ => ?_) fun _ => Yields.fail _ _
  · refine (yields_signature hlater hp _ _).bind fun result _ => ?_
    exact (Yields.onTable (TableYields.function _)).bind fun type _ => hfinish type _ _ _ _
  · exact (hlater _ _).bind fun type _ => hfinish type.value _ _ _ _

theorem yields_member (hp : position < env.file.size) (q : Nat) (hq : position ≤ q) :
    Yields p Anything (member env hp later q hq) := by
  refine Yields.ite (fun _ => ?_) fun _ => Yields.ite (fun _ => Yields.fail _ _) fun _ => Yields.ite (fun _ => ?_) fun _ => ?_
  · exact (yields_signature hlater hp q hq).bind fun result _ => Yields.pure trivial
  · exact yields_indexSignature hlater hp q hq
  · exact yields_propertyMember hlater hp q hq

omit hlater in
theorem keyed_add {body : Body} (h : body.object.Keyed) (m : Member) : (body.add m).object.Keyed := by
  cases m with
  | call result => exact h
  | index key value => exact h
  | property q => exact h.addProperty q

theorem yields_members (hp : position < env.file.size) (close q : Nat) (hq : position ≤ q) {body : Body}
    (hbody : body.object.Keyed) :
    Yields p (fun b : Body => b.object.Keyed) (members env hp later close q hq body) := by
  fun_induction members env hp later close q hq body with
  | case1 q hq body h =>
    exact Yields.pure hbody
  | case2 q hq body h hsep ih =>
    exact ih hbody
  | case3 q hq body h hsep start hs =>
    rename_i ih
    exact (yields_member hlater hp _ _).bind fun m _ => ih m (keyed_add hbody m.value)

omit hlater in
theorem yields_toObject {body : Body} (h : body.object.Keyed) (next : Nat) :
    Yields p ObjectType.Keyed (body.toObject next) := by
  unfold Body.toObject
  split
  · exact Yields.pure h
  · exact Yields.ite (fun _ => Yields.pure (Builtin.keyed_recordObject _ _)) fun _ => Yields.fail _ _

theorem yields_objectBody :
    Yields p (fun r : Parsed env.file position ObjectType => r.value.Keyed) (objectBody env position later) := by
  refine Yields.dite (fun h => ?_) fun _ => Yields.fail _ _
  cases env.file.closer? position with
  | none => exact Yields.fail _ _
  | some c =>
    have hempty : (({} : Body).object).Keyed := List.nodup_nil
    refine (yields_members hlater (File.lt_size_of_hasKind h) c.1 _ _ hempty).bind fun body hbody => ?_
    exact (yields_toObject hbody _).bind fun object hobject => Yields.pure hobject

theorem yields_tupleRest (hp : position < env.file.size) (q : Nat) (hq : position < q) (elements : List Element) :
    Yields p Anything (tupleRest env hp later q hq elements) := by
  fun_induction tupleRest env hp later q hq elements with
  | case1 q hq elements h =>
    exact Yields.pure trivial
  | case2 q hq elements h spread start hs label =>
    rename_i ih
    refine (hlater _ _).bind fun type _ => Yields.bind_get fun s => ?_
    refine Yields.dite (fun hc => ih type s hc) fun _ => ?_
    exact Yields.dite (fun _ => Yields.pure trivial) fun _ => Yields.fail _ _

theorem yields_typeArguments (hp : position < env.file.size) (q : Nat) (hq : position < q) (args : List TypeId) :
    Yields p Anything (typeArguments env hp later q hq args) := by
  fun_induction typeArguments env hp later q hq args with
  | case1 q hq args ih =>
    refine (hlater _ _).bind fun type _ => Yields.dite (fun hc => ih type hc) fun _ => ?_
    exact Yields.dite (fun _ => Yields.pure trivial) fun _ => Yields.fail _ _

theorem yields_reference (hscope : ScopeYields p env.scope) (hp : position < env.file.size) :
    Yields p Anything (reference env position hp later) := by
  unfold reference
  refine Yields.ite (fun _ => Yields.dite (fun _ => Yields.ite (fun _ => Yields.fail _ _) fun _ => ?_)
    fun _ => Yields.fail _ _) fun _ => Yields.ite (fun _ => ?_) fun _ => ?_
  · exact (Yields.lookup _ (hscope.member _ _)).bind fun type _ => Yields.pure trivial
  · refine (yields_typeArguments hlater hp _ _ []).bind fun args _ => ?_
    exact (Yields.lookup _ (hscope.named _ _)).bind fun type _ => Yields.pure trivial
  · cases env.params.lookup (env.file.tokenText position) with
    | some type => exact Yields.pure trivial
    | none => exact (Yields.lookup _ (hscope.named _ _)).bind fun type _ => Yields.pure trivial

omit hlater in
theorem keyed_keyword {word : String} {k : TypeKind} (h : keyword? word = some k) : k.Keyed := by
  unfold keyword? at h
  split at h <;> cases h <;> first | exact TypeKind.keyed_of_object?_eq_none rfl | exact ObjectType.Keyed.kind List.nodup_nil

theorem yields_named (hscope : ScopeYields p env.scope) (hp : position < env.file.size) :
    Yields p Anything (named env position hp later) := by
  unfold named
  simp only
  cases hk : keyword? (env.file.tokenText position) with
  | some k => exact yields_insertAs _ _ (keyed_keyword hk)
  | none => exact Yields.ite (fun _ => Yields.fail _ _) fun _ => yields_reference hlater hscope hp

theorem yields_parenthesized (hp : position < env.file.size) :
    Yields p Anything (parenthesized env position hp later) := by
  unfold parenthesized
  simp only
  cases env.file.closer? position with
  | none => exact Yields.fail _ _
  | some c =>
    refine Yields.ite (fun _ => ?_) fun _ => ?_
    · refine (hlater _ _).bind fun result _ => ?_
      exact (Yields.onTable (TableYields.function _)).bind fun type _ => Yields.pure trivial
    · refine (hlater _ _).bind fun inner _ => ?_
      exact Yields.dite (fun _ => Yields.pure trivial) fun _ => Yields.fail _ _

omit hlater in
theorem yields_insertNumber {next : Nat} (lt : position < next) (le : next ≤ env.file.size) (i : Nat)
    (negative : Bool) : Yields p Anything
      (numberLiteral env.file i next negative >>= fun k => insertAs env.file position next lt le k) := by
  unfold numberLiteral
  cases Binary64.ofToken? (env.file.tokenText i) with
  | some x =>
    exact yields_insertAs lt le (k := .literal (.number (if negative then x.neg else x)))
      (TypeKind.keyed_of_object?_eq_none rfl)
  | none => exact Yields.fail _ _

theorem yields_primaryOf (hscope : ScopeYields p env.scope) (hp : position < env.file.size) (k : Kind) :
    Yields p Anything (primaryOf env position hp later k) := by
  have hplain : ∀ {next : Nat} (lt : position < next) (le : next ≤ env.file.size) (l : Literal),
      Yields p Anything (insertAs env.file position next lt le (.literal l)) :=
    fun lt le l => yields_insertAs lt le (TypeKind.keyed_of_object?_eq_none rfl)
  cases k with
  | lparen => exact yields_parenthesized hlater hp
  | lbrace => exact (yields_objectBody hlater).bind fun body hbody => yields_insertAs _ _ hbody.kind
  | lbracket =>
    exact (yields_tupleRest hlater hp _ _ []).bind fun elements _ =>
      yields_insertAs _ _ (TypeKind.keyed_of_object?_eq_none rfl)
  | str => exact hplain _ _ _
  | template => exact Yields.ite (fun _ => Yields.fail _ _) fun _ => hplain _ _ _
  | number => exact yields_insertNumber _ _ position false
  | minus => exact Yields.dite (fun _ => yields_insertNumber _ _ (position + 1) true) fun _ => Yields.fail _ _
  | bigInt => exact hplain _ _ _
  | ident => exact yields_named hlater hscope hp
  | _ => exact Yields.fail _ _

theorem yields_primary (hscope : ScopeYields p env.scope) : Yields p Anything (primary env position later) := by
  cases hk : env.file.kind? position with
  | none =>
    rw [primary_of_none env later hk]
    exact Yields.fail _ _
  | some k =>
    rw [primary_of_some env later hk]
    exact yields_primaryOf hlater hscope _ k

omit hlater in
theorem yields_arraySuffix (q : Nat) (lt : position < q) (le : q ≤ env.file.size) (type : TypeId) :
    Yields p Anything (arraySuffix env.file position q lt le type) := by
  fun_induction arraySuffix env.file position q lt le type with
  | case1 q lt le type hopen hclose ih =>
    exact (Yields.onTable (TableYields.plain rfl)).bind fun array _ => ih array
  | case2 q lt le type hopen hclose =>
    exact Yields.fail _ _
  | case3 q lt le type hopen =>
    exact Yields.pure trivial

end

section

variable (hscope : ScopeYields p env.scope)

include hscope

theorem yields_postfixType {later : Later env.file position} (hlater : ∀ q h, Yields p Anything (later q h)) :
    Yields p Anything (postfixType env position later) :=
  have hbase : Yields p Anything (primary env _ (later.mono (le_skipReadonly env.file position))) :=
    yields_primary (fun q _ => hlater q _) hscope
  hbase.bind fun base _ => yields_arraySuffix base.next _ _ _

theorem yields_intersectionType {later : Later env.file position} (hlater : ∀ q h, Yields p Anything (later q h)) :
    Yields p Anything (intersectionType env position later) := by
  refine (yields_separated fun q h => ?_).bind fun members _ => yields_sole TableYields.intersection
  exact yields_postfixType hscope fun r _ => hlater r _

theorem yields_unionType {later : Later env.file position} (hlater : ∀ q h, Yields p Anything (later q h)) :
    Yields p Anything (unionType env position later) := by
  refine (yields_separated fun q h => ?_).bind fun members _ => yields_sole TableYields.union
  exact yields_intersectionType hscope fun r _ => hlater r _

theorem yields_typeAt (q : Nat) : Yields p Anything (typeAt env q) := by
  induction hn : env.file.size - q using Nat.strongRecOn generalizing q with
  | ind n ih =>
    rw [typeAt]
    refine (yields_unionType hscope fun r hr => ih (env.file.size - r) (by omega) r rfl).bind fun type _ => ?_
    exact Yields.ite (fun _ => Yields.fail _ _) fun _ => Yields.pure trivial

theorem yields_objectAt (q : Nat) :
    Yields p (fun r : Parsed env.file q ObjectType => r.value.Keyed) (objectAt env q) :=
  yields_objectBody fun r _ => yields_typeAt hscope r

theorem yields_heritageRest (q : Nat) (bases : List TypeId) : Yields p Anything (heritageRest env q bases) := by
  fun_induction heritageRest env q bases with
  | case1 q bases ih =>
    refine (yields_postfixType hscope fun r _ => yields_typeAt hscope r).bind fun base _ => ?_
    exact Yields.dite (fun hc => ih base hc) fun _ => Yields.pure trivial

theorem yields_heritageAt (q : Nat) : Yields p Anything (heritageAt env q) :=
  Yields.ite (fun _ => yields_heritageRest hscope _ _) fun _ => Yields.pure trivial

end

/-! ### Declarations -/

section

variable {f : File} {scope : Scope} (hscope : ScopeYields p scope)

include hscope

theorem yields_bindParameters (ps : List Parameter) (bound : Bindings) (args : List TypeId) :
    Yields p Anything (bindParameters f scope bound ps args) := by
  induction ps generalizing bound args with
  | nil => exact Yields.pure trivial
  | cons q ps ih =>
    cases args with
    | cons arg args => exact ih _ _
    | nil =>
      unfold bindParameters
      cases q.default? with
      | some start =>
        have htype : Yields p Anything (typeAt ⟨f, scope, bound⟩ start) := yields_typeAt hscope start
        have hread := Yields.adaptExcept (·.cause) htype
        exact (hread.bind fun type _ => Yields.pure (Q := Anything) trivial).bind fun type _ => ih _ _
      | none => exact (Yields.onTable (TableYields.plain rfl)).bind fun type _ => ih _ _

theorem yields_boundParameters (token : Nat) (args : List TypeId) :
    Yields p Anything (boundParameters f scope token args) := by
  unfold boundParameters
  cases parameters? f (token + 1) with
  | none => exact Yields.throw _
  | some read => exact (yields_bindParameters hscope _ _ _).bind fun bound _ => Yields.pure trivial

theorem yields_aliasBody (token : Nat) (args : List TypeId) :
    Yields p Anything (aliasBody f scope token args) := by
  unfold aliasBody
  cases parameters? f (token + 1) with
  | none => exact Yields.throw _
  | some read =>
    refine Yields.ite (fun _ => ?_) fun _ => Yields.throw _
    refine (yields_bindParameters hscope _ _ _).bind fun bound _ => ?_
    exact (Yields.adaptExcept _ (yields_typeAt hscope _)).bind fun type _ => Yields.pure trivial

theorem yields_interfacePart (token : Nat) (args : List TypeId) :
    Yields p (fun part : ObjectType × List TypeId => part.1.Keyed) (interfacePart f scope token args) := by
  refine (yields_boundParameters hscope token args).bind fun bound _ => ?_
  refine (Yields.adaptExcept _ (yields_heritageAt hscope _)).bind fun bases _ => ?_
  exact (Yields.adaptExcept _ (yields_objectAt hscope _)).bind fun object hobject => Yields.pure hobject

theorem yields_interfaceParts (args : List TypeId) {merged : ObjectType} (hmerged : merged.Keyed)
    (bases : List TypeId) (decls : List (Decl TypeForm)) :
    Yields p (fun parts : ObjectType × List TypeId => parts.1.Keyed)
      (interfaceParts f scope args merged bases decls) := by
  induction decls generalizing merged bases with
  | nil => exact Yields.pure hmerged
  | cons d ds ih =>
    unfold interfaceParts
    refine (yields_interfacePart hscope d.token args).bind fun part _ => ?_
    obtain ⟨body, more⟩ := part
    apply ih
    exact keyed_inherit hmerged body.properties

theorem yields_interfaceBody (name : String) (decls : List (Decl TypeForm)) (args : List TypeId) :
    Yields p Anything (interfaceBody f scope name decls args) := by
  unfold interfaceBody
  apply Yields.bind (yields_interfaceParts hscope args _ [] _)
  · intro parts hparts
    obtain ⟨merged, bases⟩ := parts
    refine Yields.bind_get fun s => ?_
    exact Yields.onTable (TableYields.insert (keyed_withBases hparts bases).kind)
  · exact List.nodup_nil

end

theorem yields_enumMembers (current : Nat) (name : String) : Yields p Anything (enumMembers p current name) := by
  intro s
  have hmoves : Moves p s (stateAfter (enumMembers p current name s)) := .enum (.refl s) current name
  cases hres : enumMembers p current name s with
  | ok members t =>
    rw [hres] at hmoves
    exact ⟨hmoves, trivial⟩
  | error e t =>
    rw [hres] at hmoves
    exact hmoves

theorem yields_enumMember (current : Nat) (qualifier member : String) :
    Yields p Anything (enumMember p current qualifier member) := by
  refine (yields_enumMembers current qualifier).bind fun members _ => ?_
  split
  · exact Yields.pure trivial
  · exact Yields.throw _

theorem yields_declarationBody {resolver : Resolver}
    (hresolver : ∀ current name args, Yields p Anything (resolver current name args)) (name : String)
    (decls : List (Decl TypeForm)) (first : Decl TypeForm) (args : List TypeId) :
    Yields p Anything (declarationBody p resolver name decls first args) := by
  have hscope : ScopeYields p (scopeOf p resolver first.file) := ⟨hresolver first.file, yields_enumMember first.file⟩
  unfold declarationBody
  cases first.form with
  | typeAlias => exact yields_aliasBody hscope _ _
  | interface => exact yields_interfaceBody hscope _ _ _
  | enum => exact (yields_enumMembers first.file name).bind fun members _ => Yields.onTable (TableYields.union _)

theorem yields_defineInstance {inst : Instance} {body : Reading TypeId} (hbody : Yields p Anything body)
    {s : TypeState} (hnew : s.memo.lookup inst = none) :
    Moved p Anything s (defineInstance inst body s) := by
  have hread := hbody (s.reserve inst)
  rw [defineInstance_apply]
  cases hres : body (s.reserve inst) with
  | ok type t =>
    rw [hres] at hread
    exact ⟨.define (.refl s) hnew hread.1 type, trivial⟩
  | error e t =>
    rw [hres] at hread
    exact Moves.forget (.refl s) hnew hread

theorem yields_resolveStep
    (body : Option (String → List (Decl TypeForm) → Decl TypeForm → List TypeId → Reading TypeId))
    (hbody : ∀ read, body = some read → ∀ name decls first args, Yields p Anything (read name decls first args))
    (current : Nat) (name : String) (args : List TypeId) :
    Yields p Anything (resolveStep p body current name args) := by
  intro s
  rw [resolveStep_apply]
  cases hmemo : s.memo.lookup (name, args) with
  | some type => exact ⟨.refl s, trivial⟩
  | none =>
    cases p.typesNamed name current with
    | nil =>
      cases hbuiltin : Builtin.lookup? name args with
      | none => exact Moves.refl s
      | some build => exact Yields.onTable (ε := TypeError) (yields_builtin hbuiltin) s
    | cons first rest =>
      cases body with
      | none => exact Moves.refl s
      | some read => exact yields_defineInstance (hbody read rfl name (first :: rest) first args) hmemo

/-- Resolving a name only makes moves. -/
theorem yields_resolveWithin (levels current : Nat) (name : String) (args : List TypeId) :
    Yields p Anything (resolveWithin p levels current name args) := by
  induction levels generalizing current name args with
  | zero => exact yields_resolveStep none (fun _ h => nomatch h) current name args
  | succ levels ih =>
    refine yields_resolveStep _ ?_ current name args
    rintro read ⟨rfl⟩ name decls first args
    exact yields_declarationBody ih name decls first args

theorem yields_topScope (current : Nat) : ScopeYields p (topScope p current) :=
  ⟨fun name args => yields_resolveWithin maxNesting current name args, yields_enumMember current⟩

end

end SchemaSplice.Declaration
