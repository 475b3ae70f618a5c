import SchemaSplice.Annotation.Parser
/-!
# Transporting readings

A reading moves from one state to another when the types of the second are those of the first under a renaming of
ids. `Tracks` says that of two readings: started in related states, the second does what the first does, up to
the renaming. Its rules follow the way readings are put together; the table operations are covered here, the
reader itself in the next module.
-/

namespace SchemaSplice.Types

/-! ### Renaming ids -/

section

variable (φ : TypeId → TypeId)

def Property.mapIds (p : Property) : Property := { p with type := φ p.type }

def Element.mapIds (e : Element) : Element := { e with type := φ e.type }

def ObjectType.mapIds (o : ObjectType) : ObjectType where
  symbol := o.symbol
  aliased := o.aliased.map fun a => { a with args := a.args.map φ }
  typeArgs := o.typeArgs.map φ
  properties := o.properties.map (Property.mapIds φ)
  calls := o.calls.map φ

def TypeKind.mapIds : TypeKind → TypeKind
  | union ms => union (ms.map φ)
  | intersection ms => intersection (ms.map φ)
  | array e => array (e.map φ)
  | tuple es => tuple (es.map (Element.mapIds φ))
  | object o => object (o.mapIds φ)
  | k => k

theorem ObjectType.addProperty_mapIds (o : ObjectType) (p : Property) :
    (o.addProperty p).mapIds φ = (o.mapIds φ).addProperty (p.mapIds φ) := by
  have hany : (o.mapIds φ).properties.any (·.key == (p.mapIds φ).key) =
      o.properties.any (·.key == p.key) := by
    rw [mapIds, List.any_map]
    rfl
  by_cases h : o.properties.any (·.key == p.key) = true
  · rw [addProperty, if_pos h, addProperty, if_pos (hany.trans h)]
  · rw [addProperty, if_neg h, addProperty, if_neg (by rw [hany]; exact h)]
    simp [mapIds]

theorem TypeKind.agrees_mapIds (a b : TypeKind) : (a.mapIds φ).agrees (b.mapIds φ) = a.agrees b := by
  cases a <;> cases b <;> rfl

theorem TypeKind.union?_mapIds (k : TypeKind) : (k.mapIds φ).union? = k.union?.map (List.map φ) := by
  cases k <;> rfl

theorem TypeKind.intersection?_mapIds (k : TypeKind) :
    (k.mapIds φ).intersection? = k.intersection?.map (List.map φ) := by
  cases k <;> rfl

end

theorem ObjectType.mapIds_id (o : ObjectType) : o.mapIds id = o := by
  have hproperty : Property.mapIds id = id := rfl
  cases o with
  | mk symbol aliased typeArgs properties calls =>
    simp only [mapIds, hproperty, List.map_id, ObjectType.mk.injEq, and_true, true_and]
    cases aliased <;> simp

theorem TypeKind.mapIds_id (k : TypeKind) : k.mapIds id = k := by
  have helement : Element.mapIds id = id := rfl
  cases k with
  | object o => rw [mapIds, ObjectType.mapIds_id]
  | array e => cases e <;> rfl
  | tuple es => rw [mapIds, helement, List.map_id]
  | union ms => rw [mapIds, List.map_id]
  | intersection ms => rw [mapIds, List.map_id]
  | _ => rfl

/-! ### Unions and intersections as functions of the table -/

namespace Table

/-- A single member stands for itself; any other members are put together by `build`. -/
def soleOr (build : List TypeId → TypeKind) : List TypeId → TableM TypeId
  | [only] => return only
  | many => insert (build many)

theorem widenFlags_apply (ms : List TypeId) (t : Table) :
    widenFlags ms t =
      let isAnyFlag := fun m => t.isFlag true m || t.isFlag false m
      let others := ms.filter (!isAnyFlag ·)
      let front := ms.takeWhile (!isAnyFlag ·)
      if ms.any (t.isFlag true) && ms.any (t.isFlag false) then
        if others.any (t.isKind · .boolean) then (others, t)
        else (front ++ ⟨t.size⟩ :: others.drop front.length, (insert .boolean t).2)
      else (ms, t) := by
  simp only [widenFlags, bind, StateT.bind, get, getThe, MonadStateOf.get, StateT.get, pure]
  split
  · split
    · rfl
    · rfl
  · rfl

theorem union_apply (ms : List TypeId) (t : Table) :
    union ms t =
      soleOr .union (widenFlags (t.dedupe [] (t.flattenUnion ms)) t).1
        (widenFlags (t.dedupe [] (t.flattenUnion ms)) t).2 := by
  simp only [union, bind, StateT.bind, get, getThe, MonadStateOf.get, StateT.get, pure]
  generalize widenFlags (t.dedupe [] (t.flattenUnion ms)) t = r
  obtain ⟨ms, t⟩ := r
  match ms with
  | [] => rfl
  | [only] => rfl
  | a :: b :: rest => rfl

theorem intersection_apply (ms : List TypeId) (t : Table) :
    intersection ms t =
      soleOr .intersection (ms.flatMap fun m => ((t.kind m).intersection?).getD [m]) t := by
  simp only [intersection, bind, StateT.bind, get, getThe, MonadStateOf.get, StateT.get, pure]
  generalize (ms.flatMap fun m => ((t.kind m).intersection?).getD [m]) = ms
  match ms with
  | [] => rfl
  | [only] => rfl
  | a :: b :: rest => rfl

end Table

end SchemaSplice.Types

namespace SchemaSplice.Annotation

open SchemaSplice.Types

/-! ### Ids in what is read -/

/-- Values with types in them. -/
class HasIds (α : Type) where
  /-- The types in a value. -/
  ids : α → List TypeId

open HasIds

instance : HasIds TypeId := ⟨fun id => [id]⟩

instance : HasIds String := ⟨fun _ => []⟩

instance : HasIds Nat := ⟨fun _ => []⟩

instance : HasIds Unit := ⟨fun _ => []⟩

instance {α : Type} [HasIds α] : HasIds (List α) := ⟨fun as => as.flatMap ids⟩

instance {α β : Type} [HasIds α] [HasIds β] : HasIds (α × β) := ⟨fun ab => ids ab.1 ++ ids ab.2⟩

instance : HasIds PropertyKey := ⟨fun _ => []⟩

instance : HasIds Element := ⟨fun e => [e.type]⟩

instance : HasIds Property := ⟨fun p => [p.type]⟩

instance : HasIds ObjectType :=
  ⟨fun o => ((o.aliased.map (·.args)).getD []) ++ (o.typeArgs ++ (ids o.properties ++ o.calls))⟩

instance : HasIds TypeKind :=
  ⟨fun
    | .union ms => ms
    | .intersection ms => ms
    | .array e => e.toList
    | .tuple es => ids es
    | .object o => ids o
    | _ => []⟩

@[simp] theorem mem_ids_typeId {a b : TypeId} : a ∈ ids b ↔ a = b := List.mem_singleton

@[simp] theorem mem_ids_list {α : Type} [HasIds α] {as : List α} {a : TypeId} :
    a ∈ ids as ↔ ∃ x ∈ as, a ∈ ids x := List.mem_flatMap

@[simp] theorem ids_list_typeId (as : List TypeId) : ids as = as := by
  induction as with
  | nil => rfl
  | cons a as ih => exact congrArg (a :: ·) ih

/-! ### Related states -/

/-- The kinds that reading an annotation adds to a table. -/
def Readable : TypeKind → Prop
  | .pending => False
  | .enumLiteral .. => False
  | .literal (.bigInt digits) => ∀ c ∈ digits.toList, c.isDigit = true
  | _ => True

def TypeState.insert (s : TypeState) (k : TypeKind) : TypeState :=
  { s with table := { s.table with slots := s.table.slots.push (.kind k) } }

/-- A relation of states that reading keeps: the types of the second state are those of the first, renamed. The types of the
first state that may be used are told by `valid`; they lead only to such types, and new ones are among them. -/
structure Transport (φ : TypeId → TypeId) (R : TypeState → TypeState → Prop)
    (valid : TypeState → TypeId → Prop) : Prop where
  injective : ∀ a b, φ a = φ b → a = b
  kind : ∀ {s s'}, R s s' → ∀ id, s'.table.kind (φ id) = (s.table.kind id).mapIds φ
  insert : ∀ {s s'}, R s s' → ∀ k, Readable k → (∀ id ∈ ids k, valid s id) →
    R (s.insert k) (s'.insert (k.mapIds φ))
  fresh : ∀ {s s'}, R s s' → φ ⟨s.table.size⟩ = ⟨s'.table.size⟩
  valid_kind : ∀ {s s'}, R s s' → ∀ id, valid s id → ∀ a ∈ ids (s.table.kind id), valid s a
  valid_fresh : ∀ {s s'}, R s s' → ∀ k, Readable k → (∀ id ∈ ids k, valid s id) →
    valid (s.insert k) ⟨s.table.size⟩
  valid_insert : ∀ {s s'}, R s s' → ∀ k, Readable k → (∀ id ∈ ids k, valid s id) →
    ∀ id, valid s id → valid (s.insert k) id

/-- From related states where the types of `Γ` are valid, what the first reading finds is valid and is found by the second
one, renamed by `F`. Valid types stay so. Failures are related too if `strict`. -/
def Tracks (R : TypeState → TypeState → Prop) (valid : TypeState → TypeId → Prop) (strict : Prop)
    (Γ : List TypeId) {ε α β : Type} [HasIds α] (F : α → β) (m : EStateM ε TypeState α)
    (m' : EStateM ε TypeState β) : Prop :=
  ∀ s s', R s s' → (∀ id ∈ Γ, valid s id) →
    match m s with
    | .ok a t => (∀ id, valid s id → valid t id) ∧ (∀ id ∈ ids a, valid t id) ∧
        ∃ t', m' s' = .ok (F a) t' ∧ R t t'
    | .error e t => (∀ id, valid s id → valid t id) ∧ (strict → ∃ t', m' s' = .error e t' ∧ R t t')

namespace Tracks

variable {R : TypeState → TypeState → Prop} {valid : TypeState → TypeId → Prop} {strict : Prop}
  {Γ Δ : List TypeId} {ε α β γ δ : Type} [HasIds α] [HasIds γ]

theorem weaken {F : α → β} {m : EStateM ε TypeState α} {m' : EStateM ε TypeState β}
    (h : Tracks R valid strict Γ F m m') (hΓ : ∀ id ∈ Γ, id ∈ Δ) : Tracks R valid strict Δ F m m' := by
  intro s s' hs hΔ
  exact h s s' hs fun id hid => hΔ id (hΓ id hid)

theorem pure (F : α → β) {a : α} (ha : ∀ id ∈ ids a, id ∈ Γ) :
    Tracks (ε := ε) R valid strict Γ F (pure a) (pure (F a)) := by
  intro s s' h hΓ
  exact ⟨fun _ hid => hid, fun id hid => hΓ id (ha id hid), s', rfl, h⟩

theorem pure_of_eq {F : α → β} {a : α} {b : β} (h : F a = b) (ha : ∀ id ∈ ids a, id ∈ Γ) :
    Tracks (ε := ε) R valid strict Γ F (Pure.pure a) (Pure.pure b) := by
  rw [← h]
  exact Tracks.pure F ha

theorem throw (F : α → β) (e : ε) :
    Tracks R valid strict Γ F (MonadExcept.throw e : EStateM ε TypeState α) (MonadExcept.throw e) := by
  intro s s' h _
  exact ⟨fun _ hid => hid, fun _ => ⟨s', rfl, h⟩⟩

theorem bind {F : α → β} {G : γ → δ} {m : EStateM ε TypeState α} {m' : EStateM ε TypeState β}
    {k : α → EStateM ε TypeState γ} {k' : β → EStateM ε TypeState δ} (hm : Tracks R valid strict Γ F m m')
    (hk : ∀ a, Tracks R valid strict (ids a ++ Γ) G (k a) (k' (F a))) :
    Tracks R valid strict Γ G (m >>= k) (m' >>= k') := by
  intro s s' h hΓ
  have hms := hm s s' h hΓ
  show match EStateM.bind m k s with
    | .ok a t => (∀ id, valid s id → valid t id) ∧ (∀ id ∈ ids a, valid t id) ∧
        ∃ t', EStateM.bind m' k' s' = .ok (G a) t' ∧ R t t'
    | .error e t => (∀ id, valid s id → valid t id) ∧
        (strict → ∃ t', EStateM.bind m' k' s' = .error e t' ∧ R t t')
  unfold EStateM.bind
  cases hres : m s with
  | ok a t =>
    rw [hres] at hms
    obtain ⟨hkeep, ha, t', hm', ht⟩ := hms
    have hka := hk a t t' ht fun id hid => (List.mem_append.mp hid).elim (ha id) fun h => hkeep id (hΓ id h)
    simp only [hm']
    cases hres' : k a t with
    | ok b u =>
      rw [hres'] at hka
      obtain ⟨hkeep', hb, hrest⟩ := hka
      exact ⟨fun id hid => hkeep' id (hkeep id hid), hb, hrest⟩
    | error e u =>
      rw [hres'] at hka
      obtain ⟨hkeep', hrest⟩ := hka
      exact ⟨fun id hid => hkeep' id (hkeep id hid), hrest⟩
  | error e t =>
    rw [hres] at hms
    obtain ⟨hkeep, hrest⟩ := hms
    refine ⟨hkeep, fun hstrict => ?_⟩
    obtain ⟨t', hm', ht⟩ := hrest hstrict
    simp only [hm']
    exact ⟨t', rfl, ht⟩

theorem bind_get {G : γ → δ} {k : TypeState → EStateM ε TypeState γ}
    {k' : TypeState → EStateM ε TypeState δ}
    (hk : ∀ s s', R s s' → (∀ id ∈ Γ, valid s id) →
      ∃ Δ, (∀ id ∈ Δ, valid s id) ∧ Tracks R valid strict Δ G (k s) (k' s')) :
    Tracks R valid strict Γ G (get >>= k) (get >>= k') := by
  intro s s' hs hΓ
  obtain ⟨Δ, hΔ, htracks⟩ := hk s s' hs hΓ
  exact htracks s s' hs hΔ

theorem ite {F : α → β} {c : Prop} [Decidable c] {m k : EStateM ε TypeState α}
    {m' k' : EStateM ε TypeState β} (hm : c → Tracks R valid strict Γ F m m')
    (hk : ¬c → Tracks R valid strict Γ F k k') :
    Tracks R valid strict Γ F (if c then m else k) (if c then m' else k') := by
  by_cases h : c
  · rw [if_pos h, if_pos h]
    exact hm h
  · rw [if_neg h, if_neg h]
    exact hk h

theorem dite {F : α → β} {c : Prop} [Decidable c] {m : c → EStateM ε TypeState α}
    {k : ¬c → EStateM ε TypeState α} {m' : c → EStateM ε TypeState β} {k' : ¬c → EStateM ε TypeState β}
    (hm : ∀ h, Tracks R valid strict Γ F (m h) (m' h)) (hk : ∀ h, Tracks R valid strict Γ F (k h) (k' h)) :
    Tracks R valid strict Γ F (if h : c then m h else k h) (if h : c then m' h else k' h) := by
  by_cases h : c
  · rw [dif_pos h, dif_pos h]
    exact hm h
  · rw [dif_neg h, dif_neg h]
    exact hk h

theorem adaptExcept {ε' : Type} {F : α → β} {m : EStateM ε TypeState α} {m' : EStateM ε TypeState β} (g : ε → ε')
    (h : Tracks R valid strict Γ F m m') :
    Tracks R valid strict Γ F (m.adaptExcept g) (m'.adaptExcept g) := by
  intro s s' hs hΓ
  have hm := h s s' hs hΓ
  unfold EStateM.adaptExcept
  cases hres : m s with
  | ok a t =>
    rw [hres] at hm
    obtain ⟨hkeep, ha, t', hm', ht⟩ := hm
    simp only [hm']
    exact ⟨hkeep, ha, t', rfl, ht⟩
  | error e t =>
    rw [hres] at hm
    obtain ⟨hkeep, hrest⟩ := hm
    refine ⟨hkeep, fun hstrict => ?_⟩
    obtain ⟨t', hm', ht⟩ := hrest hstrict
    simp only [hm']
    exact ⟨t', rfl, ht⟩

theorem of_onTable {F : α → β} {change : TableM α} {change' : TableM β}
    (h : ∀ s s', R s s' → (∀ id ∈ Γ, valid s id) →
      (∀ id, valid s id → valid { s with table := (change s.table).2 } id) ∧
      (∀ id ∈ ids (change s.table).1, valid { s with table := (change s.table).2 } id) ∧
      (change' s'.table).1 = F (change s.table).1 ∧
      R { s with table := (change s.table).2 } { s' with table := (change' s'.table).2 }) :
    Tracks (ε := ε) R valid strict Γ F (onTable change) (onTable change') := by
  intro s s' hs hΓ
  obtain ⟨hkeep, hids, hval, hstate⟩ := h s s' hs hΓ
  refine ⟨hkeep, hids, { s' with table := (change' s'.table).2 }, ?_, hstate⟩
  rw [← hval]
  rfl

end Tracks

/-! ### Unions and intersections -/

section

variable {φ : TypeId → TypeId} {t t' : Table}

theorem same_map (hφ : ∀ a b, φ a = φ b → a = b)
    (hkind : ∀ id, t'.kind (φ id) = (t.kind id).mapIds φ) (a b : TypeId) :
    t'.same (φ a) (φ b) = t.same a b := by
  have heq : (φ a == φ b) = (a == b) := by
    rw [Bool.eq_iff_iff, beq_iff_eq, beq_iff_eq]
    exact ⟨hφ a b, congrArg φ⟩
  rw [Table.same, Table.same, hkind, hkind, TypeKind.agrees_mapIds, heq]

theorem dedupe_map (hφ : ∀ a b, φ a = φ b → a = b)
    (hkind : ∀ id, t'.kind (φ id) = (t.kind id).mapIds φ) (kept ms : List TypeId) :
    t'.dedupe (kept.map φ) (ms.map φ) = (t.dedupe kept ms).map φ := by
  induction ms generalizing kept with
  | nil => rfl
  | cons m ms ih =>
    have hany : (kept.map φ).any (t'.same · (φ m)) = kept.any (t.same · m) := by
      rw [List.any_map]
      exact congrArg (kept.any ·) (funext fun k => same_map hφ hkind k m)
    rw [List.map_cons, Table.dedupe, Table.dedupe, hany]
    split
    · exact ih kept
    · rw [← ih, List.map_append, List.map_singleton]

theorem flattenUnion_map (hkind : ∀ id, t'.kind (φ id) = (t.kind id).mapIds φ) (ms : List TypeId) :
    t'.flattenUnion (ms.map φ) = (t.flattenUnion ms).map φ := by
  rw [Table.flattenUnion, Table.flattenUnion, List.flatMap_map, List.map_flatMap]
  refine congrArg (List.flatMap · ms) (funext fun m => ?_)
  rw [hkind, TypeKind.union?_mapIds]
  cases (t.kind m).union? <;> rfl

theorem beq_mapIds_of_atomic (k : TypeKind) {atom : TypeKind} (h : ∀ k : TypeKind, k.mapIds φ = atom → k = atom)
    (hatom : atom.mapIds φ = atom) : (k.mapIds φ == atom) = (k == atom) := by
  rw [Bool.eq_iff_iff, beq_iff_eq, beq_iff_eq]
  refine ⟨h k, ?_⟩
  rintro rfl
  exact hatom

theorem isFlag_map (hkind : ∀ id, t'.kind (φ id) = (t.kind id).mapIds φ) (value : Bool) (m : TypeId) :
    t'.isFlag value (φ m) = t.isFlag value m := by
  rw [Table.isFlag, Table.isFlag, hkind]
  exact beq_mapIds_of_atomic _ (fun k hk => by cases k <;> simp_all [TypeKind.mapIds]) rfl

theorem isKind_boolean_map (hkind : ∀ id, t'.kind (φ id) = (t.kind id).mapIds φ) (m : TypeId) :
    t'.isKind (φ m) .boolean = t.isKind m .boolean := by
  rw [Table.isKind, Table.isKind, hkind]
  exact beq_mapIds_of_atomic _ (fun k hk => by cases k <;> simp_all [TypeKind.mapIds]) rfl

end

theorem mem_dedupe {t : Table} {kept ms : List TypeId} {id : TypeId} (h : id ∈ t.dedupe kept ms) :
    id ∈ kept ∨ id ∈ ms := by
  induction ms generalizing kept with
  | nil => exact Or.inl h
  | cons m ms ih =>
    unfold Table.dedupe at h
    split at h
    · exact (ih h).imp_right (List.mem_cons_of_mem m)
    · rcases ih h with hkept | hms
      · rcases List.mem_append.mp hkept with hkept | hm
        · exact Or.inl hkept
        · exact Or.inr (List.mem_cons.mpr (Or.inl (List.mem_singleton.mp hm)))
      · exact Or.inr (List.mem_cons_of_mem m hms)

theorem mem_ids_of_union? {k : TypeKind} {ms : List TypeId} (h : k.union? = some ms) : ids k = ms := by
  cases k <;> cases h
  rfl

theorem mem_ids_of_intersection? {k : TypeKind} {ms : List TypeId} (h : k.intersection? = some ms) :
    ids k = ms := by
  cases k <;> cases h
  rfl

section

variable {φ : TypeId → TypeId} {R : TypeState → TypeState → Prop} {valid : TypeState → TypeId → Prop}
  {strict : Prop} {Γ : List TypeId} {ε : Type}

theorem Tracks.insert (T : Transport φ R valid) {k : TypeKind} (hk : Readable k)
    (hids : ∀ id ∈ ids k, id ∈ Γ) :
    Tracks (ε := ε) R valid strict Γ φ (onTable (Table.insert k)) (onTable (Table.insert (k.mapIds φ))) := by
  apply Tracks.of_onTable
  intro s s' hs hΓ
  have hvalid : ∀ id ∈ ids k, valid s id := fun id hid => hΓ id (hids id hid)
  refine ⟨T.valid_insert hs k hk hvalid, ?_, (T.fresh hs).symm, T.insert hs k hk hvalid⟩
  intro id hid
  rw [mem_ids_typeId] at hid
  rw [hid]
  exact T.valid_fresh hs k hk hvalid

theorem Tracks.function (T : Transport φ R valid) {result : TypeId} (hresult : result ∈ Γ) :
    Tracks (ε := ε) R valid strict Γ φ (onTable (Table.function result))
      (onTable (Table.function (φ result))) := by
  apply Tracks.insert T (k := .object { calls := [result] }) trivial
  intro id hid
  rw [List.mem_singleton.mp hid]
  exact hresult

theorem soleOr_tracks (T : Transport φ R valid) (build : List TypeId → TypeKind)
    (hbuild : ∀ l, (build l).mapIds φ = build (l.map φ)) (hread : ∀ l, Readable (build l))
    (hids : ∀ l, ids (build l) = l) (ms : List TypeId) {s s' : TypeState} (hs : R s s')
    (hms : ∀ id ∈ ms, valid s id) :
    (∀ id, valid s id → valid { s with table := (Table.soleOr build ms s.table).2 } id) ∧
      (∀ id ∈ ids (Table.soleOr build ms s.table).1,
        valid { s with table := (Table.soleOr build ms s.table).2 } id) ∧
      (Table.soleOr build (ms.map φ) s'.table).1 = φ (Table.soleOr build ms s.table).1 ∧
      R { s with table := (Table.soleOr build ms s.table).2 }
        { s' with table := (Table.soleOr build (ms.map φ) s'.table).2 } := by
  have hvalid : ∀ id ∈ ids (build ms), valid s id := by
    rw [hids]
    exact hms
  have hmany := T.insert hs (build ms) (hread ms) hvalid
  have hkeep := T.valid_insert hs (build ms) (hread ms) hvalid
  have hnew := T.valid_fresh hs (build ms) (hread ms) hvalid
  rw [hbuild] at hmany
  match ms with
  | [only] => exact ⟨fun _ hid => hid, hms, rfl, hs⟩
  | [] =>
    refine ⟨hkeep, ?_, (T.fresh hs).symm, hmany⟩
    intro id hid
    rw [List.mem_singleton.mp hid]
    exact hnew
  | _ :: _ :: _ =>
    refine ⟨hkeep, ?_, (T.fresh hs).symm, hmany⟩
    intro id hid
    rw [List.mem_singleton.mp hid]
    exact hnew

theorem widenFlags_tracks (T : Transport φ R valid) (ms : List TypeId) {s s' : TypeState} (hs : R s s')
    (hms : ∀ id ∈ ms, valid s id) :
    (∀ id, valid s id → valid { s with table := (Table.widenFlags ms s.table).2 } id) ∧
      (∀ id ∈ (Table.widenFlags ms s.table).1,
        valid { s with table := (Table.widenFlags ms s.table).2 } id) ∧
      (Table.widenFlags (ms.map φ) s'.table).1 = (Table.widenFlags ms s.table).1.map φ ∧
      R { s with table := (Table.widenFlags ms s.table).2 }
        { s' with table := (Table.widenFlags (ms.map φ) s'.table).2 } := by
  have hflag := isFlag_map (T.kind hs)
  have hany : ∀ value, (ms.map φ).any (s'.table.isFlag value) = ms.any (s.table.isFlag value) := by
    intro value
    rw [List.any_map]
    exact congrArg (ms.any ·) (funext (hflag value))
  have hpred : (fun m => !(s'.table.isFlag true m || s'.table.isFlag false m)) ∘ φ =
      fun m => !(s.table.isFlag true m || s.table.isFlag false m) := by
    funext m
    simp only [Function.comp_apply, hflag]
  have hbool : ((fun m => s'.table.isKind m .boolean) ∘ φ) = fun m => s.table.isKind m .boolean :=
    funext (isKind_boolean_map (T.kind hs))
  have hkeep := T.valid_insert hs .boolean trivial (fun _ h => nomatch h)
  rw [Table.widenFlags_apply, Table.widenFlags_apply]
  simp only [hany, List.filter_map, List.takeWhile_map, hpred, List.any_map, hbool]
  split
  · split
    · exact ⟨fun _ hid => hid, fun id hid => hms id (List.mem_filter.mp hid).1, rfl, hs⟩
    · refine ⟨hkeep, ?_, ?_, T.insert hs .boolean trivial (fun _ h => nomatch h)⟩
      · intro id hid
        rcases List.mem_append.mp hid with hid | hid
        · exact hkeep id (hms id ((List.takeWhile_sublist _).mem hid))
        · rcases List.mem_cons.mp hid with rfl | hid
          · exact T.valid_fresh hs .boolean trivial (fun _ h => nomatch h)
          · exact hkeep id (hms id (List.mem_filter.mp (List.mem_of_mem_drop hid)).1)
      · rw [List.map_append, List.map_cons, List.map_drop, T.fresh hs, List.length_map]
  · exact ⟨fun _ hid => hid, hms, rfl, hs⟩

theorem Tracks.union (T : Transport φ R valid) {ms : List TypeId} (hms : ∀ id ∈ ms, id ∈ Γ) :
    Tracks (ε := ε) R valid strict Γ φ (onTable (Table.union ms)) (onTable (Table.union (ms.map φ))) := by
  apply Tracks.of_onTable
  intro s s' hs hΓ
  have hmembers : s'.table.dedupe [] (s'.table.flattenUnion (ms.map φ)) =
      (s.table.dedupe [] (s.table.flattenUnion ms)).map φ := by
    rw [flattenUnion_map (T.kind hs)]
    exact dedupe_map T.injective (T.kind hs) [] _
  have hvalid : ∀ id ∈ s.table.dedupe [] (s.table.flattenUnion ms), valid s id := by
    intro id hid
    obtain ⟨m, hm, hmem⟩ := List.mem_flatMap.mp ((mem_dedupe hid).resolve_left List.not_mem_nil)
    have hvm := hΓ m (hms m hm)
    cases hunion : (s.table.kind m).union? with
    | none =>
      rw [hunion] at hmem
      rw [List.mem_singleton.mp hmem]
      exact hvm
    | some us =>
      rw [hunion] at hmem
      apply T.valid_kind hs m hvm
      rw [mem_ids_of_union? hunion]
      exact hmem
  obtain ⟨hkeep, hwide, hlist, hstate⟩ :=
    widenFlags_tracks T (s.table.dedupe [] (s.table.flattenUnion ms)) hs hvalid
  rw [Table.union_apply, Table.union_apply, hmembers, hlist]
  obtain ⟨hkeep', hrest⟩ :=
    soleOr_tracks T .union (fun _ => rfl) (fun _ => trivial) (fun _ => rfl) _ hstate hwide
  exact ⟨fun id hid => hkeep' id (hkeep id hid), hrest⟩

theorem Tracks.intersection (T : Transport φ R valid) {ms : List TypeId} (hms : ∀ id ∈ ms, id ∈ Γ) :
    Tracks (ε := ε) R valid strict Γ φ (onTable (Table.intersection ms))
      (onTable (Table.intersection (ms.map φ))) := by
  apply Tracks.of_onTable
  intro s s' hs hΓ
  have hmembers : ((ms.map φ).flatMap fun m => ((s'.table.kind m).intersection?).getD [m]) =
      (ms.flatMap fun m => ((s.table.kind m).intersection?).getD [m]).map φ := by
    rw [List.flatMap_map, List.map_flatMap]
    refine congrArg (List.flatMap · ms) (funext fun m => ?_)
    rw [T.kind hs, TypeKind.intersection?_mapIds]
    cases (s.table.kind m).intersection? <;> rfl
  have hvalid : ∀ id ∈ ms.flatMap fun m => ((s.table.kind m).intersection?).getD [m], valid s id := by
    intro id hid
    obtain ⟨m, hm, hmem⟩ := List.mem_flatMap.mp hid
    have hvm := hΓ m (hms m hm)
    cases hinter : (s.table.kind m).intersection? with
    | none =>
      rw [hinter] at hmem
      rw [List.mem_singleton.mp hmem]
      exact hvm
    | some us =>
      rw [hinter] at hmem
      apply T.valid_kind hs m hvm
      rw [mem_ids_of_intersection? hinter]
      exact hmem
  rw [Table.intersection_apply, Table.intersection_apply, hmembers]
  exact soleOr_tracks T .intersection (fun _ => rfl) (fun _ => trivial) (fun _ => rfl) _ hs hvalid

end

end SchemaSplice.Annotation
