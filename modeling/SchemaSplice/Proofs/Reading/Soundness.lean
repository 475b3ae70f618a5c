import SchemaSplice.Declaration.Resolve
import SchemaSplice.Proofs.Reading.Reader
/-!
# Readings that use valid types

A property of states often needs that only some types are used: those of the table, or those that are defined far enough.
`Sound` says of a reading that it keeps such a property and finds types that may be used if its arguments may. It is
what transporting a reading onto itself gives. The reader, the built-in types and the bodies of declarations are sound when
the lookups of their scope are.
-/

namespace SchemaSplice.Annotation

open Source SchemaSplice.Types HasIds

/-- A state that satisfies a property is related to itself. -/
def Same (Inv : TypeState → Prop) (s s' : TypeState) : Prop := s = s' ∧ Inv s

/-- A transport of states onto themselves. -/
theorem transport_self {Inv : TypeState → Prop} {valid : TypeState → TypeId → Prop}
    (insert : ∀ s k, Readable k → (∀ a ∈ ids k, valid s a) → Inv s → Inv (s.insert k))
    (kind : ∀ s, Inv s → ∀ id, valid s id → ∀ a ∈ ids (s.table.kind id), valid s a)
    (fresh : ∀ s k, Readable k → (∀ a ∈ ids k, valid s a) → Inv s → valid (s.insert k) ⟨s.table.size⟩)
    (keep : ∀ s k, Inv s → ∀ id, valid s id → valid (s.insert k) id) : Transport id (Same Inv) valid where
  injective _ _ h := h
  kind := by
    rintro s s' ⟨rfl, -⟩ id
    rw [TypeKind.mapIds_id]
    rfl
  insert := by
    rintro s s' ⟨rfl, hs⟩ k hk hids
    rw [TypeKind.mapIds_id]
    exact ⟨rfl, insert s k hk hids hs⟩
  fresh := by
    rintro s s' ⟨rfl, -⟩
    rfl
  valid_kind h := kind _ h.2
  valid_fresh h k hk hids := fresh _ k hk hids h.2
  valid_insert h k _ _ := keep _ k h.2

/-- What a reading that starts in the state `s` comes to: types that were valid stay so, those that it finds are valid, and
the state has a property, after a failure if `strict`. -/
def Leaves (Inv : TypeState → Prop) (valid : TypeState → TypeId → Prop) (strict : Prop) (s : TypeState)
    {ε α : Type} [HasIds α] : EStateM.Result ε TypeState α → Prop
  | .ok a t => (∀ id, valid s id → valid t id) ∧ (∀ id ∈ ids a, valid t id) ∧ Inv t
  | .error _ t => (∀ id, valid s id → valid t id) ∧ (strict → Inv t)

/-- A reading that may use the types of `Γ` keeps a property of states and finds valid types. -/
def Sound (Inv : TypeState → Prop) (valid : TypeState → TypeId → Prop) (strict : Prop) (Γ : List TypeId)
    {ε α : Type} [HasIds α] (m : EStateM ε TypeState α) : Prop :=
  ∀ s, Inv s → (∀ id ∈ Γ, valid s id) → Leaves Inv valid strict s (m s)

structure ScopeSound (Inv : TypeState → Prop) (valid : TypeState → TypeId → Prop) (strict : Prop)
    (scope : Scope) : Prop where
  named : ∀ name args, Sound Inv valid strict args (scope.named name args)
  member : ∀ qualifier name, Sound Inv valid strict [] (scope.member qualifier name)

section

variable {Inv : TypeState → Prop} {valid : TypeState → TypeId → Prop} {strict : Prop} {Γ Δ : List TypeId}
  {ε α β : Type} [HasIds α] [HasIds β]

/-! ### Rules -/

namespace Sound

theorem of_tracks {γ : Type} {F : α → γ} {m : EStateM ε TypeState α} {m' : EStateM ε TypeState γ}
    (h : Tracks (Same Inv) valid strict Γ F m m') : Sound Inv valid strict Γ m := by
  intro s hs hΓ
  have hms := h s s ⟨rfl, hs⟩ hΓ
  cases hres : m s with
  | ok a t =>
    rw [hres] at hms
    obtain ⟨hkeep, hids, t', -, -, ht⟩ := hms
    exact ⟨hkeep, hids, ht⟩
  | error e t =>
    rw [hres] at hms
    obtain ⟨hkeep, hrest⟩ := hms
    refine ⟨hkeep, fun hstrict => ?_⟩
    obtain ⟨t', -, -, ht⟩ := hrest hstrict
    exact ht

theorem tracks {m : EStateM ε TypeState α} (h : Sound Inv valid strict Γ m) :
    Tracks (Same Inv) valid strict Γ id m m := by
  rintro s s' ⟨rfl, hs⟩ hΓ
  have hms := h s hs hΓ
  cases hres : m s with
  | ok a t =>
    rw [hres] at hms
    exact ⟨hms.1, hms.2.1, t, rfl, rfl, hms.2.2⟩
  | error e t =>
    rw [hres] at hms
    exact ⟨hms.1, fun hstrict => ⟨t, rfl, rfl, hms.2 hstrict⟩⟩

theorem weaken {m : EStateM ε TypeState α} (h : Sound Inv valid strict Γ m) (hΓ : ∀ id ∈ Γ, id ∈ Δ) :
    Sound Inv valid strict Δ m :=
  fun s hs hΔ => h s hs fun id hid => hΔ id (hΓ id hid)

theorem pure {a : α} (ha : ∀ id ∈ ids a, id ∈ Γ) : Sound (ε := ε) Inv valid strict Γ (pure a) :=
  of_tracks (Tracks.pure id ha)

theorem throw (e : ε) : Sound Inv valid strict Γ (MonadExcept.throw e : EStateM ε TypeState α) :=
  of_tracks (Tracks.throw id e)

theorem bind {m : EStateM ε TypeState α} {k : α → EStateM ε TypeState β} (hm : Sound Inv valid strict Γ m)
    (hk : ∀ a, Sound Inv valid strict (ids a ++ Γ) (k a)) : Sound Inv valid strict Γ (m >>= k) :=
  of_tracks (Tracks.bind hm.tracks fun a => (hk a).tracks)

theorem bind_get {k : TypeState → EStateM ε TypeState β}
    (hk : ∀ s, Inv s → (∀ id ∈ Γ, valid s id) →
      ∃ Δ, (∀ id ∈ Δ, valid s id) ∧ Sound Inv valid strict Δ (k s)) :
    Sound Inv valid strict Γ (get >>= k) := by
  intro s hs hΓ
  obtain ⟨Δ, hΔ, hsound⟩ := hk s hs hΓ
  exact hsound s hs hΔ

theorem adaptExcept {ε' : Type} {m : EStateM ε TypeState α} (g : ε → ε') (h : Sound Inv valid strict Γ m) :
    Sound Inv valid strict Γ (m.adaptExcept g) :=
  of_tracks (Tracks.adaptExcept g h.tracks)

end Sound

theorem ScopeSound.tracks {f : File} {scope : Scope} (h : ScopeSound Inv valid strict scope) :
    ScopeTracks id (Same Inv) valid strict f scope scope where
  named i args := by
    rw [List.map_id]
    exact (h.named (f.tokenText i) args).tracks
  member i name := (h.member (f.tokenText i) name).tracks

/-! ### The reader -/

variable {f : File} {scope : Scope} {params : List (String × TypeId)}

theorem insert_sound (T : Transport id (Same Inv) valid) {k : TypeKind} (hk : Readable k)
    (hids : ∀ id ∈ ids k, id ∈ Γ) : Sound (ε := ε) Inv valid strict Γ (onTable (Table.insert k)) :=
  Sound.of_tracks (Tracks.insert T hk hids)

theorem typeAt_sound (T : Transport id (Same Inv) valid) (hscope : ScopeSound Inv valid strict scope)
    (hparams : ∀ id ∈ ids params, id ∈ Γ) (p : Nat) :
    Sound Inv valid strict Γ (typeAt ⟨f, scope, params⟩ p) :=
  Sound.of_tracks (typeAt_tracks T hscope.tracks hparams p)

theorem objectAt_sound (T : Transport id (Same Inv) valid) (hscope : ScopeSound Inv valid strict scope)
    (hparams : ∀ id ∈ ids params, id ∈ Γ) (p : Nat) :
    Sound Inv valid strict Γ (objectAt ⟨f, scope, params⟩ p) :=
  Sound.of_tracks (objectAt_tracks T hscope.tracks hparams p)

theorem heritageAt_sound (T : Transport id (Same Inv) valid) (hscope : ScopeSound Inv valid strict scope)
    (hparams : ∀ id ∈ ids params, id ∈ Γ) (p : Nat) :
    Sound Inv valid strict Γ (heritageAt ⟨f, scope, params⟩ p) :=
  Sound.of_tracks (heritageAt_tracks T hscope.tracks hparams p)

/-! ### Changes to the table -/

def TableSound (Inv : TypeState → Prop) (valid : TypeState → TypeId → Prop) (Γ : List TypeId) {α : Type} [HasIds α]
    (change : TableM α) : Prop :=
  ∀ s, Inv s → (∀ id ∈ Γ, valid s id) →
    (∀ id, valid s id → valid { s with table := (change s.table).2 } id) ∧
      (∀ id ∈ ids (change s.table).1, valid { s with table := (change s.table).2 } id) ∧
      Inv { s with table := (change s.table).2 }

theorem TableSound.sound {change : TableM α} (h : TableSound Inv valid Γ change) :
    Sound (ε := ε) Inv valid strict Γ (onTable change) :=
  fun s hs hΓ => h s hs hΓ

theorem TableSound.pure {a : α} (ha : ∀ id ∈ ids a, id ∈ Γ) : TableSound Inv valid Γ (pure a) :=
  fun _ hs hΓ => ⟨fun _ hid => hid, fun id hid => hΓ id (ha id hid), hs⟩

theorem TableSound.bind {m : TableM α} {k : α → TableM β} (hm : TableSound Inv valid Γ m)
    (hk : ∀ a, TableSound Inv valid (ids a ++ Γ) (k a)) : TableSound Inv valid Γ (m >>= k) := by
  intro s hs hΓ
  obtain ⟨hkeep, hids, hinv⟩ := hm s hs hΓ
  obtain ⟨hkeep', hids', hinv'⟩ := hk (m s.table).1 { s with table := (m s.table).2 } hinv fun id hid =>
    (List.mem_append.mp hid).elim (hids id) fun h => hkeep id (hΓ id h)
  exact ⟨fun id hid => hkeep' id (hkeep id hid), hids', hinv'⟩

theorem tableInsert_sound (T : Transport id (Same Inv) valid) {k : TypeKind} (hk : Readable k)
    (hids : ∀ id ∈ ids k, id ∈ Γ) : TableSound Inv valid Γ (Table.insert k) := by
  have hinsert : Sound (ε := TypeError) Inv valid True Γ (onTable (Table.insert k)) := insert_sound T hk hids
  exact hinsert

end

end SchemaSplice.Annotation

namespace SchemaSplice.Declaration

open Annotation Source SchemaSplice.Types HasIds

/-! ### Parameters and aliases -/

section

variable {φ : TypeId → TypeId} {R : TypeState → TypeState → Prop} {valid : TypeState → TypeId → Prop}
  {strict : Prop} {Γ : List TypeId} {f : File} {scope scope' : Scope}

theorem mem_ids_binding {name : String} {type : TypeId} {bound : Bindings} {Γ : List TypeId}
    (htype : type ∈ Γ) (hbound : ∀ id ∈ ids bound, id ∈ Γ) :
    ∀ id ∈ ids ((name, type) :: bound : Bindings), id ∈ Γ := by
  intro id hid
  rcases List.mem_append.mp hid with hid | hid
  · rw [List.mem_singleton.mp hid]
    exact htype
  · exact hbound id hid

theorem bindParameters_tracks (T : Transport φ R valid) (hscope : ScopeTracks φ R valid strict f scope scope')
    (bound : Bindings) (hbound : ∀ id ∈ ids bound, id ∈ Γ) (ps : List Parameter) (args : List TypeId)
    (hargs : ∀ id ∈ args, id ∈ Γ) :
    Tracks R valid strict Γ (renameParams φ) (bindParameters f scope bound ps args)
      (bindParameters f scope' (renameParams φ bound) ps (args.map φ)) := by
  induction ps generalizing Γ bound args with
  | nil => cases args <;> exact Tracks.pure (renameParams φ) hbound
  | cons param ps ih =>
    cases args with
    | cons arg args =>
      have harg := hargs arg List.mem_cons_self
      exact ih _ (mem_ids_binding harg hbound) args fun id hid => hargs id (List.mem_cons_of_mem _ hid)
    | nil =>
      rw [List.map_nil]
      unfold bindParameters
      simp only
      have hnext : ∀ type : TypeId, Tracks R valid strict (ids type ++ Γ) (renameParams φ)
          (bindParameters f scope ((param.name, type) :: bound) ps [])
          (bindParameters f scope' ((param.name, φ type) :: renameParams φ bound) ps []) := by
        intro type
        exact ih _ (mem_ids_binding (List.mem_append_left _ List.mem_cons_self) fun id hid =>
          List.mem_append_right _ (hbound id hid)) [] (fun _ h => nomatch h)
      cases param.default? with
      | none =>
        apply Tracks.bind (Tracks.insert T (k := .unknown) trivial (fun _ h => nomatch h))
        exact hnext
      | some start =>
        simp only [map_eq_pure_bind, bind_assoc, pure_bind]
        apply Tracks.bind (Tracks.adaptExcept _ (typeAt_tracks T hscope hbound start))
        intro parsed
        exact hnext parsed.value

theorem aliasBody_tracks (T : Transport φ R valid) (hscope : ScopeTracks φ R valid strict f scope scope')
    (token : Nat) (args : List TypeId) (hargs : ∀ id ∈ args, id ∈ Γ) :
    Tracks R valid strict Γ φ (aliasBody f scope token args) (aliasBody f scope' token (args.map φ)) := by
  unfold aliasBody
  cases parameters? f (token + 1) with
  | none => exact Tracks.throw _ _
  | some read =>
    apply Tracks.ite
    · intro _
      apply Tracks.bind (bindParameters_tracks T hscope [] (fun _ h => nomatch h) read.1 args hargs)
      intro bound
      apply Tracks.bind (Tracks.adaptExcept _ (typeAt_tracks T hscope (fun _ => List.mem_append_left Γ) _))
      intro parsed
      exact Tracks.pure φ fun _ => List.mem_append_left _
    · intro _
      exact Tracks.throw _ _

end

section

variable {Inv : TypeState → Prop} {valid : TypeState → TypeId → Prop} {strict : Prop} {Γ : List TypeId}

/-! ### Built-in types -/

theorem method_sound (T : Transport id (Same Inv) valid) (name : String) {result : TypeId} (h : result ∈ Γ) :
    TableSound Inv valid Γ (Builtin.method name result) := by
  apply TableSound.bind (tableInsert_sound T (k := .object { calls := [result] }) trivial ?_)
  · intro type
    exact TableSound.pure fun id hid => List.mem_append_left _ hid
  · intro id hid
    rw [List.mem_singleton.mp hid]
    exact h

theorem symbolMethod_sound (T : Transport id (Same Inv) valid) (name : String) {result : TypeId}
    (h : result ∈ Γ) : TableSound Inv valid Γ (Builtin.symbolMethod name result) := by
  apply TableSound.bind (tableInsert_sound T (k := .object { calls := [result] }) trivial ?_)
  · intro type
    exact TableSound.pure fun id hid => List.mem_append_left _ hid
  · intro id hid
    rw [List.mem_singleton.mp hid]
    exact h

theorem nominal_sound (T : Transport id (Same Inv) valid) (name : String) {typeArgs : List TypeId}
    {properties : List Property} (hargs : ∀ a ∈ typeArgs, a ∈ Γ) (hproperties : ∀ q ∈ properties, q.type ∈ Γ) :
    TableSound Inv valid Γ (Builtin.nominal name typeArgs properties) := by
  apply tableInsert_sound T (k := .object _) trivial
  intro id hid
  rcases ObjectType.mem_ids.mp hid with ⟨_, h, -⟩ | h | ⟨q, hq, rfl⟩ | h
  · cases h
  · exact hargs id h
  · exact hproperties q hq
  · cases h

/-- Adds a primitive type and goes on with it. -/
theorem bind_primitive_sound {β : Type} [HasIds β] (T : Transport id (Same Inv) valid) {k : TypeKind}
    (hk : Readable k) (hids : ids k = []) {next : TypeId → TableM β}
    (hnext : ∀ a, TableSound Inv valid (a :: Γ) (next a)) :
    TableSound Inv valid Γ (Table.insert k >>= next) := by
  apply TableSound.bind (tableInsert_sound T hk ?_) hnext
  rw [hids]
  exact fun _ h => nomatch h

/-- Adds a method and goes on with it. -/
theorem bind_method_sound {β : Type} [HasIds β] (T : Transport id (Same Inv) valid) (name : String)
    {result : TypeId} (h : result ∈ Γ) {next : Property → TableM β}
    (hnext : ∀ q, TableSound Inv valid (q.type :: Γ) (next q)) :
    TableSound Inv valid Γ (Builtin.method name result >>= next) :=
  TableSound.bind (method_sound T name h) hnext

theorem bind_symbolMethod_sound {β : Type} [HasIds β] (T : Transport id (Same Inv) valid) (name : String)
    {result : TypeId} (h : result ∈ Γ) {next : Property → TableM β}
    (hnext : ∀ q, TableSound Inv valid (q.type :: Γ) (next q)) :
    TableSound Inv valid Γ (Builtin.symbolMethod name result >>= next) :=
  TableSound.bind (symbolMethod_sound T name h) hnext

theorem date_sound (T : Transport id (Same Inv) valid) : TableSound Inv valid Γ Builtin.date := by
  unfold Builtin.date
  refine bind_primitive_sound T (k := .string) trivial rfl fun string => ?_
  refine bind_primitive_sound T (k := .number) trivial rfl fun number => ?_
  apply bind_method_sound T _ (by simp)
  intro toUTCString
  apply bind_method_sound T _ (by simp)
  intro toISOString
  apply bind_method_sound T _ (by simp)
  intro getDate
  apply bind_method_sound T _ (by simp)
  intro getTime
  apply bind_method_sound T _ (by simp)
  intro valueOf
  exact nominal_sound T _ (by simp) (by simp)

theorem set_sound (T : Transport id (Same Inv) valid) (name : String) {element : TypeId} (h : element ∈ Γ) :
    TableSound Inv valid Γ (Builtin.set name element) := by
  have hrest : ∀ (Δ : List TypeId) (void boolean number : TypeId) (changing : List Property), element ∈ Δ →
      void ∈ Δ → boolean ∈ Δ → number ∈ Δ → (∀ q ∈ changing, q.type ∈ Δ) → TableSound Inv valid Δ (do
        let has ← Builtin.method "has" boolean
        let forEach ← Builtin.method "forEach" void
        let iterator ← Builtin.symbolMethod "iterator" void
        Builtin.nominal name [element] (changing ++ [has, forEach, Builtin.field "size" number, iterator])) := by
    intro Δ void boolean number changing helement hvoid hboolean hnumber hchanging
    apply bind_method_sound T _ hboolean
    intro has
    apply bind_method_sound T _ (by simp [hvoid])
    intro forEach
    apply bind_symbolMethod_sound T _ (by simp [hvoid])
    intro iterator
    apply nominal_sound T
    · simp [helement]
    · intro q hq
      simp only [List.mem_append, List.mem_cons, List.not_mem_nil, or_false] at hq
      rcases hq with hq | rfl | rfl | rfl | rfl
      · simp [hchanging q hq]
      · simp
      · simp
      · simp [Builtin.field, hnumber]
      · simp
  unfold Builtin.set
  refine bind_primitive_sound T (k := .void) trivial rfl fun void => ?_
  refine bind_primitive_sound T (k := .boolean) trivial rfl fun boolean => ?_
  refine bind_primitive_sound T (k := .number) trivial rfl fun number => ?_
  simp only
  split
  · apply bind_method_sound T _ (by simp)
    intro add
    apply bind_method_sound T _ (by simp)
    intro delete
    apply bind_method_sound T _ (by simp)
    intro clear
    exact hrest _ void boolean number [add, delete, clear] (by simp [h]) (by simp) (by simp) (by simp) (by simp)
  · exact hrest _ void boolean number [] (by simp [h]) (by simp) (by simp) (by simp) (by simp)

theorem map_sound (T : Transport id (Same Inv) valid) (name : String) {key value : TypeId} (hkey : key ∈ Γ)
    (hvalue : value ∈ Γ) : TableSound Inv valid Γ (Builtin.map name key value) := by
  have hrest : ∀ (Δ : List TypeId) (void boolean number : TypeId) (changing : List Property), key ∈ Δ →
      value ∈ Δ → void ∈ Δ → boolean ∈ Δ → number ∈ Δ → (∀ q ∈ changing, q.type ∈ Δ) →
      TableSound Inv valid Δ (do
        let get ← Builtin.method "get" value
        let has ← Builtin.method "has" boolean
        let forEach ← Builtin.method "forEach" void
        let iterator ← Builtin.symbolMethod "iterator" void
        Builtin.nominal name [key, value]
          (changing ++ [get, has, forEach, Builtin.field "size" number, iterator])) := by
    intro Δ void boolean number changing hkey hvalue hvoid hboolean hnumber hchanging
    apply bind_method_sound T _ hvalue
    intro get
    apply bind_method_sound T _ (by simp [hboolean])
    intro has
    apply bind_method_sound T _ (by simp [hvoid])
    intro forEach
    apply bind_symbolMethod_sound T _ (by simp [hvoid])
    intro iterator
    apply nominal_sound T
    · simp [hkey, hvalue]
    · intro q hq
      simp only [List.mem_append, List.mem_cons, List.not_mem_nil, or_false] at hq
      rcases hq with hq | rfl | rfl | rfl | rfl | rfl
      · simp [hchanging q hq]
      · simp
      · simp
      · simp
      · simp [Builtin.field, hnumber]
      · simp
  unfold Builtin.map
  refine bind_primitive_sound T (k := .void) trivial rfl fun void => ?_
  refine bind_primitive_sound T (k := .boolean) trivial rfl fun boolean => ?_
  refine bind_primitive_sound T (k := .number) trivial rfl fun number => ?_
  simp only
  split
  · apply bind_method_sound T _ (by simp)
    intro set
    apply bind_method_sound T _ (by simp)
    intro delete
    apply bind_method_sound T _ (by simp)
    intro clear
    exact hrest _ void boolean number [set, delete, clear] (by simp [hkey]) (by simp [hvalue]) (by simp)
      (by simp) (by simp) (by simp)
  · exact hrest _ void boolean number [] (by simp [hkey]) (by simp [hvalue]) (by simp) (by simp) (by simp)
      (by simp)

theorem promise_sound (T : Transport id (Same Inv) valid) {inner : TypeId} (h : inner ∈ Γ) :
    TableSound Inv valid Γ (Builtin.promise inner) := by
  unfold Builtin.promise
  refine bind_primitive_sound T (k := .any) trivial rfl fun any => ?_
  apply bind_method_sound T _ (by simp)
  intro thenMethod
  apply bind_method_sound T _ (by simp)
  intro catchMethod
  apply bind_method_sound T _ (by simp)
  intro finallyMethod
  exact nominal_sound T _ (by simp [h]) (by simp)

theorem builtin_sound (T : Transport id (Same Inv) valid) {name : String} {args : List TypeId}
    {build : TableM TypeId} (h : Builtin.lookup? name args = some build) : TableSound Inv valid args build := by
  have harray : ∀ element : TypeId, TableSound Inv valid [element] (Table.insert (.array (some element))) := by
    intro element
    exact tableInsert_sound T trivial fun _ hid => hid
  unfold Builtin.lookup? at h
  split at h <;> cases h
  · exact harray _
  · exact harray _
  · exact date_sound T
  · exact set_sound T _ (by simp)
  · exact set_sound T _ (by simp)
  · exact map_sound T _ (by simp) (by simp)
  · exact map_sound T _ (by simp) (by simp)
  · apply tableInsert_sound T (k := .object _) trivial
    intro id hid
    rcases ObjectType.mem_ids.mp hid with ⟨a, ha, hmem⟩ | h | ⟨q, hq, -⟩ | h
    · cases ha
      exact hmem
    · cases h
    · cases hq
    · cases h
  · exact promise_sound T (by simp)
  · exact tableInsert_sound T (k := .object {}) trivial fun _ hid => hid

/-! ### Bodies of declarations -/

variable {f : File} {scope : Scope}

theorem bindParameters_sound (T : Transport id (Same Inv) valid) (hscope : ScopeSound Inv valid strict scope)
    (ps : List Parameter) {args : List TypeId} (hargs : ∀ id ∈ args, id ∈ Γ) :
    Sound Inv valid strict Γ (bindParameters f scope [] ps args) :=
  Sound.of_tracks (bindParameters_tracks T hscope.tracks [] (fun _ h => nomatch h) ps args hargs)

theorem aliasBody_sound (T : Transport id (Same Inv) valid) (hscope : ScopeSound Inv valid strict scope)
    (token : Nat) (args : List TypeId) : Sound Inv valid strict args (aliasBody f scope token args) :=
  Sound.of_tracks (aliasBody_tracks T hscope.tracks token args fun _ h => h)

theorem boundParameters_sound (T : Transport id (Same Inv) valid) (hscope : ScopeSound Inv valid strict scope)
    (token : Nat) {args : List TypeId} (hargs : ∀ id ∈ args, id ∈ Γ) :
    Sound Inv valid strict Γ (boundParameters f scope token args) := by
  unfold boundParameters
  cases parameters? f (token + 1) with
  | none => exact Sound.throw _
  | some read =>
    apply Sound.bind (bindParameters_sound T hscope read.1 hargs)
    intro bound
    exact Sound.pure fun id hid => List.mem_append_left _ (by simpa [ids] using hid)

theorem interfacePart_sound (T : Transport id (Same Inv) valid) (hscope : ScopeSound Inv valid strict scope)
    (token : Nat) {args : List TypeId} (hargs : ∀ id ∈ args, id ∈ Γ) :
    Sound Inv valid strict Γ (interfacePart f scope token args) := by
  unfold interfacePart
  apply Sound.bind (boundParameters_sound T hscope token hargs)
  intro bound
  apply Sound.bind
  · apply Sound.adaptExcept
    exact heritageAt_sound T hscope (fun id hid => List.mem_append_left _ (List.mem_append_left _ hid)) _
  · intro bases
    apply Sound.bind
    · apply Sound.adaptExcept
      exact objectAt_sound T hscope
        (fun id hid => List.mem_append_right _ (List.mem_append_left _ (List.mem_append_left _ hid))) _
    · intro object
      apply Sound.pure
      intro id hid
      rcases List.mem_append.mp hid with hid | hid
      · exact List.mem_append_left _ hid
      · exact List.mem_append_right _ (List.mem_append_left _ (List.mem_append_left _ hid))

theorem mem_ids_inherit {o : ObjectType} {properties : List Property} {id : TypeId}
    (h : id ∈ ids (inherit o properties)) : id ∈ ids o ∨ ∃ q ∈ properties, id = q.type := by
  unfold inherit at h
  induction properties generalizing o with
  | nil => exact Or.inl h
  | cons q qs ih =>
    rcases ih h with h | ⟨r, hr, rfl⟩
    · rcases ObjectType.mem_ids_addProperty h with h | rfl
      · exact Or.inl h
      · exact Or.inr ⟨q, List.mem_cons_self, rfl⟩
    · exact Or.inr ⟨r, List.mem_cons_of_mem _ hr, rfl⟩

/-- The types in members that are merged come from both declarations. -/
theorem mem_ids_merged {o body : ObjectType} {id : TypeId}
    (h : id ∈ ids { inherit o body.properties with calls := (inherit o body.properties).calls ++ body.calls }) :
    id ∈ ids o ∨ id ∈ ids body := by
  have hinherit : ∀ a, a ∈ ids (inherit o body.properties) → a ∈ ids o ∨ a ∈ ids body := by
    intro a ha
    rcases mem_ids_inherit ha with ha | ⟨q, hq, rfl⟩
    · exact Or.inl ha
    · exact Or.inr (ObjectType.mem_ids.mpr (Or.inr (Or.inr (Or.inl ⟨q, hq, rfl⟩))))
  rcases ObjectType.mem_ids.mp h with h | h | h | h
  · exact hinherit id (ObjectType.mem_ids.mpr (Or.inl h))
  · exact hinherit id (ObjectType.mem_ids.mpr (Or.inr (Or.inl h)))
  · exact hinherit id (ObjectType.mem_ids.mpr (Or.inr (Or.inr (Or.inl h))))
  · rcases List.mem_append.mp h with h | h
    · exact hinherit id (ObjectType.mem_ids.mpr (Or.inr (Or.inr (Or.inr h))))
    · exact Or.inr (ObjectType.mem_ids.mpr (Or.inr (Or.inr (Or.inr h))))

theorem interfaceParts_sound (T : Transport id (Same Inv) valid) (hscope : ScopeSound Inv valid strict scope)
    {args : List TypeId} (hargs : ∀ id ∈ args, id ∈ Γ) {merged : ObjectType} (hmerged : ∀ id ∈ ids merged, id ∈ Γ)
    {bases : List TypeId} (hbases : ∀ id ∈ bases, id ∈ Γ) (decls : List (Decl TypeForm)) :
    Sound Inv valid strict Γ (interfaceParts f scope args merged bases decls) := by
  induction decls generalizing Γ merged bases with
  | nil =>
    apply Sound.pure
    intro id hid
    rcases List.mem_append.mp hid with hid | hid
    · exact hmerged id hid
    · rw [ids_list_typeId] at hid
      exact hbases id hid
  | cons d ds ih =>
    unfold interfaceParts
    apply Sound.bind (interfacePart_sound T hscope d.token hargs)
    intro part
    obtain ⟨body, more⟩ := part
    apply ih
    · intro id hid
      exact List.mem_append_right _ (hargs id hid)
    · intro id hid
      rcases mem_ids_merged hid with hid | hid
      · exact List.mem_append_right _ (hmerged id hid)
      · exact List.mem_append_left _ (List.mem_append_left _ hid)
    · intro id hid
      rcases List.mem_append.mp hid with hid | hid
      · exact List.mem_append_right _ (hbases id hid)
      · rw [← ids_list_typeId more] at hid
        exact List.mem_append_left _ (List.mem_append_right _ hid)

/-- The object of an interface with the properties of its bases. -/
def withBases (t : Table) (bases : List TypeId) (merged : ObjectType) : ObjectType :=
  bases.foldl (fun o base => inherit o (((t.object? base).map (·.properties)).getD [])) merged

theorem mem_ids_withBases {t : Table} {bases : List TypeId} {merged : ObjectType} {id : TypeId}
    (h : id ∈ ids (withBases t bases merged)) : id ∈ ids merged ∨ ∃ base ∈ bases, id ∈ ids (t.kind base) := by
  unfold withBases at h
  induction bases generalizing merged with
  | nil => exact Or.inl h
  | cons base bases ih =>
    rcases ih h with h | ⟨b, hb, h⟩
    · rcases mem_ids_inherit h with h | ⟨q, hq, rfl⟩
      · exact Or.inl h
      · cases hk : t.kind base with
        | object o =>
          rw [Table.object?, hk] at hq
          refine Or.inr ⟨base, List.mem_cons_self, ?_⟩
          rw [hk]
          exact ObjectType.mem_ids.mpr (Or.inr (Or.inr (Or.inl ⟨q, hq, rfl⟩)))
        | _ =>
          rw [Table.object?, hk] at hq
          cases hq
    · exact Or.inr ⟨b, List.mem_cons_of_mem _ hb, h⟩

theorem interfaceBody_sound (T : Transport id (Same Inv) valid) (hscope : ScopeSound Inv valid strict scope)
    (name : String) (decls : List (Decl TypeForm)) (args : List TypeId) :
    Sound Inv valid strict args (interfaceBody f scope name decls args) := by
  unfold interfaceBody
  apply Sound.bind
  · apply interfaceParts_sound T hscope (fun _ h => h)
    · intro id hid
      rcases ObjectType.mem_ids.mp hid with ⟨_, h, -⟩ | h | ⟨_, h, -⟩ | h
      · cases h
      · exact h
      · cases h
      · cases h
    · exact fun _ h => nomatch h
  · intro parts
    obtain ⟨merged, bases⟩ := parts
    apply Sound.bind_get
    intro s hs hΓ
    refine ⟨ids (withBases s.table bases merged), ?_, insert_sound T (k := .object _) trivial fun _ h => h⟩
    intro id hid
    rcases mem_ids_withBases hid with hid | ⟨base, hbase, hid⟩
    · exact hΓ id (List.mem_append_left _ (List.mem_append_left _ hid))
    · rw [← ids_list_typeId bases] at hbase
      exact T.valid_kind ⟨rfl, hs⟩ base (hΓ base (List.mem_append_left _ (List.mem_append_right _ hbase))) id hid

end

end SchemaSplice.Declaration
