import SchemaSplice.Proofs.Resolution.Persistence
/-!
# Types written without names

A type that can be read when every lookup is refused uses no names. Its types are put after those of any table in
the same way, moved by the number of places that are there, and are shown in the same way from then on.
-/

namespace SchemaSplice.Annotation

open Source SchemaSplice.Types HasIds

/-- A scope that refuses every lookup. What can be read in it uses no names. -/
def Scope.refusing : Scope where
  named name _ := throw (.unknownName name)
  member qualifier _ := throw (.unknownName qualifier)

/-! ### Copies of tables -/

/-- An id moved by `d` places. -/
def shift (d : Nat) (id : TypeId) : TypeId := ⟨id.slot + d⟩

/-- The types of a table stand in another one `d` places later; they are readable and lead to each other. -/
def Copied (d : Nat) (t t' : Table) : Prop :=
  ∀ i, i < t.size → ∃ k, t.slots[i]? = some (.kind k) ∧ Readable k ∧ (∀ a ∈ ids k, a.slot < t.size) ∧
    t'.slots[i + d]? = some (.kind (k.mapIds (shift d)))

theorem Readable.ne_pending {k : TypeKind} (h : Readable k) (φ : TypeId → TypeId) :
    Slot.kind (k.mapIds φ) ≠ .kind .pending := by
  cases k with
  | pending => exact h.elim
  | _ => simp [TypeKind.mapIds]

theorem Copied.persists {d : Nat} {t t' t'' : Table} (h : Copied d t t') (hpersists : t'.Persists t'') :
    Copied d t t'' := by
  intro i hi
  obtain ⟨k, hslot, hread, hids, hcopy⟩ := h i hi
  exact ⟨k, hslot, hread, hids, hpersists _ _ hcopy (hread.ne_pending _)⟩

theorem Copied.kind {d : Nat} {t t' : Table} (h : Copied d t t') {id : TypeId} (hid : id.slot < t.size) :
    t'.kind (shift d id) = (t.kind id).mapIds (shift d) ∧ ∀ a ∈ ids (t.kind id), a.slot < t.size := by
  obtain ⟨k, hslot, -, hids, hcopy⟩ := h id.slot hid
  have hcopied : t'.kind (shift d id) = k.mapIds (shift d) := Table.kind_of_slot hcopy
  rw [hcopied, Table.kind_of_slot hslot]
  exact ⟨rfl, hids⟩

/-! ### Copies are shown alike -/

theorem displayObject_mapIds {φ : TypeId → TypeId} {o : ObjectType} {part part' : TypeId → String}
    (h : ∀ a ∈ ids o, part' (φ a) = part a) :
    Table.displayObject (o.mapIds φ) part' = Table.displayObject o part := by
  have hmap : ∀ as : List TypeId, (∀ a ∈ as, a ∈ ids o) → (as.map φ).map part' = as.map part := by
    intro as has
    rw [List.map_map]
    exact List.map_congr_left fun a ha => h a (has a ha)
  have hproperties : (o.properties.map (Property.mapIds φ)).map
      (fun p => Table.displayProperty p (part' p.type)) =
        o.properties.map fun p => Table.displayProperty p (part p.type) := by
    rw [List.map_map]
    apply List.map_congr_left
    intro p hp
    have hpart := h p.type (ObjectType.mem_ids.mpr (Or.inr (Or.inr (Or.inl ⟨p, hp, rfl⟩))))
    show Table.displayProperty (p.mapIds φ) (part' (φ p.type)) = _
    rw [hpart]
    rfl
  have hcall : (if (o.mapIds φ).properties.isEmpty then (o.mapIds φ).calls.head? else none) =
      (if o.properties.isEmpty then o.calls.head? else none).map φ := by
    simp only [ObjectType.mapIds, List.isEmpty_map, List.head?_map]
    split <;> rfl
  unfold Table.displayObject
  rw [hcall]
  cases hresult : (if o.properties.isEmpty then o.calls.head? else none) with
  | some result =>
    have hmem : result ∈ o.calls := by
      split at hresult
      · exact List.mem_of_mem_head? hresult
      · cases hresult
    exact congrArg ("() => " ++ ·) (h result (ObjectType.mem_ids.mpr (Or.inr (Or.inr (Or.inr hmem)))))
  | none =>
    cases halias : o.aliased with
    | some a =>
      have hargs := hmap a.args fun id hid => ObjectType.mem_ids.mpr (Or.inl ⟨a, halias, hid⟩)
      simp only [ObjectType.mapIds, halias, Option.map_some, Option.map_none, hargs]
    | none =>
      have hargs := hmap o.typeArgs fun id hid => ObjectType.mem_ids.mpr (Or.inr (Or.inl hid))
      cases hsymbol : o.symbol with
      | some name =>
        simp only [ObjectType.mapIds, halias, hsymbol, Option.map_none, List.isEmpty_map, hargs]
      | none =>
        simp only [ObjectType.mapIds, halias, hsymbol, Option.map_none, hproperties]

theorem displayLevels_copied {d : Nat} {t t' : Table} (h : Copied d t t') (levels : Nat) {id : TypeId}
    (hid : id.slot < t.size) : t'.displayLevels levels (shift d id) = t.displayLevels levels id := by
  induction levels generalizing id with
  | zero => rfl
  | succ levels ih =>
    obtain ⟨hkind, hids⟩ := h.kind hid
    unfold Table.displayLevels
    rw [hkind]
    have hmap : ∀ as : List TypeId, (∀ a ∈ as, a.slot < t.size) →
        (as.map (shift d)).map (t'.displayLevels levels) = as.map (t.displayLevels levels) := by
      intro as has
      rw [List.map_map]
      exact List.map_congr_left fun a ha => ih (has a ha)
    cases hk : t.kind id with
    | union ms =>
      rw [hk] at hids
      exact congrArg (" | ".intercalate ·) (hmap ms hids)
    | intersection ms =>
      rw [hk] at hids
      exact congrArg (" & ".intercalate ·) (hmap ms hids)
    | array e =>
      cases e with
      | none => rfl
      | some e =>
        rw [hk] at hids
        exact congrArg ("(" ++ · ++ ")[]") (ih (hids e List.mem_cons_self))
    | tuple es =>
      rw [hk] at hids
      have helements : (es.map (Element.mapIds (shift d))).map
          (fun e => Table.displayElement e.flag (t'.displayLevels levels e.type)) =
            es.map fun e => Table.displayElement e.flag (t.displayLevels levels e.type) := by
        rw [List.map_map]
        apply List.map_congr_left
        intro e he
        have hpart := ih (hids e.type (mem_ids_list.mpr ⟨e, he, List.mem_cons_self⟩))
        exact congrArg (Table.displayElement e.flag ·) hpart
      exact congrArg (fun texts => "[" ++ ", ".intercalate texts ++ "]") helements
    | object o =>
      rw [hk] at hids
      exact displayObject_mapIds fun a ha => ih (hids a ha)
    | _ => rfl

/-! ### Reading next to other types -/

/-- A state with the types of `s` put after those of `s₀`. -/
structure Beside (s₀ s s' : TypeState) : Prop where
  extends₀ : Extends s₀ s'
  memo : s'.memo = s₀.memo
  size : s'.table.size = s.table.size + s₀.table.size
  copied : Copied s₀.table.size s.table s'.table

def InTable (s : TypeState) (id : TypeId) : Prop := id.slot < s.table.size

theorem Beside.start (s₀ : TypeState) : Beside s₀ {} s₀ where
  extends₀ := Extends.refl s₀
  memo := rfl
  size := (Nat.zero_add _).symm
  copied _ hi := absurd hi (Nat.not_lt_zero _)

theorem Beside.insert {s₀ s s' : TypeState} (h : Beside s₀ s s') {k : TypeKind} (hk : Readable k)
    (hids : ∀ a ∈ ids k, InTable s a) :
    Beside s₀ (s.insert k) (s'.insert (k.mapIds (shift s₀.table.size))) where
  extends₀ := h.extends₀.insert _
  memo := h.memo
  size := by
    have := h.size
    simp only [TypeState.insert, Table.size, Array.size_push] at this ⊢
    omega
  copied := by
    have hsize : (s.insert k).table.size = s.table.size + 1 := Array.size_push _
    intro i hi
    rw [hsize] at hi
    rcases Nat.lt_succ_iff_lt_or_eq.mp hi with hi | rfl
    · obtain ⟨k', hslot, hread, hids', hcopy⟩ := h.copied i hi
      have hne := hread.ne_pending id
      rw [TypeKind.mapIds_id] at hne
      refine ⟨k', ?_, hread, fun a ha => ?_, ?_⟩
      · exact (Table.Persists.refl s.table).push k i _ hslot hne
      · rw [hsize]
        exact Nat.lt_succ_of_lt (hids' a ha)
      · exact (Table.Persists.refl s'.table).push _ _ _ hcopy (hread.ne_pending _)
    · refine ⟨k, Array.getElem?_push_size, hk, fun a ha => ?_, ?_⟩
      · rw [hsize]
        exact Nat.lt_succ_of_lt (hids a ha)
      · rw [← h.size]
        exact Array.getElem?_push_size

theorem beside_transport (s₀ : TypeState) : Transport (shift s₀.table.size) (Beside s₀) InTable where
  injective a b hab := by
    have hslot := congrArg TypeId.slot hab
    cases a
    cases b
    simp only [shift] at hslot
    congr
    omega
  kind := by
    intro s s' h id
    by_cases hid : id.slot < s.table.size
    · exact (h.copied.kind hid).1
    · have hle := Nat.le_of_not_lt hid
      rw [Table.kind_of_size_le hle, Table.kind_of_size_le]
      · rfl
      · rw [h.size]
        exact Nat.add_le_add_right hle _
  insert h _ hk hids := h.insert hk hids
  fresh := by
    intro s s' h
    rw [h.size]
    rfl
  valid_kind h _ hid := (h.copied.kind hid).2
  valid_fresh _ k _ _ := by
    show _ < (Array.push _ _).size
    rw [Array.size_push]
    exact Nat.lt_succ_self _
  valid_insert _ k _ _ id hid := by
    show _ < (Array.push _ _).size
    rw [Array.size_push]
    exact Nat.lt_succ_of_lt hid

/-- What is read without lookups is read in every scope. -/
theorem refusing_tracks (φ : TypeId → TypeId) (R : TypeState → TypeState → Prop)
    (valid : TypeState → TypeId → Prop) (f : File) (scope : Scope) :
    ScopeTracks φ R valid False f Scope.refusing scope where
  named _ _ _ _ _ _ := ⟨fun _ hid => hid, False.elim⟩
  member _ _ _ _ _ _ := ⟨fun _ hid => hid, False.elim⟩

end SchemaSplice.Annotation

namespace SchemaSplice.Declaration

open Annotation Source SchemaSplice.Types HasIds

/-! ### Written types -/

/-- How a type is shown that is read into an empty table. -/
def written? {ε : Type} (reading : EStateM ε TypeState TypeId) : Option String :=
  match reading {} with
  | .ok id t => some (t.table.display id)
  | .error _ _ => none

/-- Reads the type of a function whose result is written at token `start`. -/
def functionAt (f : File) (scope : Scope) (start : Nat) : Parse TypeId := do
  let result ← typeAt ⟨f, scope, []⟩ start
  onTable (Table.function result.value)

/-- A reading that needs no lookups gives the written type next to any other types. -/
theorem beside_of_written {ε : Type} {m m' : EStateM ε TypeState TypeId} {text : String}
    (hwritten : written? m = some text) (s₀ : TypeState)
    (h : Tracks (Beside s₀) InTable False [] (shift s₀.table.size) m m') :
    ∃ id t', m' s₀ = .ok id t' ∧ Extends s₀ t' ∧ t'.memo = s₀.memo ∧ t'.table.Shows id text ∧
      ∃ k, t'.table.slots[id.slot]? = some (.kind k) ∧ k ≠ .pending := by
  have hm := h {} s₀ (Beside.start s₀) (fun _ h => nomatch h)
  unfold written? at hwritten
  cases hres : m {} with
  | error e t =>
    rw [hres] at hwritten
    cases hwritten
  | ok id t =>
    rw [hres] at hm hwritten
    obtain ⟨-, hids, t', hm', hbeside⟩ := hm
    have hid : id.slot < t.table.size := hids id List.mem_cons_self
    obtain ⟨k, -, hread, -, hslot⟩ := hbeside.copied id.slot hid
    refine ⟨_, t', hm', hbeside.extends₀, hbeside.memo, ?_, _, hslot, fun h => hread.ne_pending _ (congrArg _ h)⟩
    intro t'' hpersists
    rw [← Option.some.inj hwritten]
    exact displayLevels_copied (hbeside.copied.persists hpersists) 7 hid

/-- Defining an instance of an alias without parameters to give whose body uses no names. -/
theorem defineInstance_unnamed {p : Project} {d : Decl TypeForm} {text : String} (hform : d.form = .typeAlias)
    (hwritten : written? (aliasBody (p.file d.file) Scope.refusing d.token []) = some text)
    (resolver : Resolver) (name : String) (decls : List (Decl TypeForm)) (s : TypeState) :
    ∃ t, defineInstance (name, []) (declarationBody p resolver name decls d []) s = .ok ⟨s.table.size⟩ t ∧
      t.memo = ((name, []), ⟨s.table.size⟩) :: s.memo ∧ t.table.Shows ⟨s.table.size⟩ text := by
  obtain ⟨id, t, hbody, hextends, hmemo, hshows, k, hslot, hk⟩ :=
    beside_of_written hwritten (s.reserve (name, []))
      (aliasBody_tracks (beside_transport _) (refusing_tracks _ _ _ _ (scopeOf p resolver d.file)) d.token
        [] (fun _ h => nomatch h))
  have hplace : t.table.slots[s.table.size]? = some (.kind .pending) := by
    rw [hextends]
    · exact Array.getElem?_push_size
    · show s.table.slots.size < (s.table.slots.push _).size
      rw [Array.size_push]
      exact Nat.lt_succ_self _
  have hread : declarationBody p resolver name decls d [] (s.reserve (name, [])) = .ok id t := by
    unfold declarationBody
    rw [hform]
    exact hbody
  rw [defineInstance_apply, hread]
  exact ⟨_, rfl, hmemo, hshows.define ⟨s.table.size⟩ hplace hslot hk⟩

/-- Reading the type of a function whose result uses no names. -/
theorem functionAt_unnamed {f : File} {start : Nat} {text : String}
    (hwritten : written? (functionAt f Scope.refusing start) = some text) (scope : Scope) (s : TypeState) :
    ∃ id t, functionAt f scope start s = .ok id t ∧ t.table.Shows id text := by
  have htracks : Tracks (Beside s) InTable False [] (shift s.table.size) (functionAt f Scope.refusing start)
      (functionAt f scope start) := by
    have hparams : ∀ id ∈ HasIds.ids ([] : Bindings), id ∈ ([] : List TypeId) := fun _ h => nomatch h
    apply Tracks.bind (typeAt_tracks (beside_transport s) (refusing_tracks _ _ _ _ scope) hparams start)
    intro result
    exact Tracks.function (beside_transport s) (List.mem_append_left _ List.mem_cons_self)
  obtain ⟨id, t, hread, -, -, hshows, -⟩ := beside_of_written hwritten s htracks
  exact ⟨id, t, hread, hshows⟩

end SchemaSplice.Declaration
