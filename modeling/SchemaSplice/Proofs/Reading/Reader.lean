import SchemaSplice.Proofs.Reading.Transport
/-!
# The reader is transported

Two readers of one file, with scopes and bound parameters that correspond, do the same from related states. There is one
lemma for each function of the reader; `typeAt_tracks` ties them together by induction on what is left of
the file.
-/

namespace SchemaSplice.Annotation

open Source SchemaSplice.Types HasIds

instance {f : File} {p : Nat} {α : Type} [HasIds α] : HasIds (Parsed f p α) := ⟨fun r => ids r.value⟩

instance : HasIds Member :=
  ⟨fun
    | .call result => [result]
    | .index key value => [key, value]
    | .property p => ids p⟩

instance : HasIds Body :=
  ⟨fun b => ids b.object ++ ((b.index.map fun kv => [kv.1, kv.2]).getD [])⟩

def Parsed.map {f : File} {p : Nat} {α β : Type} (g : α → β) (r : Parsed f p α) : Parsed f p β :=
  ⟨g r.value, r.next, r.lt_next, r.next_le⟩

/-- Scopes whose lookups of names that are written in a file correspond. -/
structure ScopeTracks (φ : TypeId → TypeId) (R : TypeState → TypeState → Prop)
    (valid : TypeState → TypeId → Prop) (strict : Prop) (f : File) (scope scope' : Scope) : Prop where
  named : ∀ i args,
    Tracks R valid strict args φ (scope.named (f.tokenText i) args) (scope'.named (f.tokenText i) (args.map φ))
  member : ∀ i name,
    Tracks R valid strict [] φ (scope.member (f.tokenText i) name) (scope'.member (f.tokenText i) name)

def renameParams (φ : TypeId → TypeId) (params : List (String × TypeId)) : List (String × TypeId) :=
  params.map fun b => (b.1, φ b.2)

section

variable {φ : TypeId → TypeId} {R : TypeState → TypeState → Prop} {valid : TypeState → TypeId → Prop}
  {strict : Prop} {Γ Δ : List TypeId} {f : File}

def LaterTracks (φ : TypeId → TypeId) (R : TypeState → TypeState → Prop)
    (valid : TypeState → TypeId → Prop) (strict : Prop) (Γ : List TypeId) {p : Nat}
    (later later' : Later f p) : Prop :=
  ∀ q h, Tracks R valid strict Γ (Parsed.map φ) (later q h) (later' q h)

theorem LaterTracks.weaken {p : Nat} {later later' : Later f p}
    (h : LaterTracks φ R valid strict Γ later later') (hΓ : ∀ id ∈ Γ, id ∈ Δ) :
    LaterTracks φ R valid strict Δ later later' :=
  fun q hq => (h q hq).weaken hΓ

/-- Readers of later types after something was read. -/
theorem LaterTracks.after {p : Nat} {later later' : Later f p}
    (h : LaterTracks φ R valid strict Γ later later') (Δ : List TypeId) :
    LaterTracks φ R valid strict (Δ ++ Γ) later later' :=
  h.weaken fun _ => List.mem_append_right Δ

/-! ### Failures, lookups and insertions -/

theorem Tracks.fail {α β : Type} [HasIds α] (F : α → β) (p : Nat) (cause : TypeError) :
    Tracks R valid strict Γ F (fail p cause) (fail p cause) :=
  Tracks.throw F _

theorem Tracks.lookup {α β : Type} [HasIds α] {F : α → β} {m : Reading α} {m' : Reading β} (p : Nat)
    (h : Tracks R valid strict Γ F m m') : Tracks R valid strict Γ F (lookup p m) (lookup p m') := by
  intro s s' hs hΓ
  have hm := h s s' hs hΓ
  unfold Annotation.lookup
  cases hres : m s with
  | ok a t =>
    rw [hres] at hm
    obtain ⟨hkeep, ha, t', hm', ht⟩ := hm
    simp only [hm']
    exact ⟨hkeep, ha, t', rfl, ht⟩
  | error e t =>
    rw [hres] at hm
    obtain ⟨hkeep, hrest⟩ := hm
    refine ⟨hkeep, fun hstrict => ?_⟩
    obtain ⟨t', hm', ht⟩ := hrest hstrict
    simp only [hm']
    exact ⟨t', rfl, ht⟩

theorem Tracks.insertAs (T : Transport φ R valid) {p next : Nat} (lt : p < next) (le : next ≤ f.size)
    {k : TypeKind} (hk : Readable k) (hids : ∀ id ∈ ids k, id ∈ Γ) :
    Tracks R valid strict Γ (Parsed.map φ) (insertAs f p next lt le k)
      (insertAs f p next lt le (k.mapIds φ)) := by
  unfold Annotation.insertAs
  apply Tracks.bind (Tracks.insert T hk hids)
  intro a
  exact Tracks.pure (Parsed.map φ) fun _ => List.mem_append_left Γ

/-! ### Separated lists -/

theorem mem_concat_context {items Γ : List TypeId} (hitems : ∀ id ∈ items, id ∈ Γ) {a : TypeId} :
    ∀ id ∈ items ++ [a], id ∈ [a] ++ Γ := by
  intro id hid
  rcases List.mem_append.mp hid with hid | hid
  · exact List.mem_append_right _ (hitems id hid)
  · exact List.mem_append_left _ hid

theorem separatedRest_tracks {separator : Kind} {p : Nat}
    {item item' : (q : Nat) → p ≤ q → Parse (Parsed f q TypeId)}
    (hitem : ∀ q h, Tracks R valid strict Γ (Parsed.map φ) (item q h) (item' q h)) (q : Nat) (lt : p < q)
    (le : q ≤ f.size) {items : List TypeId} (hitems : ∀ id ∈ items, id ∈ Γ) :
    Tracks R valid strict Γ (Parsed.map (List.map φ)) (separatedRest f separator item q lt le items)
      (separatedRest f separator item' q lt le (items.map φ)) := by
  fun_induction separatedRest f separator item q lt le items generalizing Γ with
  | case1 q lt le items h ih =>
    rw [separatedRest, dif_pos h]
    apply Tracks.bind (hitem (q + 1) _)
    intro r
    have hnext := ih r (fun q h => (hitem q h).weaken fun _ => List.mem_append_right (ids r))
      (mem_concat_context hitems)
    rw [List.map_append, List.map_singleton] at hnext
    exact hnext
  | case2 q lt le items h =>
    rw [separatedRest, dif_neg h]
    apply Tracks.pure (Parsed.map (List.map φ))
    rw [show ids (Parsed.mk items q lt le) = items from ids_list_typeId items]
    exact hitems

theorem separated_tracks {separator : Kind} {p : Nat}
    {item item' : (q : Nat) → p ≤ q → Parse (Parsed f q TypeId)}
    (hitem : ∀ q h, Tracks R valid strict Γ (Parsed.map φ) (item q h) (item' q h)) :
    Tracks R valid strict Γ (Parsed.map (List.map φ)) (separated f separator p item)
      (separated f separator p item') := by
  unfold separated
  apply Tracks.bind (hitem _ _)
  intro r
  exact separatedRest_tracks (fun q h => (hitem q h).weaken fun _ => List.mem_append_right (ids r)) _ _ _
    (fun _ => List.mem_append_left Γ)

variable {scope scope' : Scope} {params : List (String × TypeId)}

/-! ### Object types -/

theorem signatureResult_tracks (T : Transport φ R valid) {p : Nat} (hp : p < f.size)
    {later later' : Later f p} (hlater : LaterTracks φ R valid strict Γ later later') (q c : Nat) (hq : p ≤ q)
    (hc : q < c ∧ c < f.size) :
    Tracks R valid strict Γ (Parsed.map φ) (signatureResult ⟨f, scope, params⟩ hp later q c hq hc)
      (signatureResult ⟨f, scope', renameParams φ params⟩ hp later' q c hq hc) := by
  unfold signatureResult
  split
  · apply Tracks.bind (hlater (c + 2) _)
    intro r
    exact Tracks.pure (Parsed.map φ) fun _ => List.mem_append_left Γ
  · exact Tracks.insertAs T _ _ (k := .any) trivial (fun _ h => nomatch h)

theorem signature_of_none (env : Env) {p : Nat} (hp : p < env.file.size) (later : Later env.file p)
    {q : Nat} (hq : p ≤ q) (h : env.file.anglesFrom? q = none) :
    signature env hp later q hq = unexpected env.file q "`>`" := by
  unfold signature
  split
  · rfl
  · next o h' => exact absurd (h.symm.trans h') (by simp)

theorem signature_of_some (env : Env) {p : Nat} (hp : p < env.file.size) (later : Later env.file p)
    {q o : Nat} (hq : p ≤ q) (h : env.file.anglesFrom? q = some o) :
    signature env hp later q hq =
      if env.file.hasKind o .lparen then
        match env.file.closer? o with
        | none => unexpected env.file o "`(`"
        | some ⟨c, hc⟩ =>
          signatureResult env hp later q c hq
            ⟨Nat.lt_of_le_of_lt (File.le_of_anglesFrom? h) hc.1, hc.2⟩
      else unexpected env.file o "`(`" := by
  unfold signature
  split
  · next h' => exact absurd (h.symm.trans h') (by simp)
  · next o' h' =>
    obtain rfl : o = o' := Option.some.inj (h.symm.trans h')
    rfl

theorem signature_tracks (T : Transport φ R valid) {p : Nat} (hp : p < f.size) {later later' : Later f p}
    (hlater : LaterTracks φ R valid strict Γ later later') (q : Nat) (hq : p ≤ q) :
    Tracks R valid strict Γ (Parsed.map φ) (signature ⟨f, scope, params⟩ hp later q hq)
      (signature ⟨f, scope', renameParams φ params⟩ hp later' q hq) := by
  cases hs : f.anglesFrom? q with
  | none =>
    rw [signature_of_none ⟨f, scope, params⟩ hp later hq hs,
      signature_of_none ⟨f, scope', renameParams φ params⟩ hp later' hq hs]
    exact Tracks.fail _ _ _
  | some o =>
    rw [signature_of_some ⟨f, scope, params⟩ hp later hq hs,
      signature_of_some ⟨f, scope', renameParams φ params⟩ hp later' hq hs]
    apply Tracks.ite
    · intro _
      cases f.closer? o with
      | none =>
        exact Tracks.fail _ _ _
      | some c =>
        exact signatureResult_tracks T hp hlater q c.1 hq _
    · intro _
      exact Tracks.fail _ _ _

/-- A member with its types renamed. -/
def Member.mapIds (φ : TypeId → TypeId) : Member → Member
  | .call result => .call (φ result)
  | .index key value => .index (φ key) (φ value)
  | .property p => .property (p.mapIds φ)

def Body.mapIds (φ : TypeId → TypeId) (b : Body) : Body :=
  ⟨b.object.mapIds φ, b.index.map fun kv => (φ kv.1, φ kv.2)⟩

theorem Body.add_mapIds (b : Body) (m : Member) :
    (b.add m).mapIds φ = (b.mapIds φ).add (m.mapIds φ) := by
  cases m with
  | call result => simp [Body.add, Body.mapIds, Member.mapIds, ObjectType.mapIds]
  | index key value => rfl
  | property p =>
    simp only [Body.add, Body.mapIds, Member.mapIds, ObjectType.addProperty_mapIds]

theorem ObjectType.mem_ids {o : ObjectType} {id : TypeId} :
    id ∈ ids o ↔ (∃ a, o.aliased = some a ∧ id ∈ a.args) ∨ id ∈ o.typeArgs ∨
      (∃ p ∈ o.properties, id = p.type) ∨ id ∈ o.calls := by
  show id ∈ ((o.aliased.map (·.args)).getD []) ++ (o.typeArgs ++ (ids o.properties ++ o.calls)) ↔ _
  rw [List.mem_append, List.mem_append, List.mem_append, mem_ids_list]
  cases o.aliased with
  | none => simp [ids]
  | some a => simp [ids]

theorem ObjectType.mem_ids_addProperty {o : ObjectType} {p : Property} {id : TypeId}
    (h : id ∈ ids (o.addProperty p)) : id ∈ ids o ∨ id = p.type := by
  unfold ObjectType.addProperty at h
  split at h
  · exact Or.inl h
  · rw [ObjectType.mem_ids] at h ⊢
    rcases h with h | h | ⟨q, hq, rfl⟩ | h
    · exact Or.inl (Or.inl h)
    · exact Or.inl (Or.inr (Or.inl h))
    · rcases List.mem_append.mp hq with hq | hq
      · exact Or.inl (Or.inr (Or.inr (Or.inl ⟨q, hq, rfl⟩)))
      · rw [List.mem_singleton.mp hq]
        exact Or.inr rfl
    · exact Or.inl (Or.inr (Or.inr (Or.inr h)))

theorem Body.mem_ids_add {b : Body} {m : Member} {id : TypeId} (h : id ∈ ids (b.add m)) :
    id ∈ ids b ∨ id ∈ ids m := by
  obtain ⟨object, index⟩ := b
  cases m with
  | call result =>
    rcases List.mem_append.mp h with h | h
    · rw [ObjectType.mem_ids] at h
      rcases h with h | h | h | h
      · exact Or.inl (List.mem_append_left _ (ObjectType.mem_ids.mpr (Or.inl h)))
      · exact Or.inl (List.mem_append_left _ (ObjectType.mem_ids.mpr (Or.inr (Or.inl h))))
      · exact Or.inl (List.mem_append_left _ (ObjectType.mem_ids.mpr (Or.inr (Or.inr (Or.inl h)))))
      · rcases List.mem_append.mp h with h | h
        · exact Or.inl (List.mem_append_left _ (ObjectType.mem_ids.mpr (Or.inr (Or.inr (Or.inr h)))))
        · exact Or.inr h
    · exact Or.inl (List.mem_append_right _ h)
  | index key value =>
    rcases List.mem_append.mp h with h | h
    · exact Or.inl (List.mem_append_left _ h)
    · exact Or.inr h
  | property p =>
    rcases List.mem_append.mp h with h | h
    · rcases ObjectType.mem_ids_addProperty h with h | h
      · exact Or.inl (List.mem_append_left _ h)
      · exact Or.inr (List.mem_singleton.mpr h)
    · exact Or.inl (List.mem_append_right _ h)

theorem propertyKey_tracks (q : Nat) :
    Tracks R valid strict Γ id (propertyKey f q) (propertyKey f q) := by
  unfold propertyKey
  split
  · exact Tracks.pure id (fun _ h => nomatch h)
  · exact Tracks.pure id (fun _ h => nomatch h)
  · exact Tracks.pure id (fun _ h => nomatch h)
  · split
    · split
      · exact Tracks.pure id (fun _ h => nomatch h)
      · exact Tracks.fail id _ _
    · exact Tracks.fail id _ _
  · exact Tracks.fail id _ _

theorem indexSignature_tracks {p : Nat} (hp : p < f.size) {later later' : Later f p}
    (hlater : LaterTracks φ R valid strict Γ later later') (q : Nat) (hq : p ≤ q) :
    Tracks R valid strict Γ (Parsed.map (Member.mapIds φ))
      (indexSignature ⟨f, scope, params⟩ hp later q hq)
      (indexSignature ⟨f, scope', renameParams φ params⟩ hp later' q hq) := by
  unfold indexSignature
  apply Tracks.bind (hlater (q + 3) _)
  intro key
  apply Tracks.ite
  · intro _
    apply Tracks.ite
    · intro _
      apply Tracks.bind (hlater.after _ (key.next + 2) _)
      intro value
      apply Tracks.pure (Parsed.map (Member.mapIds φ))
      intro id hid
      rcases List.mem_cons.mp hid with rfl | hid
      · exact List.mem_append_right _ (List.mem_append_left _ List.mem_cons_self)
      · exact List.mem_append_left _ hid
    · intro _
      exact Tracks.fail _ _ _
  · intro _
    exact Tracks.fail _ _ _

theorem propertyMember_tracks (T : Transport φ R valid) {p : Nat} (hp : p < f.size)
    {later later' : Later f p} (hlater : LaterTracks φ R valid strict Γ later later') (q : Nat) (hq : p ≤ q) :
    Tracks R valid strict Γ (Parsed.map (Member.mapIds φ))
      (propertyMember ⟨f, scope, params⟩ hp later q hq)
      (propertyMember ⟨f, scope', renameParams φ params⟩ hp later' q hq) := by
  unfold propertyMember
  apply Tracks.bind (propertyKey_tracks q)
  intro key
  -- The end of a property adds `undefined` to the type of an optional one.
  have hfinish : ∀ (Γ : List TypeId) (type : TypeId), type ∈ Γ → ∀ (next : Nat) (lt : q < next)
      (le : next ≤ f.size) (optional : Bool),
      Tracks R valid strict Γ (Parsed.map (Member.mapIds φ))
        (if optional = true then do
            let undefined ← onTable (Table.insert .undefined)
            let type ← onTable (Table.union [type, undefined])
            return ⟨.property ⟨key.value, type, true⟩, next, lt, le⟩
          else return ⟨.property ⟨key.value, type, false⟩, next, lt, le⟩ : Parse (Parsed f q Member))
        (if optional = true then do
            let undefined ← onTable (Table.insert .undefined)
            let type ← onTable (Table.union [φ type, undefined])
            return ⟨.property ⟨key.value, type, true⟩, next, lt, le⟩
          else return ⟨.property ⟨key.value, φ type, false⟩, next, lt, le⟩) := by
    intro Γ type htype next lt le optional
    apply Tracks.ite
    · intro _
      apply Tracks.bind (Tracks.insert T (k := .undefined) trivial (fun _ h => nomatch h))
      intro undefined
      have hmembers : ∀ id ∈ [type, undefined], id ∈ ids undefined ++ Γ := by
        intro id hid
        rcases List.mem_cons.mp hid with rfl | hid
        · exact List.mem_append_right _ htype
        · exact List.mem_append_left _ hid
      apply Tracks.bind (Tracks.union T hmembers)
      intro union
      exact Tracks.pure (Parsed.map (Member.mapIds φ)) fun _ => List.mem_append_left _
    · intro _
      apply Tracks.pure (Parsed.map (Member.mapIds φ))
      intro id hid
      rw [List.mem_singleton.mp hid]
      exact htype
  apply Tracks.ite
  · intro _
    apply Tracks.bind (signature_tracks T hp (hlater.after _) _ _)
    intro result
    apply Tracks.bind (Tracks.function T (List.mem_append_left _ List.mem_cons_self))
    intro type
    exact hfinish _ type (List.mem_append_left _ List.mem_cons_self) _ _ _ _
  · intro _
    apply Tracks.ite
    · intro _
      apply Tracks.bind (hlater.after _ _ _)
      intro type
      exact hfinish _ type.value (List.mem_append_left _ List.mem_cons_self) _ _ _ _
    · intro _
      exact Tracks.fail _ _ _

theorem member_tracks (T : Transport φ R valid) {p : Nat} (hp : p < f.size) {later later' : Later f p}
    (hlater : LaterTracks φ R valid strict Γ later later') (q : Nat) (hq : p ≤ q) :
    Tracks R valid strict Γ (Parsed.map (Member.mapIds φ)) (member ⟨f, scope, params⟩ hp later q hq)
      (member ⟨f, scope', renameParams φ params⟩ hp later' q hq) := by
  unfold member
  apply Tracks.ite
  · intro _
    apply Tracks.bind (signature_tracks T hp hlater q hq)
    intro result
    exact Tracks.pure (Parsed.map (Member.mapIds φ)) fun _ => List.mem_append_left Γ
  · intro _
    apply Tracks.ite
    · intro _
      exact Tracks.fail _ _ _
    · intro _
      apply Tracks.ite
      · intro _
        exact indexSignature_tracks hp hlater q hq
      · intro _
        exact propertyMember_tracks T hp hlater q hq

theorem members_tracks (T : Transport φ R valid) {p : Nat} (hp : p < f.size) {later later' : Later f p}
    (hlater : LaterTracks φ R valid strict Γ later later') (close q : Nat) (hq : p ≤ q) (body : Body)
    (hbody : ∀ id ∈ ids body, id ∈ Γ) :
    Tracks R valid strict Γ (Body.mapIds φ) (members ⟨f, scope, params⟩ hp later close q hq body)
      (members ⟨f, scope', renameParams φ params⟩ hp later' close q hq (body.mapIds φ)) := by
  fun_induction members ⟨f, scope, params⟩ hp later close q hq body generalizing Γ with
  | case1 q hq body h =>
    rw [members, dif_pos h]
    exact Tracks.pure (Body.mapIds φ) hbody
  | case2 q hq body h hsep ih =>
    have hstep : members ⟨f, scope', renameParams φ params⟩ hp later' close q hq (body.mapIds φ) =
        members ⟨f, scope', renameParams φ params⟩ hp later' close (q + 1) (by omega)
          (body.mapIds φ) := by
      rw [members, dif_neg h, if_pos hsep]
    rw [hstep]
    exact ih hlater hbody
  | case3 q hq body h hsep start hs =>
    rename_i ih
    rw [members, dif_neg h, if_neg hsep]
    apply Tracks.bind (member_tracks T hp hlater _ _)
    intro m
    have hadd : ∀ id ∈ ids (body.add m.value), id ∈ ids m ++ Γ := by
      intro id hid
      rcases Body.mem_ids_add hid with hid | hid
      · exact List.mem_append_right _ (hbody id hid)
      · exact List.mem_append_left _ hid
    have hnext := ih m (hlater.after _) hadd
    rw [Body.add_mapIds] at hnext
    exact hnext

theorem ids_recordObject (key value : TypeId) : ids (Builtin.recordObject key value) = [key, value] := rfl

theorem toObject_tracks {body : Body} (hbody : ∀ id ∈ ids body, id ∈ Γ) (next : Nat) :
    Tracks R valid strict Γ (ObjectType.mapIds φ) (body.toObject next) ((body.mapIds φ).toObject next) := by
  obtain ⟨object, index⟩ := body
  cases index with
  | none =>
    apply Tracks.pure (ObjectType.mapIds φ)
    intro id hid
    exact hbody id (List.mem_append_left _ hid)
  | some kv =>
    have hempty : ((object.mapIds φ).properties.isEmpty && (object.mapIds φ).calls.isEmpty) =
        (object.properties.isEmpty && object.calls.isEmpty) := by
      simp [ObjectType.mapIds]
    unfold Body.toObject Body.mapIds
    simp only [Option.map_some, hempty]
    apply Tracks.ite
    · intro _
      apply Tracks.pure (ObjectType.mapIds φ) (a := Builtin.recordObject kv.1 kv.2)
      intro id hid
      rw [ids_recordObject] at hid
      exact hbody id (List.mem_append_right _ hid)
    · intro _
      exact Tracks.fail _ _ _

theorem objectBody_tracks (T : Transport φ R valid) (p : Nat) {later later' : Later f p}
    (hlater : LaterTracks φ R valid strict Γ later later') :
    Tracks R valid strict Γ (Parsed.map (ObjectType.mapIds φ)) (objectBody ⟨f, scope, params⟩ p later)
      (objectBody ⟨f, scope', renameParams φ params⟩ p later') := by
  unfold objectBody
  apply Tracks.dite
  · intro h
    cases f.closer? p with
    | none =>
      exact Tracks.fail _ _ _
    | some c =>
      apply Tracks.bind (members_tracks T (File.lt_size_of_hasKind h) hlater c.1 (p + 1) _ {}
        (fun _ h => nomatch h))
      intro body
      apply Tracks.bind (toObject_tracks (fun _ => List.mem_append_left Γ) (c.1 + 1))
      intro object
      exact Tracks.pure (Parsed.map (ObjectType.mapIds φ)) fun _ => List.mem_append_left _
  · intro _
    exact Tracks.fail _ _ _

/-! ### Tuples and type arguments -/

theorem tupleElement_mapIds {t t' : Table} (hkind : ∀ id, t'.kind (φ id) = (t.kind id).mapIds φ)
    (spread isOptional : Bool) (type : TypeId) :
    tupleElement t' spread isOptional (φ type) = (tupleElement t spread isOptional type).mapIds φ := by
  unfold tupleElement
  rw [hkind]
  cases spread with
  | false => rfl
  | true =>
    cases t.kind type with
    | array e => cases e <;> rfl
    | _ => rfl

theorem mem_ids_tupleElement {t : Table} {spread isOptional : Bool} {type id : TypeId}
    (h : id ∈ ids (tupleElement t spread isOptional type)) : id = type ∨ id ∈ ids (t.kind type) := by
  unfold tupleElement at h
  split at h
  · split at h
    · next element hkind =>
      rw [hkind]
      exact Or.inr h
    · exact Or.inl (List.mem_singleton.mp h)
  · exact Or.inl (List.mem_singleton.mp h)

theorem tupleRest_tracks (T : Transport φ R valid) {p : Nat} (hp : p < f.size) {later later' : Later f p}
    (hlater : LaterTracks φ R valid strict Γ later later') (q : Nat) (hq : p < q) (elements : List Element)
    (helements : ∀ id ∈ ids elements, id ∈ Γ) :
    Tracks R valid strict Γ (Parsed.map (List.map (Element.mapIds φ)))
      (tupleRest ⟨f, scope, params⟩ hp later q hq elements)
      (tupleRest ⟨f, scope', renameParams φ params⟩ hp later' q hq
        (elements.map (Element.mapIds φ))) := by
  fun_induction tupleRest ⟨f, scope, params⟩ hp later q hq elements generalizing Γ with
  | case1 q hq elements h =>
    rw [tupleRest, dif_pos h]
    exact Tracks.pure (Parsed.map (List.map (Element.mapIds φ))) helements
  | case2 q hq elements h spread start hs label =>
    rename_i ih
    rw [tupleRest, dif_neg h]
    apply Tracks.bind (hlater _ _)
    intro type
    apply Tracks.bind_get
    intro s s' hstate hΓ
    have helement := tupleElement_mapIds (T.kind hstate) spread
      (label.2 || f.hasKind type.next .question) type.value
    -- The element of a spread array is found in the table, so it joins the context here.
    let element := tupleElement s.table spread (label.2 || f.hasKind type.next .question) type.value
    have hids : ∀ id ∈ ids (elements ++ [element]), id ∈ ids element ++ (ids type ++ Γ) := by
      intro id hid
      obtain ⟨e, he, hid⟩ := mem_ids_list.mp hid
      rcases List.mem_append.mp he with he | he
      · exact List.mem_append_right _ (List.mem_append_right _ (helements id (mem_ids_list.mpr ⟨e, he, hid⟩)))
      · rw [List.mem_singleton.mp he] at hid
        exact List.mem_append_left _ hid
    refine ⟨ids element ++ (ids type ++ Γ), ?_, ?_⟩
    · intro id hid
      rcases List.mem_append.mp hid with hid | hid
      · have htype := hΓ type.value (List.mem_append_left _ List.mem_cons_self)
        rcases mem_ids_tupleElement hid with rfl | hid
        · exact htype
        · exact T.valid_kind hstate _ htype id hid
      · exact hΓ id hid
    · apply Tracks.dite
      · intro hc
        have hnext := ih type s hc ((hlater.after _).after _) hids
        rw [List.map_append, List.map_singleton, ← helement] at hnext
        exact hnext
      · intro _
        apply Tracks.dite
        · intro hb
          refine Tracks.pure_of_eq ?_ hids
          simp only [Parsed.map, List.map_append, List.map_singleton, ← helement]
          rfl
        · intro _
          exact Tracks.fail _ _ _

theorem typeArguments_tracks {p : Nat} (hp : p < f.size) {later later' : Later f p}
    (hlater : LaterTracks φ R valid strict Γ later later') (q : Nat) (hq : p < q) (args : List TypeId)
    (hargs : ∀ id ∈ args, id ∈ Γ) :
    Tracks R valid strict Γ (Parsed.map (List.map φ)) (typeArguments ⟨f, scope, params⟩ hp later q hq args)
      (typeArguments ⟨f, scope', renameParams φ params⟩ hp later' q hq (args.map φ)) := by
  fun_induction typeArguments ⟨f, scope, params⟩ hp later q hq args generalizing Γ with
  | case1 q hq args ih =>
    rw [typeArguments]
    apply Tracks.bind (hlater q _)
    intro type
    have hids : ∀ id ∈ args ++ [type.value], id ∈ ids type ++ Γ := mem_concat_context hargs
    apply Tracks.dite
    · intro hc
      have hnext := ih type hc (hlater.after _) hids
      rw [List.map_append, List.map_singleton] at hnext
      exact hnext
    · intro _
      apply Tracks.dite
      · intro hg
        refine Tracks.pure_of_eq ?_ ?_
        · simp only [Parsed.map, List.map_append, List.map_singleton]
        · intro id hid
          rw [show ids (Parsed.mk (args ++ [type.value]) _ _ _) = args ++ [type.value] from
            ids_list_typeId _] at hid
          exact hids id hid
      · intro _
        exact Tracks.fail _ _ _

/-! ### Named types -/

theorem lookup_renameParams (params : List (String × TypeId)) (name : String) :
    (renameParams φ params).lookup name = (params.lookup name).map φ := by
  induction params with
  | nil => rfl
  | cons b bs ih =>
    obtain ⟨key, type⟩ := b
    simp only [renameParams, List.map_cons, List.lookup_cons] at ih ⊢
    split
    · rfl
    · exact ih

theorem mem_of_lookup_eq_some {α β : Type} [BEq α] [LawfulBEq α] {l : List (α × β)} {a : α} {b : β}
    (h : l.lookup a = some b) : (a, b) ∈ l := by
  induction l with
  | nil => cases h
  | cons kv l ih =>
    obtain ⟨k, v⟩ := kv
    rw [List.lookup_cons] at h
    split at h
    · next heq =>
      rw [eq_of_beq heq, Option.some.inj h]
      exact List.mem_cons_self
    · exact List.mem_cons_of_mem _ (ih h)

theorem reference_tracks (hscope : ScopeTracks φ R valid strict f scope scope')
    (hparams : ∀ id ∈ ids params, id ∈ Γ) (p : Nat) (hp : p < f.size)
    {later later' : Later f p} (hlater : LaterTracks φ R valid strict Γ later later') :
    Tracks R valid strict Γ (Parsed.map φ) (reference ⟨f, scope, params⟩ p hp later)
      (reference ⟨f, scope', renameParams φ params⟩ p hp later') := by
  unfold reference
  apply Tracks.ite
  · intro _
    apply Tracks.dite
    · intro hm
      apply Tracks.ite
      · intro _
        exact Tracks.fail _ _ _
      · intro _
        have hmember := (hscope.member p (f.tokenText (p + 2))).weaken (Δ := Γ)
          (fun _ h => nomatch h)
        apply Tracks.bind (Tracks.lookup _ hmember)
        intro type
        exact Tracks.pure (Parsed.map φ) fun _ => List.mem_append_left Γ
    · intro _
      exact Tracks.fail _ _ _
  · intro _
    apply Tracks.ite
    · intro _
      apply Tracks.bind (typeArguments_tracks hp hlater (p + 2) _ [] (fun _ h => nomatch h))
      intro args
      have hnamed := (hscope.named p args.value).weaken (Δ := ids args ++ Γ) (by
        intro id hid
        rw [show ids args = args.value from ids_list_typeId args.value]
        exact List.mem_append_left Γ hid)
      apply Tracks.bind (Tracks.lookup _ hnamed)
      intro type
      exact Tracks.pure (Parsed.map φ) fun _ => List.mem_append_left _
    · intro _
      simp only [lookup_renameParams]
      cases hlookup : params.lookup (f.tokenText p) with
      | some type =>
        apply Tracks.pure (Parsed.map φ)
        intro id hid
        apply hparams id
        exact mem_ids_list.mpr ⟨_, mem_of_lookup_eq_some hlookup, hid⟩
      | none =>
        have hnamed := (hscope.named p []).weaken (Δ := Γ) (fun _ h => nomatch h)
        apply Tracks.bind (Tracks.lookup _ hnamed)
        intro type
        exact Tracks.pure (Parsed.map φ) fun _ => List.mem_append_left Γ

theorem readable_keyword {word : String} {k : TypeKind} (h : keyword? word = some k) :
    Readable k ∧ k.mapIds φ = k ∧ ids k = [] := by
  unfold keyword? at h
  split at h <;> cases h <;> exact ⟨trivial, rfl, rfl⟩

theorem named_tracks (T : Transport φ R valid) (hscope : ScopeTracks φ R valid strict f scope scope')
    (hparams : ∀ id ∈ ids params, id ∈ Γ) (p : Nat) (hp : p < f.size) {later later' : Later f p} (hlater : LaterTracks φ R valid strict Γ later later') :
    Tracks R valid strict Γ (Parsed.map φ) (named ⟨f, scope, params⟩ p hp later)
      (named ⟨f, scope', renameParams φ params⟩ p hp later') := by
  unfold named
  simp only
  cases hk : keyword? (f.tokenText p) with
  | some k =>
    obtain ⟨hread, hmap, hids⟩ := readable_keyword (φ := φ) hk
    have hinsert : Tracks R valid strict Γ (Parsed.map φ) (insertAs f p (p + 1) (by omega) hp k)
        (insertAs f p (p + 1) (by omega) hp (k.mapIds φ)) := by
      apply Tracks.insertAs T _ _ hread
      rw [hids]
      exact fun _ h => nomatch h
    rw [hmap] at hinsert
    exact hinsert
  | none =>
    apply Tracks.ite
    · intro _
      exact Tracks.fail _ _ _
    · intro _
      exact reference_tracks hscope hparams p hp hlater

/-! ### Primary and postfix types -/

theorem parenthesized_tracks (T : Transport φ R valid) (p : Nat) (hp : p < f.size) {later later' : Later f p}
    (hlater : LaterTracks φ R valid strict Γ later later') :
    Tracks R valid strict Γ (Parsed.map φ) (parenthesized ⟨f, scope, params⟩ p hp later)
      (parenthesized ⟨f, scope', renameParams φ params⟩ p hp later') := by
  unfold parenthesized
  simp only
  cases f.closer? p with
  | none => exact Tracks.fail _ _ _
  | some c =>
    apply Tracks.ite
    · intro _
      apply Tracks.bind (hlater _ _)
      intro result
      apply Tracks.bind (Tracks.function T (List.mem_append_left _ List.mem_cons_self))
      intro type
      exact Tracks.pure (Parsed.map φ) fun _ => List.mem_append_left _
    · intro _
      apply Tracks.bind (hlater _ _)
      intro inner
      apply Tracks.dite
      · intro _
        exact Tracks.pure (Parsed.map φ) fun _ => List.mem_append_left Γ
      · intro _
        exact Tracks.fail _ _ _

theorem insertNumber_tracks (T : Transport φ R valid) {p next : Nat} (lt : p < next) (le : next ≤ f.size)
    (i : Nat) (negative : Bool) :
    Tracks R valid strict Γ (Parsed.map φ)
      (numberLiteral f i next negative >>= fun k => insertAs f p next lt le k)
      (numberLiteral f i next negative >>= fun k => insertAs f p next lt le k) := by
  unfold numberLiteral
  cases Binary64.ofToken? (f.tokenText i) with
  | some x =>
    exact Tracks.insertAs T lt le
      (k := .literal (.number (if negative then x.neg else x))) trivial (fun _ h => nomatch h)
  | none => exact Tracks.fail _ _ _

theorem isDigit_of_mem_bigIntDigits (token : String) :
    ∀ c ∈ (bigIntDigits token).toList, c.isDigit = true := by
  intro c hc
  unfold bigIntDigits at hc
  rw [String.toList_ofList, List.mem_filter] at hc
  exact hc.2

theorem primaryOf_tracks (T : Transport φ R valid) (hscope : ScopeTracks φ R valid strict f scope scope')
    (hparams : ∀ id ∈ ids params, id ∈ Γ) (p : Nat) (hp : p < f.size) {later later' : Later f p} (hlater : LaterTracks φ R valid strict Γ later later')
    (k : Kind) :
    Tracks R valid strict Γ (Parsed.map φ) (primaryOf ⟨f, scope, params⟩ p hp later k)
      (primaryOf ⟨f, scope', renameParams φ params⟩ p hp later' k) := by
  cases k with
  | lparen => exact parenthesized_tracks T p hp hlater
  | lbrace =>
    apply Tracks.bind (objectBody_tracks T p hlater)
    intro body
    exact Tracks.insertAs T _ _ (k := .object body.value) trivial fun _ => List.mem_append_left Γ
  | lbracket =>
    apply Tracks.bind (tupleRest_tracks T hp hlater (p + 1) _ [] (fun _ h => nomatch h))
    intro elements
    exact Tracks.insertAs T _ _ (k := .tuple elements.value) trivial fun _ => List.mem_append_left Γ
  | str => exact Tracks.insertAs T _ _ (k := .literal (.text _)) trivial (fun _ h => nomatch h)
  | template =>
    apply Tracks.ite
    · intro _
      exact Tracks.fail _ _ _
    · intro _
      exact Tracks.insertAs T _ _ (k := .literal (.text _)) trivial (fun _ h => nomatch h)
  | number => exact insertNumber_tracks T _ _ p false
  | minus =>
    apply Tracks.dite
    · intro hn
      exact insertNumber_tracks T _ _ (p + 1) true
    · intro _
      exact Tracks.fail _ _ _
  | bigInt =>
    exact Tracks.insertAs T _ _ (k := .literal (.bigInt _)) (isDigit_of_mem_bigIntDigits _)
      (fun _ h => nomatch h)
  | ident => exact named_tracks T hscope hparams p hp hlater
  | _ => exact Tracks.fail _ _ _

theorem primary_of_none (env : Env) {p : Nat} (later : Later env.file p)
    (h : env.file.kind? p = none) : primary env p later = unexpected env.file p "a type" := by
  unfold primary
  split
  · rfl
  · next k h' => exact absurd (h.symm.trans h') (by simp)

theorem primary_of_some (env : Env) {p : Nat} (later : Later env.file p) {k : Kind}
    (h : env.file.kind? p = some k) :
    primary env p later = primaryOf env p (File.lt_size_of_kind? h) later k := by
  unfold primary
  split
  · next h' => exact absurd (h.symm.trans h') (by simp)
  · next k' h' =>
    obtain rfl : k = k' := Option.some.inj (h.symm.trans h')
    rfl

theorem primary_tracks (T : Transport φ R valid) (hscope : ScopeTracks φ R valid strict f scope scope')
    (hparams : ∀ id ∈ ids params, id ∈ Γ) (p : Nat) {later later' : Later f p} (hlater : LaterTracks φ R valid strict Γ later later') :
    Tracks R valid strict Γ (Parsed.map φ) (primary ⟨f, scope, params⟩ p later)
      (primary ⟨f, scope', renameParams φ params⟩ p later') := by
  cases hk : f.kind? p with
  | none =>
    rw [primary_of_none ⟨f, scope, params⟩ later hk,
      primary_of_none ⟨f, scope', renameParams φ params⟩ later' hk]
    exact Tracks.fail _ _ _
  | some k =>
    rw [primary_of_some ⟨f, scope, params⟩ later hk,
      primary_of_some ⟨f, scope', renameParams φ params⟩ later' hk]
    exact primaryOf_tracks T hscope hparams p _ hlater k

theorem arraySuffix_tracks (T : Transport φ R valid) (p q : Nat) (lt : p < q) (le : q ≤ f.size)
    {type : TypeId} (htype : type ∈ Γ) :
    Tracks R valid strict Γ (Parsed.map φ) (arraySuffix f p q lt le type)
      (arraySuffix f p q lt le (φ type)) := by
  fun_induction arraySuffix f p q lt le type generalizing Γ with
  | case1 q lt le type hopen hclose ih =>
    rw [arraySuffix, if_pos hopen, dif_pos hclose]
    apply Tracks.bind (Tracks.insert T (k := .array (some type)) trivial (by
      intro id hid
      rw [List.mem_singleton.mp hid]
      exact htype))
    intro array
    exact ih array (List.mem_append_left Γ List.mem_cons_self)
  | case2 q lt le type hopen hclose =>
    rw [arraySuffix, if_pos hopen, dif_neg hclose]
    exact Tracks.fail _ _ _
  | case3 q lt le type hopen =>
    rw [arraySuffix, if_neg hopen]
    apply Tracks.pure (Parsed.map φ)
    intro id hid
    rw [List.mem_singleton.mp hid]
    exact htype

theorem LaterTracks.mono {p q : Nat} {later later' : Later f p}
    (hlater : LaterTracks φ R valid strict Γ later later') (h : p ≤ q) :
    LaterTracks φ R valid strict Γ (later.mono h) (later'.mono h) := by
  intro r hr
  exact hlater r _

theorem postfixType_tracks (T : Transport φ R valid) (hscope : ScopeTracks φ R valid strict f scope scope')
    (hparams : ∀ id ∈ ids params, id ∈ Γ) (p : Nat) {later later' : Later f p} (hlater : LaterTracks φ R valid strict Γ later later') :
    Tracks R valid strict Γ (Parsed.map φ) (postfixType ⟨f, scope, params⟩ p later)
      (postfixType ⟨f, scope', renameParams φ params⟩ p later') := by
  unfold postfixType
  apply Tracks.bind (primary_tracks T hscope hparams _ (hlater.mono _))
  intro base
  exact arraySuffix_tracks T p base.next _ _ (List.mem_append_left Γ List.mem_cons_self)

/-! ### Types -/

theorem sole_tracks {p : Nat} (r : Parsed f p (List TypeId)) {build : List TypeId → TableM TypeId}
    (hbuild : Tracks (ε := ParseError) R valid strict (r.value ++ Γ) φ (onTable (build r.value))
      (onTable (build (r.value.map φ)))) :
    Tracks R valid strict (r.value ++ Γ) (Parsed.map φ)
      (match r.value with
        | [only] => return ⟨only, r.next, r.lt_next, r.next_le⟩
        | many => return ⟨← onTable (build many), r.next, r.lt_next, r.next_le⟩ :
        Parse (Parsed f p TypeId))
      (match r.value.map φ with
        | [only] => return ⟨only, r.next, r.lt_next, r.next_le⟩
        | many => return ⟨← onTable (build many), r.next, r.lt_next, r.next_le⟩) := by
  have hmany : Tracks R valid strict (r.value ++ Γ) (Parsed.map φ)
      (do return ⟨← onTable (build r.value), r.next, r.lt_next, r.next_le⟩ : Parse (Parsed f p TypeId))
      (do return ⟨← onTable (build (r.value.map φ)), r.next, r.lt_next, r.next_le⟩) := by
    apply Tracks.bind hbuild
    intro type
    exact Tracks.pure (Parsed.map φ) fun _ => List.mem_append_left _
  generalize r.value = ms at hmany ⊢
  match ms with
  | [only] => exact Tracks.pure (Parsed.map φ) fun _ => List.mem_append_left Γ
  | [] => exact hmany
  | a :: b :: rest => exact hmany

theorem intersectionType_tracks (T : Transport φ R valid) (hscope : ScopeTracks φ R valid strict f scope scope')
    (hparams : ∀ id ∈ ids params, id ∈ Γ) (p : Nat) {later later' : Later f p} (hlater : LaterTracks φ R valid strict Γ later later') :
    Tracks R valid strict Γ (Parsed.map φ) (intersectionType ⟨f, scope, params⟩ p later)
      (intersectionType ⟨f, scope', renameParams φ params⟩ p later') := by
  unfold intersectionType
  apply Tracks.bind (separated_tracks fun q h => postfixType_tracks T hscope hparams q (hlater.mono h))
  intro members
  rw [show ids members = members.value from ids_list_typeId members.value]
  exact sole_tracks members (Tracks.intersection T fun _ => List.mem_append_left Γ)

theorem unionType_tracks (T : Transport φ R valid) (hscope : ScopeTracks φ R valid strict f scope scope')
    (hparams : ∀ id ∈ ids params, id ∈ Γ) (p : Nat) {later later' : Later f p} (hlater : LaterTracks φ R valid strict Γ later later') :
    Tracks R valid strict Γ (Parsed.map φ) (unionType ⟨f, scope, params⟩ p later)
      (unionType ⟨f, scope', renameParams φ params⟩ p later') := by
  unfold unionType
  apply Tracks.bind (separated_tracks fun q h => intersectionType_tracks T hscope hparams q (hlater.mono h))
  intro members
  rw [show ids members = members.value from ids_list_typeId members.value]
  exact sole_tracks members (Tracks.union T fun _ => List.mem_append_left Γ)

theorem typeWith_tracks (T : Transport φ R valid) (hscope : ScopeTracks φ R valid strict f scope scope')
    (hparams : ∀ id ∈ ids params, id ∈ Γ) (p : Nat) {later later' : Later f p} (hlater : LaterTracks φ R valid strict Γ later later') :
    Tracks R valid strict Γ (Parsed.map φ) (typeWith ⟨f, scope, params⟩ p later)
      (typeWith ⟨f, scope', renameParams φ params⟩ p later') := by
  unfold typeWith
  apply Tracks.bind (unionType_tracks T hscope hparams p hlater)
  intro type
  apply Tracks.ite
  · intro _
    exact Tracks.fail _ _ _
  · intro _
    exact Tracks.pure (Parsed.map φ) fun _ => List.mem_append_left Γ

/-- Reading a type is transported. -/
theorem typeAt_tracks (T : Transport φ R valid) (hscope : ScopeTracks φ R valid strict f scope scope')
    (hparams : ∀ id ∈ ids params, id ∈ Γ) (p : Nat) :
    Tracks R valid strict Γ (Parsed.map φ) (typeAt ⟨f, scope, params⟩ p)
      (typeAt ⟨f, scope', renameParams φ params⟩ p) := by
  induction hn : f.size - p using Nat.strongRecOn generalizing p with
  | ind n ih =>
    rw [typeAt, typeAt]
    apply typeWith_tracks T hscope hparams
    intro q hq
    exact ih (f.size - q) (by omega) q rfl

theorem objectAt_tracks (T : Transport φ R valid) (hscope : ScopeTracks φ R valid strict f scope scope')
    (hparams : ∀ id ∈ ids params, id ∈ Γ) (p : Nat) :
    Tracks R valid strict Γ (Parsed.map (ObjectType.mapIds φ)) (objectAt ⟨f, scope, params⟩ p)
      (objectAt ⟨f, scope', renameParams φ params⟩ p) :=
  objectBody_tracks T p fun q _ => typeAt_tracks T hscope hparams q

theorem heritageRest_tracks (T : Transport φ R valid) (hscope : ScopeTracks φ R valid strict f scope scope')
    (hparams : ∀ id ∈ ids params, id ∈ Γ) (q : Nat) (bases : List TypeId) (hbases : ∀ id ∈ bases, id ∈ Γ) :
    Tracks R valid strict Γ (Prod.map (List.map φ) id) (heritageRest ⟨f, scope, params⟩ q bases)
      (heritageRest ⟨f, scope', renameParams φ params⟩ q (bases.map φ)) := by
  fun_induction heritageRest ⟨f, scope, params⟩ q bases generalizing Γ with
  | case1 q bases ih =>
    rw [heritageRest]
    apply Tracks.bind (postfixType_tracks T hscope hparams q fun r _ => typeAt_tracks T hscope hparams r)
    intro base
    have hids : ∀ id ∈ bases ++ [base.value], id ∈ ids base ++ Γ := mem_concat_context hbases
    apply Tracks.dite
    · intro hc
      have hnext := ih base hc (fun id hid => List.mem_append_right _ (hparams id hid)) hids
      rw [List.map_append, List.map_singleton] at hnext
      exact hnext
    · intro _
      refine Tracks.pure_of_eq ?_ ?_
      · simp [Parsed.map]
      · intro id hid
        rcases List.mem_append.mp hid with hid | hid
        · rw [ids_list_typeId] at hid
          exact hids id hid
        · cases hid

theorem heritageAt_tracks (T : Transport φ R valid) (hscope : ScopeTracks φ R valid strict f scope scope')
    (hparams : ∀ id ∈ ids params, id ∈ Γ) (p : Nat) :
    Tracks R valid strict Γ (Prod.map (List.map φ) id) (heritageAt ⟨f, scope, params⟩ p)
      (heritageAt ⟨f, scope', renameParams φ params⟩ p) := by
  unfold heritageAt
  apply Tracks.ite
  · intro _
    exact heritageRest_tracks T hscope hparams (p + 1) [] (fun _ h => nomatch h)
  · intro _
    exact Tracks.pure (Prod.map (List.map φ) id) (fun _ h => nomatch h)

end

end SchemaSplice.Annotation
