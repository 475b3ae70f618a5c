import SchemaSplice.Proofs.Resolution.Unnamed
/-!
# Answers after other answers

All queries about one file share what was found out before them. A name whose declaration uses no names gets the type that is
written in the file's own declaration, unless an answer is remembered that a declaration of another file gave; where no other
file declares the name, that cannot happen.
-/

namespace SchemaSplice.Declaration

open Annotation Source SchemaSplice.Types

/-! ### Queries -/

inductive Query where
  /-- The type that a name with type arguments stands for. -/
  | named (name : String) (args : List TypeId)
  /-- The type of an enum's member. -/
  | member (qualifier name : String)
  /-- The type of a value. -/
  | value (name : String)
  /-- The result type of a function, given the token where it is written. -/
  | signature (start? : Option Nat)
deriving DecidableEq, Repr

/-- The types that a query is asked with. -/
def Query.args : Query → List TypeId
  | .named _ args => args
  | _ => []

def Inquiry.read (s : Inquiry) (reading : Reading TypeId) : Option TypeId × Inquiry :=
  match reading s.types with
  | .ok id types => (some id, { s with types })
  | .error _ types => (none, { s with types })

def ask (p : Project) (current : Nat) (s : Inquiry) : Query → Option TypeId × Inquiry
  | .named name args => s.read (resolveNamed p current name args)
  | .member qualifier name => s.read (enumMember p current qualifier name)
  | .value name => valueType p s current name
  | .signature none => (none, s)
  | .signature (some start) => annotationAt p s current start

def after (p : Project) (current : Nat) (queries : List Query) : Inquiry :=
  queries.foldl (fun s q => (ask p current s q).2) {}

def shown (p : Project) (current : Nat) (s : Inquiry) (q : Query) : Option String :=
  (ask p current s q).1.map (ask p current s q).2.table.display

def Inquiry.remembered (s : Inquiry) : Query → Option (Option TypeId)
  | .named name args => (s.types.memo.lookup (name, args)).map some
  | .value name => s.values.lookup name
  | .member .. => none
  | .signature _ => none

section

variable {p : Project} {current : Nat}

theorem after_append_of_ask {P : Inquiry → Prop} (hask : ∀ s q, P s → P (ask p current s q).2)
    (queries : List Query) (h : P (after p current queries)) (more : List Query) :
    P (after p current (queries ++ more)) := by
  unfold after at h ⊢
  rw [List.foldl_append]
  generalize queries.foldl _ _ = s at h
  induction more generalizing s with
  | nil => exact h
  | cons q more ih => exact ih _ (hask s q h)

theorem Upheld.ask {Inv : List Nat → TypeState → Prop} {valid : List Nat → TypeState → TypeId → Prop}
    {strict : Prop} (U : Upheld p Inv valid strict) {s : Inquiry} (hs : Known (Inv []) (valid []) s) (q : Query)
    (hargs : ∀ a ∈ q.args, valid [] s.types a) :
    Informs (Inv []) (valid []) strict s.types (ask p current s q) := by
  have hread : ∀ (Γ : List TypeId) (reading : Reading TypeId), Sound (Inv []) (valid []) strict Γ reading →
      (∀ a ∈ Γ, valid [] s.types a) → Informs (Inv []) (valid []) strict s.types (s.read reading) := by
    intro Γ reading hreading hΓ
    have hleaves := hreading s.types hs.types hΓ
    unfold Inquiry.read
    cases hres : reading s.types with
    | ok id types =>
      rw [hres] at hleaves
      refine ⟨hleaves.1, fun a ha => ?_, fun _ => hs.leaves hleaves s.log⟩
      rw [← Option.some.inj ha]
      exact hleaves.2.1 _ (List.mem_singleton.mpr rfl)
    | error e types =>
      rw [hres] at hleaves
      exact ⟨hleaves.1, (fun _ ha => nomatch ha), fun hstrict => hs.leaves_error hleaves (hstrict rfl) s.log⟩
  cases q with
  | named name args => exact hread args _ (U.resolveWithin [] maxNesting current name args) hargs
  | member qualifier name => exact hread [] _ (U.enumMember current qualifier name) hargs
  | value name => exact U.valueType hs current name
  | signature start? =>
    cases start? with
    | none => exact ⟨fun _ hid => hid, (fun _ ha => nomatch ha), fun _ => hs⟩
    | some start => exact U.annotationAt hs current start

theorem Maintained.ask {Inv : TypeState → Prop} (M : Maintained p Inv) (s : Inquiry) (q : Query)
    (hs : Inv s.types) : Inv (ask p current s q).2.types :=
  ((M.upheld.ask (known_anyId hs) q fun _ _ => trivial).known fun _ => trivial).types

end

theorem lookup_cons_ne {α β : Type} [BEq α] [LawfulBEq α] {a b : α} (h : a ≠ b) (v : β) (l : List (α × β)) :
    ((b, v) :: l).lookup a = l.lookup a := by
  rw [List.lookup_cons, beq_eq_false_iff_ne.mpr h]

theorem lookup_filter_ne {α β : Type} [BEq α] [LawfulBEq α] {a b : α} (h : a ≠ b) (l : List (α × β)) :
    (l.filter (·.1 != b)).lookup a = l.lookup a := by
  induction l with
  | nil => rfl
  | cons kv l ih =>
    obtain ⟨k, v⟩ := kv
    by_cases hk : k = b
    · rw [List.filter_cons_of_neg (by simp [hk]), ih, hk, lookup_cons_ne h]
    · rw [List.filter_cons_of_pos (by simp [hk]), List.lookup_cons, List.lookup_cons, ih]

/-! ### Remembered types -/

/-- Whatever is remembered for an instance is shown as `text`, and something is if `known`. -/
def Settled (inst : Instance) (text : String) (known : Prop) (s : TypeState) : Prop :=
  (∀ id, s.memo.lookup inst = some id → s.table.Shows id text) ∧ (known → s.memo.lookup inst ≠ none)

theorem Settled.mono {inst : Instance} {text : String} {known : Prop} {s s' : TypeState}
    (h : Settled inst text known s) (hmemo : s'.memo.lookup inst = s.memo.lookup inst)
    (ht : s.table.Persists s'.table) : Settled inst text known s' := by
  unfold Settled
  rw [hmemo]
  exact ⟨fun id hid => (h.1 id hid).mono ht, h.2⟩

section

variable {p : Project} {name text : String}

/-- The instance that is settled stays so while another one is defined. -/
theorem Settled.defineInstance {known : Prop} {inst other : Instance} {body : Reading TypeId} {s : TypeState}
    (hne : inst ≠ other) (hsteady : Steady body) (hbody : Keeps (Settled inst text known) body)
    (hs : Settled inst text known s) :
    Settled inst text known (stateAfter (defineInstance other body s)) := by
  have hread := hbody (s.reserve other)
    (hs.mono (lookup_cons_ne hne _ s.memo) ((Table.Persists.refl s.table).push .pending))
  have hplace := reserved_of_steady hsteady s other
  rw [defineInstance_apply]
  split
  · next type t hres =>
    rw [hres] at hread hplace
    exact Settled.mono hread rfl ((Table.Persists.refl t.table).define ⟨s.table.size⟩ hplace type)
  · next e t hres =>
    rw [hres] at hread
    exact Settled.mono hread (lookup_filter_ne hne t.memo) (Table.Persists.refl t.table)

theorem settled_maintained {d : Decl TypeForm} {known : Prop} (hform : d.form = .typeAlias)
    (hwritten : written? (aliasBody (p.file d.file) Scope.refusing d.token []) = some text)
    (honly : known ∨ ∀ current first rest, p.typesNamed name current = first :: rest → first = d) :
    Maintained p (Settled (name, []) text known) where
  insert s k _ hs := hs.mono rfl ((Table.Persists.refl s.table).push k)
  enumLiteral s e m l _ hs := hs.mono rfl ((Table.Persists.refl s.table).push (.enumLiteral e m l))
  recordEnum s _ _ hs := hs.mono rfl (Table.Persists.refl s.table)
  rememberEnum s _ _ hs := hs.mono rfl (Table.Persists.refl s.table)
  defines := by
    intro current other args first rest resolver s hnamed hmemo hsteady hbody hs
    by_cases heq : (name, []) = (other, args)
    · cases heq
      rcases honly with hknown | honly
      · exact absurd hmemo (hs.2 hknown)
      · obtain rfl := honly current first rest hnamed
        obtain ⟨t, hdefine, htmemo, hshows⟩ :=
          defineInstance_unnamed hform hwritten resolver name (first :: rest) s
        have hlookup : t.memo.lookup (name, []) = some ⟨s.table.size⟩ := by
          rw [htmemo]
          exact List.lookup_cons_self
        rw [hdefine]
        refine ⟨fun id hid => ?_, fun _ => ?_⟩
        · rw [show id = ⟨s.table.size⟩ from Option.some.inj (hid.symm.trans hlookup)]
          exact hshows
        · show t.memo.lookup (name, []) ≠ none
          rw [hlookup]
          exact Option.some_ne_none _
    · exact hs.defineInstance heq hsteady hbody

/-! ### Remembered values -/

/-- Whatever is remembered for a value is shown as `text`, and something is if `known`. -/
def SettledValue (name text : String) (known : Prop) (s : Inquiry) : Prop :=
  (∀ type, s.values.lookup name = some type → ∃ id, type = some id ∧ s.table.Shows id text) ∧
    (known → s.values.lookup name ≠ none)

theorem SettledValue.mono {known : Prop} {s s' : Inquiry} (h : SettledValue name text known s)
    (hvalues : s'.values.lookup name = s.values.lookup name) (ht : s.table.Persists s'.table) :
    SettledValue name text known s' := by
  unfold SettledValue
  rw [hvalues]
  refine ⟨fun type htype => ?_, h.2⟩
  obtain ⟨id, rfl, hshows⟩ := h.1 type htype
  exact ⟨id, rfl, hshows.mono ht⟩

theorem annotationAt_values (s : Inquiry) (file start : Nat) :
    (annotationAt p s file start).2.values = s.values := by
  unfold annotationAt
  simp only
  split <;> rfl

theorem SettledValue.annotationAt {known : Prop} {s : Inquiry} (h : SettledValue name text known s)
    (file start : Nat) : SettledValue name text known (annotationAt p s file start).2 :=
  h.mono (by rw [annotationAt_values])
    ((persists_maintained p s.table).annotationAt (Table.Persists.refl s.table) file start)

/-- The type of a function is its result's, if that can be read. -/
theorem annotationAt_of_functionAt {s : Inquiry} {file start : Nat} {id : TypeId} {t : TypeState}
    (h : functionAt (p.file file) (topScope p file) start s.types = .ok id t) :
    ∃ result s', Declaration.annotationAt p s file start = (some result, s') ∧
      (s'.onTable (Table.function result)).1 = id ∧ (s'.onTable (Table.function result)).2.types = t := by
  unfold functionAt at h
  unfold Declaration.annotationAt
  simp only
  change EStateM.bind _ _ s.types = _ at h
  unfold EStateM.bind at h
  cases hread : typeAt ⟨p.file file, topScope p file, []⟩ start s.types with
  | error e u =>
    rw [hread] at h
    cases h
  | ok result u =>
    rw [hread] at h
    cases h
    exact ⟨result.value, { s with types := u }, rfl, rfl, rfl⟩

theorem settledValue_remember {s : Inquiry} {id : TypeId} (h : s.table.Shows id text) (known : Prop) :
    SettledValue name text known (s.remember name (some id)) := by
  have hlookup : (s.remember name (some id)).values.lookup name = some (some id) := List.lookup_cons_self
  refine ⟨fun type htype => ⟨id, Option.some.inj (htype.symm.trans hlookup), h⟩, fun _ => ?_⟩
  rw [hlookup]
  exact Option.some_ne_none _

theorem SettledValue.valueType {d : Decl ValueForm} {start : Nat} {known : Prop}
    (hsource : valueSource (p.file d.file) d = .result start)
    (hwritten : written? (functionAt (p.file d.file) Scope.refusing start) = some text)
    (honly : known ∨ ∀ current, p.valueNamed? name current = some d) {s : Inquiry}
    (hs : SettledValue name text known s) (current : Nat) (other : String) :
    SettledValue name text known (valueType p s current other).2 := by
  fun_induction Declaration.valueType p s current other with
  | case1 => exact hs
  | case2 s current other hunknown pending hd =>
    have hne : name ≠ other := by
      rintro rfl
      rcases honly with hknown | honly
      · exact hs.2 hknown hunknown
      · rw [honly current] at hd
        cases hd
    exact hs.mono (lookup_cons_ne hne _ s.values) (Table.Persists.refl s.table)
  | case3 s current other hunknown pending d' hd type s' hbody ih =>
    by_cases heq : name = other
    · subst heq
      rcases honly with hknown | honly
      · exact absurd hunknown (hs.2 hknown)
      · obtain rfl : d = d' := Option.some.inj ((honly current).symm.trans hd)
        obtain ⟨id, t, hfunction, hshows⟩ := functionAt_unnamed hwritten (topScope p d.file) pending.types
        obtain ⟨result, s₁, hwrote, hid, htypes⟩ := annotationAt_of_functionAt hfunction
        rw [hsource] at hbody
        simp only [hwrote] at hbody
        obtain ⟨rfl, rfl⟩ := Prod.mk.inj hbody
        exact settledValue_remember (by rw [Inquiry.table, htypes, hid]; exact hshows) known
    · have hpending : SettledValue name text known pending :=
        hs.mono (lookup_cons_ne heq _ s.values) (Table.Persists.refl s.table)
      suffices hread : SettledValue name text known s' from
        hread.mono (lookup_cons_ne heq _ s'.values) (Table.Persists.refl s'.table)
      cases hother : valueSource (p.file d'.file) d' with
      | type start' =>
        rw [hother] at hbody
        simp only at hbody
        have hread := hpending.annotationAt (p := p) d'.file start'
        rw [hbody] at hread
        exact hread
      | result start' =>
        rw [hother] at hbody
        have hread := hpending.annotationAt (p := p) d'.file start'
        simp only at hbody
        generalize Declaration.annotationAt p pending d'.file start' = read at hbody hread
        obtain ⟨_ | result, s₁⟩ := read
        · cases hbody
          exact hread
        · cases hbody
          exact hread.mono rfl ((Table.Persists.refl s₁.table).push (.object { calls := [result] }))
      | value next =>
        rw [hother] at hbody
        simp only at hbody
        have hread := ih next hpending
        rw [hbody] at hread
        exact hread
      | nothing =>
        rw [hother] at hbody
        cases hbody
        exact hpending

theorem SettledValue.ask {d : Decl ValueForm} {start current : Nat} {known : Prop}
    (hsource : valueSource (p.file d.file) d = .result start)
    (hwritten : written? (functionAt (p.file d.file) Scope.refusing start) = some text)
    (honly : known ∨ ∀ current, p.valueNamed? name current = some d) (s : Inquiry) (q : Query)
    (hs : SettledValue name text known s) : SettledValue name text known (ask p current s q).2 := by
  have hpersists : s.table.Persists (Declaration.ask p current s q).2.table :=
    (persists_maintained p s.table).ask s q (Table.Persists.refl s.table)
  have hread : ∀ reading : Reading TypeId, (s.read reading).2.values = s.values := by
    intro reading
    unfold Inquiry.read
    split <;> rfl
  cases q with
  | named n args => exact hs.mono (congrArg (List.lookup name) (hread _)) hpersists
  | member qualifier n => exact hs.mono (congrArg (List.lookup name) (hread _)) hpersists
  | value other => exact hs.valueType hsource hwritten honly current other
  | signature start? =>
    cases start? with
    | none => exact hs
    | some at? => exact hs.annotationAt current at?

/-! ### Answers to top-level queries -/

/-- A name is resolved by reading its declaration, within the levels that are left. -/
theorem resolveNamed_eq (p : Project) :
    resolveNamed p = resolveStep p (some (declarationBody p (resolveWithin p 63))) := rfl

theorem ask_named_of_remembered {s : Inquiry} {args : List TypeId} {id : TypeId} (current : Nat)
    (h : s.types.memo.lookup (name, args) = some id) : ask p current s (.named name args) = (some id, s) := by
  have hresolve : resolveNamed p current name args s.types = .ok id s.types := by
    rw [resolveNamed_eq]
    refine (resolveStep_apply p _ current name args s.types).trans ?_
    rw [h]
  show s.read (resolveNamed p current name args) = (some id, s)
  unfold Inquiry.read
  rw [hresolve]

theorem ask_value_of_remembered {s : Inquiry} {type : Option TypeId} (current : Nat)
    (h : s.values.lookup name = some type) : ask p current s (.value name) = (type, s) := by
  show Declaration.valueType p s current name = (type, s)
  unfold Declaration.valueType
  split
  · next known hknown => rw [Option.some.inj (h.symm.trans hknown)]
  · next hunknown => exact absurd (hunknown.symm.trans h) (Option.some_ne_none _).symm

theorem ask_named_unnamed {d : Decl TypeForm} {s : Inquiry} {current : Nat} (hform : d.form = .typeAlias)
    (hwritten : written? (aliasBody (p.file d.file) Scope.refusing d.token []) = some text)
    (hd : (p.typesNamed name current).head? = some d) (h : s.types.memo.lookup (name, []) = none) :
    ∃ id s', ask p current s (.named name []) = (some id, s') ∧ s'.types.memo.lookup (name, []) = some id ∧
      s'.table.Shows id text := by
  obtain ⟨rest, hnamed⟩ := List.head?_eq_some_iff.mp hd
  obtain ⟨t, hdefine, hmemo, hshows⟩ :=
    defineInstance_unnamed hform hwritten (resolveWithin p 63) name (d :: rest) s.types
  have hresolve : resolveNamed p current name [] s.types = .ok ⟨s.types.table.size⟩ t := by
    rw [resolveNamed_eq]
    refine (resolveStep_apply p _ current name [] s.types).trans ?_
    rw [h, hnamed]
    exact hdefine
  refine ⟨⟨s.types.table.size⟩, { s with types := t }, ?_, ?_, hshows⟩
  · show s.read (resolveNamed p current name []) = _
    unfold Inquiry.read
    rw [hresolve]
  · show t.memo.lookup (name, []) = _
    rw [hmemo]
    exact List.lookup_cons_self

theorem ask_value_unnamed {d : Decl ValueForm} {start : Nat} {s : Inquiry} {current : Nat}
    (hsource : valueSource (p.file d.file) d = .result start)
    (hwritten : written? (functionAt (p.file d.file) Scope.refusing start) = some text)
    (hd : p.valueNamed? name current = some d) (h : s.values.lookup name = none) :
    ∃ id s', ask p current s (.value name) = (some id, s') ∧ s'.values.lookup name = some (some id) ∧
      s'.table.Shows id text := by
  obtain ⟨id, t, hfunction, hshows⟩ := functionAt_unnamed hwritten (topScope p d.file) s.types
  obtain ⟨result, s₁, hwrote, hid, htypes⟩ :=
    annotationAt_of_functionAt (s := s.remember name none) hfunction
  show ∃ id s', Declaration.valueType p s current name = (some id, s') ∧ _
  unfold Declaration.valueType
  split
  · next known hknown => exact absurd (h.symm.trans hknown) (Option.some_ne_none _).symm
  · split
    · next hnone => exact absurd (hnone.symm.trans hd) (Option.some_ne_none _).symm
    · next d' hd' =>
      obtain rfl : d = d' := Option.some.inj (hd.symm.trans hd')
      simp only [hsource, hwrote]
      refine ⟨_, _, rfl, List.lookup_cons_self, ?_⟩
      show (s₁.onTable (Table.function result)).2.types.table.Shows _ text
      rw [htypes, hid]
      exact hshows

end

/-! ### The file's own declaration -/

/-- The answer to a query is `text` unless another answer is remembered, and if it is given once it is given for good. -/
structure Prevails (p : Project) (current : Nat) (q : Query) (text : String) : Prop where
  fresh : shown p current {} q = some text
  shown_iff : ∀ queries, shown p current (after p current queries) q = some text ↔
    ∀ type, (after p current queries).remembered q = some type →
      type.map (after p current queries).table.display = some text
  lasts : ∀ queries more, (after p current queries).remembered q = none →
    shown p current (after p current (queries ++ q :: more)) q = some text

/-- An answer prevails that is given when nothing is remembered and is then remembered as `P` says. -/
theorem prevails_of {p : Project} {current : Nat} {q : Query} {text : String} {P : Inquiry → Prop}
    (hremembered : ∀ s type, s.remembered q = some type → shown p current s q = type.map s.table.display)
    (hfirst : ∀ s, s.remembered q = none → shown p current s q = some text ∧ P (ask p current s q).2)
    (hask : ∀ s q', P s → P (ask p current s q').2) (hgives : ∀ s, P s → shown p current s q = some text)
    (hempty : ({} : Inquiry).remembered q = none) : Prevails p current q text where
  fresh := (hfirst {} hempty).1
  shown_iff queries := by
    constructor
    · intro hshown type htype
      rw [← hremembered _ type htype]
      exact hshown
    · intro h
      cases hres : (after p current queries).remembered q with
      | none => exact (hfirst _ hres).1
      | some type =>
        rw [hremembered _ type hres]
        exact h type hres
  lasts queries more hnone := by
    apply hgives
    have hasked : P (after p current (queries ++ [q])) := by
      have hstep := (hfirst _ hnone).2
      unfold after at hstep ⊢
      rw [List.foldl_append]
      exact hstep
    rw [List.append_cons]
    exact after_append_of_ask hask _ hasked more

section

variable {p : Project} {current : Nat} {name text : String}

theorem shown_named_of_remembered (s : Inquiry) (type : Option TypeId)
    (h : s.remembered (.named name []) = some type) :
    shown p current s (.named name []) = type.map s.table.display := by
  obtain ⟨id, hid, rfl⟩ := Option.map_eq_some_iff.mp h
  unfold shown
  rw [ask_named_of_remembered current hid]

theorem shown_value_of_remembered (s : Inquiry) (type : Option TypeId)
    (h : s.remembered (.value name) = some type) :
    shown p current s (.value name) = type.map s.table.display := by
  unfold shown
  rw [ask_value_of_remembered current h]

theorem shown_named_of_settled {known : Prop} {s : Inquiry} (h : Settled (name, []) text known s.types)
    (hfirst : s.remembered (.named name []) = none → shown p current s (.named name []) = some text) :
    shown p current s (.named name []) = some text := by
  cases hres : s.types.memo.lookup (name, []) with
  | none => exact hfirst (congrArg (Option.map some) hres)
  | some id =>
    rw [shown_named_of_remembered s (some id) (congrArg (Option.map some) hres)]
    exact congrArg some (h.1 id hres).display

theorem shown_value_of_settled {known : Prop} {s : Inquiry} (h : SettledValue name text known s)
    (hfirst : s.remembered (.value name) = none → shown p current s (.value name) = some text) :
    shown p current s (.value name) = some text := by
  cases hres : s.values.lookup name with
  | none => exact hfirst hres
  | some type =>
    obtain ⟨id, rfl, hshows⟩ := h.1 type hres
    rw [shown_value_of_remembered s (some id) hres]
    exact congrArg some hshows.display

theorem named_first {d : Decl TypeForm} (hform : d.form = .typeAlias)
    (hwritten : written? (aliasBody (p.file d.file) Scope.refusing d.token []) = some text)
    (hd : (p.typesNamed name current).head? = some d) (s : Inquiry)
    (h : s.remembered (.named name []) = none) :
    shown p current s (.named name []) = some text ∧
      Settled (name, []) text True (ask p current s (.named name [])).2.types := by
  obtain ⟨id, s', hask, hmemo, hshows⟩ :=
    ask_named_unnamed hform hwritten hd (Option.map_eq_none_iff.mp h)
  unfold shown
  rw [hask]
  refine ⟨congrArg some hshows.display, fun id' hid' => ?_, fun _ => ?_⟩
  · rw [show id' = id from Option.some.inj (hid'.symm.trans hmemo)]
    exact hshows
  · rw [hmemo]
    exact Option.some_ne_none _

theorem value_first {d : Decl ValueForm} {start : Nat}
    (hsource : valueSource (p.file d.file) d = .result start)
    (hwritten : written? (functionAt (p.file d.file) Scope.refusing start) = some text)
    (hd : p.valueNamed? name current = some d) (s : Inquiry) (h : s.remembered (.value name) = none) :
    shown p current s (.value name) = some text ∧
      SettledValue name text True (ask p current s (.value name)).2 := by
  obtain ⟨id, s', hask, hvalues, hshows⟩ := ask_value_unnamed hsource hwritten hd h
  unfold shown
  rw [hask]
  refine ⟨congrArg some hshows.display, fun type htype => ?_, fun _ => ?_⟩
  · exact ⟨id, Option.some.inj (htype.symm.trans hvalues), hshows⟩
  · rw [hvalues]
    exact Option.some_ne_none _

theorem named_prevails {d : Decl TypeForm} (hform : d.form = .typeAlias)
    (hwritten : written? (aliasBody (p.file d.file) Scope.refusing d.token []) = some text)
    (hd : (p.typesNamed name current).head? = some d) : Prevails p current (.named name []) text := by
  have hfirst := named_first hform hwritten hd
  refine prevails_of (P := fun s => Settled (name, []) text True s.types) shown_named_of_remembered hfirst
    ?_ ?_ rfl
  · exact (settled_maintained hform hwritten (Or.inl trivial)).ask
  · exact fun s hs => shown_named_of_settled hs fun hnone => (hfirst s hnone).1

theorem value_prevails {d : Decl ValueForm} {start : Nat}
    (hsource : valueSource (p.file d.file) d = .result start)
    (hwritten : written? (functionAt (p.file d.file) Scope.refusing start) = some text)
    (hd : p.valueNamed? name current = some d) : Prevails p current (.value name) text := by
  have hfirst := value_first hsource hwritten hd
  refine prevails_of (P := SettledValue name text True) shown_value_of_remembered hfirst ?_ ?_ rfl
  · exact SettledValue.ask hsource hwritten (Or.inl trivial)
  · exact fun s hs => shown_value_of_settled hs fun hnone => (hfirst s hnone).1

/-- Where one file has all declarations of a name, they count in every file. -/
theorem visible_eq_filter {Form : Type} {decls : List (Decl Form)} {home : Nat}
    (h : ∀ e ∈ decls, e.name = name → e.file = home) (current : Nat) :
    visible decls name current = decls.filter (·.name == name) := by
  have hhome : ∀ e ∈ decls.filter (·.name == name), e.file = home := by
    intro e he
    obtain ⟨hmem, hname⟩ := List.mem_filter.mp he
    exact h e hmem (eq_of_beq hname)
  unfold visible
  simp only
  cases hnamed : decls.filter (·.name == name) with
  | nil => rfl
  | cons first rest =>
    rw [hnamed] at hhome
    simp only
    have hfile : (if (first :: rest).any (·.file == current) then current else first.file) = home := by
      split
      · next hany =>
        obtain ⟨e, he, hcurrent⟩ := List.any_eq_true.mp hany
        rw [← hhome e he]
        exact (eq_of_beq hcurrent).symm
      · exact hhome first List.mem_cons_self
    rw [hfile]
    exact List.filter_eq_self.mpr fun e he => beq_iff_eq.mpr (hhome e he)

theorem shown_named_of_only {d : Decl TypeForm} (hform : d.form = .typeAlias)
    (hwritten : written? (aliasBody (p.file d.file) Scope.refusing d.token []) = some text)
    (hd : (p.typesNamed name current).head? = some d)
    (honly : ∀ e ∈ p.types, e.name = name → e.file = d.file) (queries : List Query) :
    shown p current (after p current queries) (.named name []) = some text := by
  have hcounts : ∀ file first rest, p.typesNamed name file = first :: rest → first = d := by
    intro file first rest hnamed
    have hsame : p.typesNamed name file = p.typesNamed name current :=
      (visible_eq_filter honly file).trans (visible_eq_filter honly current).symm
    rw [← hsame, hnamed] at hd
    exact Option.some.inj hd
  have hsettled : Settled (name, []) text False (after p current queries).types :=
    after_append_of_ask (P := fun s => Settled (name, []) text False s.types)
      (settled_maintained hform hwritten (Or.inr hcounts)).ask []
      ⟨(fun _ h => nomatch h), False.elim⟩ queries
  exact shown_named_of_settled hsettled fun hnone => (named_first hform hwritten hd _ hnone).1

theorem shown_value_of_only {d : Decl ValueForm} {start : Nat}
    (hsource : valueSource (p.file d.file) d = .result start)
    (hwritten : written? (functionAt (p.file d.file) Scope.refusing start) = some text)
    (hd : p.valueNamed? name current = some d) (honly : ∀ e ∈ p.values, e.name = name → e.file = d.file)
    (queries : List Query) : shown p current (after p current queries) (.value name) = some text := by
  have hcounts : ∀ file, p.valueNamed? name file = some d := by
    intro file
    rw [← hd]
    exact congrArg List.head? ((visible_eq_filter honly file).trans (visible_eq_filter honly current).symm)
  have hsettled : SettledValue name text False (after p current queries) :=
    after_append_of_ask (SettledValue.ask hsource hwritten (Or.inr hcounts)) []
      ⟨(fun _ h => nomatch h), False.elim⟩ queries
  exact shown_value_of_settled hsettled fun hnone => (value_first hsource hwritten hd _ hnone).1

end

/-- A file that declares a name as an alias without names in its body, or as a function without names in its result, gives
it the written type after any queries, unless the remembered answer is another; with no other file that declares the
name, always. -/
theorem own_declaration_prevails (p : Project) (current : Nat) (name text : String) :
    (∀ d, (p.typesNamed name current).head? = some d → d.file = current → d.form = .typeAlias →
      written? (aliasBody (p.file current) Scope.refusing d.token []) = some text →
        Prevails p current (.named name []) text ∧
          ((∀ e ∈ p.types, e.name = name → e.file = current) →
            ∀ queries, shown p current (after p current queries) (.named name []) = some text)) ∧
    (∀ d start, p.valueNamed? name current = some d → d.file = current →
      valueSource (p.file current) d = .result start →
      written? (functionAt (p.file current) Scope.refusing start) = some text →
        Prevails p current (.value name) text ∧
          ((∀ e ∈ p.values, e.name = name → e.file = current) →
            ∀ queries, shown p current (after p current queries) (.value name) = some text)) := by
  constructor
  · rintro d hd rfl hform hwritten
    exact ⟨named_prevails hform hwritten hd, shown_named_of_only hform hwritten hd⟩
  · rintro d start hd rfl hsource hwritten
    exact ⟨value_prevails hsource hwritten hd, shown_value_of_only hsource hwritten hd⟩

/-- Two files that both declare `T` and `f`; only the first one declares `K`. -/
def twoFiles : Project :=
  .ofFiles
    [.parse "a.ts" "type T = string[]; type K = \x7b id: 1 \x7d; function f(): boolean \x7b\x7d",
      .parse "b.ts" "type Other = T; type T = number; const g = f; function f(): bigint \x7b\x7d"]

theorem twoFiles_prevails :
    Prevails twoFiles 0 (.named "T" []) "(string)[]" ∧ Prevails twoFiles 0 (.value "f") "() => boolean" ∧
      ∀ queries, shown twoFiles 0 (after twoFiles 0 queries) (.named "K" []) = some "\x7b id: 1; \x7d" := by
  refine ⟨?_, ?_, ?_⟩
  · refine ((own_declaration_prevails twoFiles 0 "T" "(string)[]").1 ⟨"T", 0, .typeAlias, 1⟩ ?_ rfl rfl ?_).1
    · decide +kernel
    · decide +kernel
  · refine ((own_declaration_prevails twoFiles 0 "f" "() => boolean").2 ⟨"f", 0, .function, 17⟩ 21 ?_ rfl ?_ ?_).1
    · decide +kernel
    · decide +kernel
    · decide +kernel
  · refine ((own_declaration_prevails twoFiles 0 "K" "\x7b id: 1; \x7d").1 ⟨"K", 0, .typeAlias, 8⟩
      ?_ rfl rfl ?_).2 ?_
    · decide +kernel
    · decide +kernel
    · decide +kernel

/-- Once the second file's alias of `T` or its alias of `f` has been asked for, the first file's own declaration no longer
counts in it. -/
theorem twoFiles_other_declaration_remembered :
    shown twoFiles 0 {} (.named "T" []) = some "(string)[]" ∧
      shown twoFiles 0 (after twoFiles 0 [.named "Other" []]) (.named "T" []) = some "number" ∧
      shown twoFiles 0 {} (.value "f") = some "() => boolean" ∧
      shown twoFiles 0 (after twoFiles 0 [.value "g"]) (.value "f") = some "() => bigint" := by
  decide +kernel

end SchemaSplice.Declaration
