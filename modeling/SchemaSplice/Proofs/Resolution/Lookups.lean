import SchemaSplice.Chain.Procedure
import SchemaSplice.Proofs.Reading.Inquiry
/-!
# What the types of a file depend on

A name that is read in a file is looked up from that file, and its declaration is read in the file that it stands in. So the types
of a file depend only on the declarations that the names written in it lead to, and those written there in turn. Other
declarations can be left out.
-/

namespace SchemaSplice.Annotation

open Source SchemaSplice.Types HasIds

variable {f : File} {scope scope' : Scope} {params : List (String × TypeId)}

/-- Scopes that answer alike for the names that are written in a file. -/
structure Agree (f : File) (scope scope' : Scope) : Prop where
  named : ∀ i args, scope.named (f.tokenText i) args = scope'.named (f.tokenText i) args
  member : ∀ i name, scope.member (f.tokenText i) name = scope'.member (f.tokenText i) name

theorem tracks_refl {ε α : Type} [HasIds α] (Γ : List TypeId) (m : EStateM ε TypeState α) :
    Tracks (Same fun _ => True) AnyId True Γ id m m := by
  rintro s _ ⟨rfl, -⟩ -
  cases m s with
  | ok a t => exact ⟨fun _ _ => trivial, fun _ _ => trivial, t, rfl, rfl, trivial⟩
  | error e t => exact ⟨fun _ _ => trivial, fun _ => ⟨t, rfl, rfl, trivial⟩⟩

theorem eq_of_tracks {ε α : Type} [HasIds α] {Γ : List TypeId} {F : α → α} (hF : ∀ a, F a = a) {m m' : EStateM ε TypeState α}
    (h : Tracks (Same fun _ => True) AnyId True Γ F m m') : m = m' := by
  funext s
  have hs := h s s ⟨rfl, trivial⟩ fun _ _ => trivial
  cases hres : m s with
  | ok a t =>
    rw [hres] at hs
    obtain ⟨-, -, t', hm', rfl, -⟩ := hs
    rw [hm', hF]
  | error e t =>
    rw [hres] at hs
    obtain ⟨t', hm', rfl, -⟩ := hs.2 trivial
    rw [hm']

namespace Agree

theorem tracks (h : Agree f scope scope') : ScopeTracks id (Same fun _ => True) AnyId True f scope scope' where
  named i args := by
    rw [List.map_id, h.named i args]
    exact tracks_refl args _
  member i name := by
    rw [h.member i name]
    exact tracks_refl [] _

theorem transport : Transport id (Same fun _ => True) AnyId := transport_same fun _ _ _ h => h

theorem renameParams_id (params : List (String × TypeId)) : renameParams id params = params := List.map_id params

/-! ### The reader -/

theorem typeAt_eq (h : Agree f scope scope') (start : Nat) : typeAt ⟨f, scope, params⟩ start = typeAt ⟨f, scope', params⟩ start := by
  have htracks := @typeAt_tracks id (Same fun _ => True) AnyId True (HasIds.ids params) f scope scope' params transport h.tracks
    (fun _ hid => hid) start
  rw [renameParams_id] at htracks
  exact eq_of_tracks (fun _ => rfl) htracks

theorem objectAt_eq (h : Agree f scope scope') (start : Nat) :
    objectAt ⟨f, scope, params⟩ start = objectAt ⟨f, scope', params⟩ start := by
  have htracks := @objectAt_tracks id (Same fun _ => True) AnyId True (HasIds.ids params) f scope scope' params transport h.tracks
    (fun _ hid => hid) start
  rw [renameParams_id] at htracks
  exact eq_of_tracks (fun a => by rw [Parsed.map, ObjectType.mapIds_id]) htracks

theorem heritageAt_eq (h : Agree f scope scope') (start : Nat) :
    heritageAt ⟨f, scope, params⟩ start = heritageAt ⟨f, scope', params⟩ start := by
  have htracks := @heritageAt_tracks id (Same fun _ => True) AnyId True (HasIds.ids params) f scope scope' params transport h.tracks
    (fun _ hid => hid) start
  rw [renameParams_id] at htracks
  exact eq_of_tracks (fun a => by simp) htracks

end Agree

end SchemaSplice.Annotation

namespace SchemaSplice.Declaration

open Annotation Source SchemaSplice.Types

/-! ### Declarations -/

section

variable {f : File} {scope scope' : Scope}

theorem bindParameters_eq (h : Agree f scope scope') (bound : Bindings) (params : List Parameter) (args : List TypeId) :
    bindParameters f scope bound params args = bindParameters f scope' bound params args := by
  induction params generalizing bound args with
  | nil => cases args <;> rfl
  | cons param params ih =>
    cases args with
    | cons arg args => exact ih _ args
    | nil =>
      unfold bindParameters
      simp only [h.typeAt_eq, ih]

theorem aliasBody_eq (h : Agree f scope scope') (token : Nat) (args : List TypeId) :
    aliasBody f scope token args = aliasBody f scope' token args := by
  unfold aliasBody
  simp only [bindParameters_eq h, h.typeAt_eq]

theorem interfacePart_eq (h : Agree f scope scope') (token : Nat) (args : List TypeId) :
    interfacePart f scope token args = interfacePart f scope' token args := by
  unfold interfacePart boundParameters
  simp only [bindParameters_eq h, h.heritageAt_eq, h.objectAt_eq]

theorem interfaceParts_eq (h : Agree f scope scope') (args : List TypeId) (merged : ObjectType) (bases : List TypeId)
    (ds : List (Decl TypeForm)) : interfaceParts f scope args merged bases ds = interfaceParts f scope' args merged bases ds := by
  induction ds generalizing merged bases with
  | nil => rfl
  | cons d ds ih =>
    unfold interfaceParts
    simp only [interfacePart_eq h, ih]

theorem interfaceBody_eq (h : Agree f scope scope') (name : String) (decls : List (Decl TypeForm)) (args : List TypeId) :
    interfaceBody f scope name decls args = interfaceBody f scope' name decls args := by
  unfold interfaceBody
  simp only [interfaceParts_eq h]

end

/-! ### Lookups -/

/-- A file that the names written in the file `c` lead to. -/
inductive Leads (p : Project) (c : Nat) : Nat → Prop
  | start : Leads p c c
  | type {a i : Nat} {d : Decl TypeForm} (h : Leads p c a) (hd : d ∈ p.typesNamed ((p.file a).tokenText i) a) :
    Leads p c d.file
  | value {a i : Nat} {d : Decl ValueForm} (h : Leads p c a) (hd : p.valueNamed? ((p.file a).tokenText i) a = some d) :
    Leads p c d.file

/-- A type declaration that a name stands for in the file `c` or in one that its names lead to. -/
def LooksUp (p : Project) (c : Nat) (d : Decl TypeForm) : Prop :=
  ∃ a i, Leads p c a ∧ d ∈ p.typesNamed ((p.file a).tokenText i) a

theorem visible_filter {Form : Type} {decls : List (Decl Form)} {name : String} {current : Nat} {q : Decl Form → Bool}
    (h : ∀ d ∈ visible decls name current, q d = true) : visible (decls.filter q) name current = visible decls name current := by
  have hcomm : (decls.filter q).filter (·.name == name) = (decls.filter (·.name == name)).filter q := by
    rw [List.filter_filter, List.filter_filter]
    exact List.filter_congr fun d _ => Bool.and_comm ..
  unfold visible at h ⊢
  rw [hcomm]
  cases hnamed : decls.filter (·.name == name) with
  | nil => rfl
  | cons first rest =>
    rw [hnamed] at h
    simp only at h
    have hkept : ∀ home, (∀ d ∈ (first :: rest).filter (·.file == home), q d = true) →
        ((first :: rest).filter q).filter (·.file == home) = (first :: rest).filter (·.file == home) := by
      intro home hall
      rw [List.filter_filter]
      apply List.filter_congr
      intro d hd
      cases hfile : d.file == home with
      | false => rfl
      | true => rw [hall d (List.mem_filter.mpr ⟨hd, hfile⟩), Bool.and_self]
    cases hany : (first :: rest).any (·.file == current) with
    | true =>
      rw [hany, if_pos rfl] at h
      obtain ⟨d, hd, hfile⟩ := List.any_eq_true.mp hany
      have hmem : d ∈ (first :: rest).filter q := List.mem_filter.mpr ⟨hd, h d (List.mem_filter.mpr ⟨hd, hfile⟩)⟩
      have hany' : ((first :: rest).filter q).any (·.file == current) = true := List.any_eq_true.mpr ⟨d, hmem, hfile⟩
      have hlist := hkept current h
      cases hfiltered : (first :: rest).filter q with
      | nil => rw [hfiltered] at hmem; cases hmem
      | cons first' rest' =>
        rw [hfiltered] at hany' hlist
        simp only [hany, hany', if_true]
        exact hlist
    | false =>
      rw [hany, if_neg Bool.false_ne_true] at h
      have hfirst : q first = true := h first (List.mem_filter.mpr ⟨List.mem_cons_self, beq_self_eq_true _⟩)
      have hany' : (first :: rest.filter q).any (·.file == current) = false := by
        rw [List.any_eq_false] at hany ⊢
        intro d hd
        rcases List.mem_cons.mp hd with rfl | hd
        · exact hany d List.mem_cons_self
        · exact hany d (List.mem_cons_of_mem _ (List.mem_filter.mp hd).1)
      have hlist := hkept first.file h
      rw [List.filter_cons_of_pos hfirst] at hlist ⊢
      simp only [hany, hany', Bool.false_eq_true, if_false]
      exact hlist

/-- The declarations of a name are those that are visible where they stand. -/
theorem visible_of_mem {Form : Type} {decls : List (Decl Form)} {name : String} {current : Nat} {d : Decl Form}
    (h : d ∈ visible decls name current) : visible decls name d.file = visible decls name current := by
  unfold visible at h ⊢
  cases hnamed : decls.filter (·.name == name) with
  | nil => rfl
  | cons first rest =>
    rw [hnamed] at h
    simp only at h ⊢
    generalize (if (first :: rest).any (·.file == current) then current else first.file) = home at h
    obtain ⟨hmem, hfile⟩ := List.mem_filter.mp h
    have hany : (first :: rest).any (·.file == d.file) = true := List.any_eq_true.mpr ⟨d, hmem, beq_self_eq_true _⟩
    rw [hany, if_pos rfl, beq_iff_eq.mp hfile]

open Classical in
/-- A project with only those of its types that are looked up from the file `c`. -/
noncomputable def Project.only (p : Project) (c : Nat) : Project :=
  { p with types := p.types.filter fun d => decide (LooksUp p c d) }

section

variable {p : Project} {c a : Nat} {s : Inquiry}

theorem file_only (p : Project) (c a : Nat) : (p.only c).file a = p.file a := rfl

theorem typesNamed_only (h : Leads p c a) (i : Nat) :
    (p.only c).typesNamed ((p.file a).tokenText i) a = p.typesNamed ((p.file a).tokenText i) a :=
  visible_filter fun _ hd => @decide_eq_true _ (Classical.propDecidable _) ⟨a, i, h, hd⟩

theorem typesNamed_only_of_mem {i : Nat} {d : Decl TypeForm} (h : Leads p c a) (hd : d ∈ p.typesNamed ((p.file a).tokenText i) a) :
    (p.only c).typesNamed ((p.file a).tokenText i) d.file = p.typesNamed ((p.file a).tokenText i) d.file :=
  visible_filter fun _ he => @decide_eq_true _ (Classical.propDecidable _) ⟨a, i, h, by rw [Project.typesNamed, ← visible_of_mem hd]; exact he⟩

theorem enumMembers_congr {q : Project} {name : String} (hfile : q.file = p.file)
    (h : q.typesNamed name a = p.typesNamed name a) : enumMembers q a name = enumMembers p a name := by
  unfold enumMembers
  rw [h, hfile]

/-- Names that are written in a file are resolved alike. -/
theorem resolveWithin_only (levels : Nat) (h : Leads p c a) (i : Nat) (args : List TypeId) :
    resolveWithin (p.only c) levels a ((p.file a).tokenText i) args = resolveWithin p levels a ((p.file a).tokenText i) args := by
  induction levels generalizing a i args with
  | zero =>
    funext s
    rw [resolveWithin, resolveWithin, resolveStep_apply, resolveStep_apply, typesNamed_only h]
  | succ levels ih =>
    funext s
    rw [resolveWithin, resolveWithin, resolveStep_apply, resolveStep_apply, typesNamed_only h]
    cases hnamed : p.typesNamed ((p.file a).tokenText i) a with
    | nil => rfl
    | cons first rest =>
      have hfirst : first ∈ p.typesNamed ((p.file a).tokenText i) a := by rw [hnamed]; exact List.mem_cons_self
      have hleads : Leads p c first.file := .type h hfirst
      have hagree : Agree (p.file first.file) (scopeOf (p.only c) (resolveWithin (p.only c) levels) first.file)
          (scopeOf p (resolveWithin p levels) first.file) :=
        ⟨fun i args => ih hleads i args, fun i name => by
          show enumMember (p.only c) first.file _ name = enumMember p first.file _ name
          rw [enumMember, enumMember, enumMembers_congr (q := p.only c) (p := p) rfl (typesNamed_only hleads i)]⟩
      have hbody : declarationBody (p.only c) (resolveWithin (p.only c) levels) ((p.file a).tokenText i) (first :: rest) first args =
          declarationBody p (resolveWithin p levels) ((p.file a).tokenText i) (first :: rest) first args := by
        unfold declarationBody
        cases first.form with
        | typeAlias => exact aliasBody_eq hagree first.token args
        | interface => exact interfaceBody_eq hagree _ _ args
        | enum =>
          simp only
          rw [enumMembers_congr (q := p.only c) (p := p) rfl (typesNamed_only_of_mem h hfirst)]
      simp only [hbody]

theorem agree_topScope (h : Leads p c a) : Agree (p.file a) (topScope (p.only c) a) (topScope p a) where
  named i args := resolveWithin_only _ h i args
  member i name := by
    show enumMember (p.only c) a _ name = enumMember p a _ name
    rw [enumMember, enumMember, enumMembers_congr (q := p.only c) (p := p) rfl (typesNamed_only h i)]

theorem annotationAt_only (h : Leads p c a) (s : Inquiry) (start : Nat) :
    annotationAt (p.only c) s a start = annotationAt p s a start := by
  have htype : typeAt ⟨p.file a, topScope (p.only c) a, []⟩ start = typeAt ⟨p.file a, topScope p a, []⟩ start :=
    (agree_topScope h).typeAt_eq start
  unfold annotationAt
  simp only [file_only, htype]
  cases typeAt ⟨p.file a, topScope p a, []⟩ start s.types <;> rfl

/-! ### Values -/

theorem valueType_of_known {name : String} {known : Option TypeId} (h : s.values.lookup name = some known) :
    valueType p s a name = (known, s) := by
  rw [valueType]
  split
  · next known' h' =>
    obtain rfl := Option.some.inj (h.symm.trans h')
    rfl
  · next h' => cases h.symm.trans h'

theorem valueType_of_undeclared {name : String} (h : s.values.lookup name = none) (hd : p.valueNamed? name a = none) :
    valueType p s a name = (none, s.remember name none) := by
  rw [valueType]
  split
  · next known h' => cases h.symm.trans h'
  · simp only
    split
    · rfl
    · next d h' => cases hd.symm.trans h'

/-- The type of a declared value that is not known yet, before it is remembered. -/
def declaredType (p : Project) (s : Inquiry) (name : String) (d : Decl ValueForm) : Option TypeId × Inquiry :=
  match valueSource (p.file d.file) d with
  | .type start => annotationAt p (s.remember name none) d.file start
  | .result start =>
    match annotationAt p (s.remember name none) d.file start with
    | (some result, s) => (some (s.onTable (Table.function result)).1, (s.onTable (Table.function result)).2)
    | (none, s) => (none, s)
  | .value other => valueType p (s.remember name none) d.file other
  | .nothing => (none, s.remember name none)

theorem valueType_of_declared {name : String} {d : Decl ValueForm} (h : s.values.lookup name = none)
    (hd : p.valueNamed? name a = some d) :
    valueType p s a name =
      ((declaredType p s name d).1, (declaredType p s name d).2.remember name (declaredType p s name d).1) := by
  rw [valueType]
  split
  · next known h' => cases h.symm.trans h'
  · simp only
    split
    · next h' => cases hd.symm.trans h'
    · next d' h' =>
      obtain rfl := Option.some.inj (hd.symm.trans h')
      unfold declaredType
      cases valueSource (p.file d.file) d with
      | result start =>
        rcases annotationAt p (s.remember name none) d.file start with ⟨_ | result, s₁⟩ <;> rfl
      | _ => rfl

theorem exists_tokenText_of_reference {f : File} {start stop : Nat} {name : String} (h : f.handlerForm start stop = .reference name) :
    ∃ i, f.tokenText i = name := by
  refine ⟨start, ?_⟩
  unfold File.handlerForm File.functionForm File.parenthesizedForm at h
  simp only at h
  repeat' split at h
  all_goals first
    | exact HandlerForm.reference.inj h
    | cases h

theorem exists_tokenText_of_valueSource {f : File} {d : Decl ValueForm} {name : String} (h : valueSource f d = .value name) :
    ∃ i, f.tokenText i = name := by
  unfold valueSource at h
  simp only at h
  repeat' split at h
  all_goals first
    | cases h; exact exists_tokenText_of_reference ‹_›
    | cases h

/-- Values that are named in a file have the same types. -/
theorem valueType_only (h : Leads p c a) (s : Inquiry) (i : Nat) :
    valueType (p.only c) s a ((p.file a).tokenText i) = valueType p s a ((p.file a).tokenText i) := by
  induction hn : unanswered p s using Nat.strongRecOn generalizing s a i with
  | ind n ih =>
    generalize hname : (p.file a).tokenText i = name
    cases hknown : s.values.lookup name with
    | some known => rw [valueType_of_known hknown, valueType_of_known hknown]
    | none =>
      cases hd : p.valueNamed? name a with
      | none => rw [valueType_of_undeclared hknown hd, valueType_of_undeclared (p := p.only c) hknown hd]
      | some d =>
        have hleads : Leads p c d.file := .value h (hname.symm ▸ hd)
        rw [valueType_of_declared hknown hd, valueType_of_declared (p := p.only c) hknown hd]
        suffices hsame : declaredType (p.only c) s name d = declaredType p s name d by rw [hsame]
        unfold declaredType
        rw [file_only]
        cases hsource : valueSource (p.file d.file) d with
        | type start => exact annotationAt_only hleads _ start
        | result start =>
          simp only
          rw [annotationAt_only hleads]
        | value other =>
          obtain ⟨j, rfl⟩ := exists_tokenText_of_valueSource hsource
          exact ih _ (hn ▸ unanswered_remember_lt hknown hd) hleads _ j rfl
        | nothing => rfl

end

end SchemaSplice.Declaration

namespace SchemaSplice.Chain

open Source Declaration

variable {p : Project} {c : Nat}

/-! ### Procedures -/

theorem returnType_only (s : Inquiry) {start stop : Nat} :
    returnType (p.only c) s c ((p.file c).handler start stop) = returnType p s c ((p.file c).handler start stop) := by
  unfold returnType File.handler
  simp only
  cases hform : (p.file c).handlerForm start stop with
  | function returnsAt =>
    cases returnsAt with
    | none => rfl
    | some at? => exact annotationAt_only .start s at?
  | reference name =>
    obtain ⟨i, rfl⟩ := exists_tokenText_of_reference hform
    simp only [valueType_only .start s i]
  | other => rfl

/-- The procedures of a file, and their types, depend only on what its names lead to. -/
theorem procedureAt_only (s : Inquiry) (root : Nat) (segments : List Segment) :
    procedureAt (p.only c) s c root segments = procedureAt p s c root segments := by
  unfold procedureAt
  rw [file_only]
  cases terminal? segments with
  | error reason => rfl
  | ok decided =>
    obtain ⟨kind, terminal⟩ := decided
    cases hhandler : handler? (p.file c) kind terminal with
    | error reason => simp only [hhandler]
    | ok handler =>
      obtain ⟨start, stop, rfl⟩ : ∃ start stop, handler = (p.file c).handler start stop := by
        unfold handler? at hhandler
        simp only at hhandler
        split at hhandler
        · cases hhandler
        · split at hhandler
          · cases hhandler
          · exact ⟨_, _, (Except.ok.inj hhandler).symm⟩
      simp only [hhandler, returnType_only]

theorem visitChains_only {ε α : Type} (visit : Procedure → α → Inquiry → Except ε α × Inquiry)
    (candidates : List (Nat × List Segment)) (a : α) (s : Inquiry) :
    visitChains (p.only c) c visit candidates a s = visitChains p c visit candidates a s := by
  induction candidates generalizing a s with
  | nil => rfl
  | cons candidate rest ih =>
    obtain ⟨root, segments⟩ := candidate
    unfold visitChains
    simp only [procedureAt_only, ih]

end SchemaSplice.Chain
