import SchemaSplice.Proofs.Rerun.Rescanning
/-!
# Resolving names in a widened project

Where the files of a project get runs of tokens inserted and their declarations move along, names, members, annotations and values
stand for the same types: every query finds the same in the same state and leaves the same state behind.
-/

namespace SchemaSplice.Declaration

open Annotation Source SchemaSplice.Types
open File (Widened Seen Enters)

/-! ### Declarations that have moved -/

def moved (places : Nat → Nat → Nat) {Form : Type} (d : Decl Form) : Decl Form :=
  declMoved (places d.file) d

/-- The files of one project are those of the other one, each with a run of tokens inserted, and declarations move along. They stand
where types may be read; no enum is declared under one of the words. -/
structure WidenedProject (p p' : Project) (places : Nat → Nat → Nat) (words : List String) : Prop where
  file : ∀ j, Widened (p.file j) (p'.file j) (places j)
  types : p'.types = p.types.map (moved places)
  values : p'.values = p.values.map (moved places)
  type_seen : ∀ d ∈ p.types, Seen (p.file d.file) (p'.file d.file) (places d.file) words d.token
  value_seen : ∀ d ∈ p.values, Seen (p.file d.file) (p'.file d.file) (places d.file) words d.token
  type_name : ∀ d ∈ p.types, (p.file d.file).hasKind d.token .ident = true
  value_name : ∀ d ∈ p.values, (p.file d.file).hasKind d.token .ident = true
  enum : ∀ d ∈ p.types, d.form = .enum → d.name ∉ words ∧ (p.file d.file).hasKind (d.token + 1) .lbrace = true
  value : ∀ d ∈ p.values, d.form = .variable →
    (p.file d.file).hasKind (d.token + 1) .colon = true ∨ (p.file d.file).hasKind (d.token + 1) .eq = true

variable {p p' : Project} {places : Nat → Nat → Nat} {words : List String}

theorem visible_map {Form : Type} {g : Decl Form → Decl Form} (hname : ∀ d, (g d).name = d.name)
    (hfile : ∀ d, (g d).file = d.file) (decls : List (Decl Form)) (name : String) (current : Nat) :
    visible (decls.map g) name current = (visible decls name current).map g := by
  have hnamed : (decls.map g).filter (·.name == name) = (decls.filter (·.name == name)).map g := by
    rw [List.filter_map]
    congr 2
    funext d
    simp [hname]
  unfold visible
  rw [hnamed]
  cases decls.filter (·.name == name) with
  | nil => rfl
  | cons first rest =>
    have hany : ((first :: rest).map g).any (·.file == current) = (first :: rest).any (·.file == current) := by
      rw [List.any_map]
      congr 1
      funext d
      simp [hfile]
    simp only [List.map_cons] at hany ⊢
    rw [hany, hfile, ← List.map_cons, List.filter_map]
    congr 2
    funext d
    simp [hfile]

/-- The declarations that count are of one file. -/
theorem file_of_mem_visible {Form : Type} {decls : List (Decl Form)} {name : String} {current : Nat} {d e : Decl Form}
    (hd : d ∈ visible decls name current) (he : e ∈ visible decls name current) : d.file = e.file := by
  unfold visible at hd he
  simp only at hd he
  cases hnamed : decls.filter (·.name == name) with
  | nil =>
    rw [hnamed] at hd
    cases hd
  | cons first rest =>
    rw [hnamed] at hd he
    simp only [List.mem_filter, beq_iff_eq] at hd he
    rw [hd.2, he.2]

theorem WidenedProject.typesNamed_eq (h : WidenedProject p p' places words) (name : String) (current : Nat) :
    p'.typesNamed name current = (p.typesNamed name current).map (moved places) := by
  unfold Project.typesNamed
  rw [h.types, visible_map (g := moved places) (fun _ => rfl) (fun _ => rfl)]

theorem WidenedProject.valueNamed?_eq (h : WidenedProject p p' places words) (name : String) (current : Nat) :
    p'.valueNamed? name current = (p.valueNamed? name current).map (moved places) := by
  unfold Project.valueNamed?
  rw [h.values, visible_map (g := moved places) (fun _ => rfl) (fun _ => rfl), List.head?_map]

/-! ### Enums -/

theorem enum_of_find? {name : String} {current : Nat} {d : Decl TypeForm}
    (hd : (p.typesNamed name current).find? (·.form == .enum) = some d) :
    d ∈ p.types ∧ d.name = name ∧ d.form = .enum := by
  obtain ⟨hmem, hname⟩ := mem_of_mem_visible (List.mem_of_find?_eq_some hd)
  have hform := List.find?_some hd
  exact ⟨hmem, hname, beq_iff_eq.mp hform⟩

theorem enumMembers_rereads (h : WidenedProject p p' places words) (current : Nat) (name : String) :
    Rereads words Eq (enumMembers p current name) (enumMembers p' current name) := by
  unfold enumMembers
  apply Rereads.bind_get
  intro s
  cases s.enums.lookup name with
  | some members => exact .pure rfl
  | none =>
    have hfind : (p'.typesNamed name current).find? (·.form == .enum) =
        ((p.typesNamed name current).find? (·.form == .enum)).map (moved places) := by
      rw [h.typesNamed_eq, List.find?_map]
      rfl
    simp only [hfind]
    cases hd : (p.typesNamed name current).find? (·.form == .enum) with
    | none => exact .throw _ _
    | some d =>
      obtain ⟨hmem, rfl, hform⟩ := enum_of_find? hd
      obtain ⟨hword, hbrace⟩ := h.enum d hmem hform
      have hfile := h.file d.file
      have hseen := h.type_seen d hmem
      have hsucc := hseen.succ (h.type_name d hmem) rfl
      have hseen' := hseen.mono (Nat.le_succ d.token)
      have hbrace' := hseen'.succ hbrace rfl
      simp only [Option.map_some, moved, declMoved]
      cases hcloser : (p.file d.file).closer? (d.token + 1) with
      | none =>
        rw [hfile.closer?_eq_none_of_eq hsucc.symm hcloser]
        exact .throw _ _
      | some c =>
        obtain ⟨⟨c', hc'⟩, hcloser', rfl⟩ := hfile.closer?_eq_some_of_eq hsucc.symm hcloser
        obtain ⟨hentries, herror⟩ := enumEntries_place hfile (hseen'.mono (Nat.le_succ _)) c.1 .zero
        rw [hbrace', hsucc] at hentries herror
        rw [hcloser']
        simp only [hentries]
        apply Rereads.bind (Rereads.onTable _)
        rintro members _ rfl
        generalize (enumEntries (p.file d.file) c.1 (d.token + 1 + 1) .zero).2 = e at herror ⊢
        generalize (enumEntries (p'.file d.file) _ _ .zero).2 = e' at herror ⊢
        cases e <;> cases e' <;> cases herror
        · apply Rereads.bind (Rereads.onTable _)
          rintro _ _ rfl
          apply Rereads.bind (Rereads.modify ?_)
          · rintro _ _ rfl
            exact .pure rfl
          · intro s hs w hw
            show List.lookup w ((d.name, members) :: s.enums) = none
            rw [List.lookup_cons]
            split
            · next heq => exact absurd (beq_iff_eq.mp heq ▸ hw) hword
            · exact hs w hw
        · exact .throw _ _

theorem enumMember_rereads (h : WidenedProject p p' places words) (current : Nat) (qualifier name : String) :
    Rereads words Eq (enumMember p current qualifier name) (enumMember p' current qualifier name) := by
  unfold enumMember
  apply Rereads.bind (enumMembers_rereads h current qualifier)
  rintro members _ rfl
  cases members.lookup name with
  | some type => exact .pure rfl
  | none => exact .throw _ _

/-- Nothing is known of members of a word that names no enum. -/
theorem fails_enumMember {w : String} (hno : ∀ d ∈ p.types, d.form = .enum → d.name ≠ w) (hw : w ∈ words) (current : Nat)
    (name : String) : Fails words (enumMember p current w name) := by
  unfold enumMember
  apply Fails.bind
  intro s hs
  refine ⟨.unknownName w, ?_⟩
  have hget : ∀ k : TypeState → Reading (List (String × TypeId)), (get >>= k) s = k s s := fun _ => rfl
  have hnone : (p.typesNamed w current).find? (·.form == .enum) = none := by
    rw [← Option.not_isSome_iff_eq_none, Option.isSome_iff_exists]
    rintro ⟨d, hd⟩
    obtain ⟨hmem, hname, hform⟩ := enum_of_find? hd
    exact hno d hmem hform hname
  unfold enumMembers
  rw [hget, hs w hw]
  simp only [hnone]
  rfl

theorem WidenedProject.ne_word (h : WidenedProject p p' places words) {w : String} (hw : w ∈ words) :
    (∀ d ∈ p.types, d.form = .enum → d.name ≠ w) ∧ ∀ d ∈ p'.types, d.form = .enum → d.name ≠ w := by
  have hno : ∀ d ∈ p.types, d.form = .enum → d.name ≠ w := by
    rintro d hd hform rfl
    exact (h.enum d hd hform).1 hw
  refine ⟨hno, ?_⟩
  rw [h.types, List.forall_mem_map]
  exact hno

def ResolverRereads (words : List String) (resolver resolver' : Resolver) : Prop :=
  ∀ current name args, Rereads words Eq (resolver current name args) (resolver' current name args)

theorem scopeOf_rereads (h : WidenedProject p p' places words) {resolver resolver' : Resolver}
    (hresolver : ResolverRereads words resolver resolver') (home : Nat) :
    ScopeRereads words (scopeOf p resolver home) (scopeOf p' resolver' home) where
  named := hresolver home
  member := enumMember_rereads h home
  missing _ hw name := fails_enumMember (h.ne_word hw).1 hw home name
  missing' _ hw name := fails_enumMember (h.ne_word hw).2 hw home name

/-! ### Bodies of declarations -/

section

variable {f f' : File} {place : Nat → Nat} {scope scope' : Scope} {token : Nat}

theorem bindParameters_rereads (h : Widened f f' place) (hscope : ScopeRereads words scope scope')
    {ps : List Parameter} (hps : ∀ p ∈ ps, ∀ s ∈ p.default?, Enters f f' place words s) (bound : Bindings)
    (args : List TypeId) :
    Rereads words Eq (bindParameters f scope bound ps args)
      (bindParameters f' scope' bound (ps.map (Parameter.moved place)) args) := by
  induction ps generalizing bound args with
  | nil => cases args <;> exact .pure rfl
  | cons param ps ih =>
    have ih := ih fun p hp => hps p (List.mem_cons_of_mem _ hp)
    cases args with
    | cons arg args => exact ih _ args
    | nil =>
      rw [List.map_cons]
      unfold bindParameters
      simp only [Parameter.moved]
      have hparam := hps param List.mem_cons_self
      cases hdefault : param.default? with
      | none =>
        apply Rereads.bind (Rereads.onTable (Table.insert .unknown))
        rintro type _ rfl
        exact ih _ []
      | some start =>
        simp only [Option.map_some, map_eq_pure_bind, bind_assoc, pure_bind]
        apply Rereads.bind (Rereads.adaptExcept _ _ (typeAt_rereads h hscope rfl (hparam start hdefault)))
        rintro parsed parsed' hparsed
        rw [hparsed.value]
        exact ih _ []

theorem boundParameters_rereads (h : Widened f f' place) (hscope : ScopeRereads words scope scope')
    (hseen : Seen f f' place words token) (hname : f.hasKind token .ident = true) (args : List TypeId) :
    Rereads words (fun r r' => r'.1 = r.1 ∧ r'.2 = place r.2 ∧ token ≤ r.2) (boundParameters f scope token args)
      (boundParameters f' scope' (place token) args) := by
  have hseen' := hseen.mono (Nat.le_succ token)
  unfold boundParameters
  rw [← hseen.succ hname rfl, parameters?_place h hseen']
  cases hps : parameters? f (token + 1) with
  | none => exact .throw _ _
  | some r =>
    obtain ⟨henters, hle⟩ := enters_of_parameters? hseen' hps
    apply Rereads.bind (bindParameters_rereads h hscope henters [] args)
    rintro bound _ rfl
    exact .pure ⟨rfl, rfl, Nat.le_of_succ_le hle⟩

theorem aliasBody_rereads (h : Widened f f' place) (hscope : ScopeRereads words scope scope')
    (hseen : Seen f f' place words token) (hname : f.hasKind token .ident = true) (args : List TypeId) :
    Rereads words Eq (aliasBody f scope token args) (aliasBody f' scope' (place token) args) := by
  have hseen' := hseen.mono (Nat.le_succ token)
  unfold aliasBody
  rw [← hseen.succ hname rfl, parameters?_place h hseen']
  cases hps : parameters? f (token + 1) with
  | none => exact .throw _ _
  | some r =>
    obtain ⟨henters, hle⟩ := enters_of_parameters? hseen' hps
    have hafter := hseen'.mono hle
    simp only [Option.map_some, parametersMoved, Prod.map]
    apply Rereads.ite (h.hasKind_iff r.2 .eq)
    · intro heq
      apply Rereads.bind (bindParameters_rereads h hscope henters [] args)
      rintro bound _ rfl
      apply Rereads.bind (Rereads.adaptExcept _ _
        (typeAt_rereads h hscope (hafter.succ heq rfl).symm (hafter.enters_succ heq rfl)))
      rintro parsed parsed' hparsed
      rw [hparsed.value]
      exact .pure rfl
    · intro _
      exact .throw _ _

theorem interfacePart_rereads (h : Widened f f' place) (hscope : ScopeRereads words scope scope')
    (hseen : Seen f f' place words token) (hname : f.hasKind token .ident = true) (args : List TypeId) :
    Rereads words Eq (interfacePart f scope token args) (interfacePart f' scope' (place token) args) := by
  unfold interfacePart
  apply Rereads.bind (boundParameters_rereads h hscope hseen hname args)
  rintro ⟨bound, after⟩ ⟨bound', after'⟩ ⟨hbound, hplace, hle⟩
  obtain rfl : bound' = bound := hbound
  obtain rfl : after' = place after := hplace
  have hafter := hseen.mono hle
  apply Rereads.bind (Rereads.adaptExcept _ _ (heritageAt_rereads h hscope hafter))
  rintro ⟨bases, brace⟩ ⟨bases', brace'⟩ ⟨⟨hbases, hbrace⟩, hle'⟩
  obtain rfl : bases' = bases := hbases
  obtain rfl : brace' = place brace := hbrace
  apply Rereads.bind (Rereads.adaptExcept _ _ (objectAt_rereads h hscope rfl (hafter.mono hle')))
  rintro object object' hobject
  rw [hobject.value]
  exact .pure rfl

theorem interfaceParts_rereads (h : Widened f f' place) (hscope : ScopeRereads words scope scope')
    {decls : List (Decl TypeForm)} (hseen : ∀ d ∈ decls, Seen f f' place words d.token)
    (hname : ∀ d ∈ decls, f.hasKind d.token .ident = true) (args : List TypeId) (merged : ObjectType) (bases : List TypeId) :
    Rereads words Eq (interfaceParts f scope args merged bases decls)
      (interfaceParts f' scope' args merged bases (decls.map (declMoved place))) := by
  induction decls generalizing merged bases with
  | nil => exact .pure rfl
  | cons d ds ih =>
    rw [List.map_cons]
    unfold interfaceParts
    apply Rereads.bind (interfacePart_rereads h hscope (hseen d List.mem_cons_self) (hname d List.mem_cons_self) args)
    rintro ⟨body, more⟩ _ rfl
    exact ih (fun d hd => hseen d (List.mem_cons_of_mem _ hd)) (fun d hd => hname d (List.mem_cons_of_mem _ hd)) _ _

theorem interfaceBody_rereads (h : Widened f f' place) (hscope : ScopeRereads words scope scope')
    {decls : List (Decl TypeForm)} (hseen : ∀ d ∈ decls, Seen f f' place words d.token)
    (hname : ∀ d ∈ decls, f.hasKind d.token .ident = true) (name : String) (args : List TypeId) :
    Rereads words Eq (interfaceBody f scope name decls args)
      (interfaceBody f' scope' name (decls.map (declMoved place)) args) := by
  have hfilter : (decls.map (declMoved place)).filter (·.form == .interface) =
      (decls.filter (·.form == .interface)).map (declMoved place) := List.filter_map
  unfold interfaceBody
  rw [hfilter]
  apply Rereads.bind (interfaceParts_rereads h hscope (fun d hd => hseen d (List.mem_of_mem_filter hd))
    (fun d hd => hname d (List.mem_of_mem_filter hd)) args _ [])
  rintro ⟨merged, bases⟩ _ rfl
  apply Rereads.bind_get
  intro s
  exact Rereads.onTable _

end

/-! ### Resolution -/

theorem defineInstance_rereads {body body' : Reading TypeId} (inst : Instance) (h : Rereads words Eq body body') :
    Rereads words Eq (defineInstance inst body) (defineInstance inst body') := by
  unfold defineInstance
  apply Rereads.bind (Rereads.onTable Table.reserve)
  rintro place _ rfl
  apply Rereads.bind (Rereads.modify (g := fun s => { s with memo := (inst, place) :: s.memo }) fun _ hs => hs)
  rintro _ _ rfl
  intro s hs
  have hbody := h s hs
  simp only
  generalize body s = r, body' s = r' at hbody ⊢
  cases hbody with
  | ok ht hab =>
    subst hab
    exact .ok ht rfl
  | error ht => exact .error ht

theorem declarationBody_rereads (h : WidenedProject p p' places words) {resolver resolver' : Resolver}
    (hresolver : ResolverRereads words resolver resolver') (name : String) {decls : List (Decl TypeForm)}
    {first : Decl TypeForm} (hfirst : first ∈ p.types) (hdecls : ∀ d ∈ decls, d ∈ p.types ∧ d.file = first.file)
    (args : List TypeId) :
    Rereads words Eq (declarationBody p resolver name decls first args)
      (declarationBody p' resolver' name (decls.map (moved places)) (moved places first) args) := by
  have hscope := scopeOf_rereads h hresolver first.file
  have hfile := h.file first.file
  have hdecls' : decls.map (moved places) = decls.map (declMoved (places first.file)) := by
    apply List.map_congr_left
    intro d hd
    unfold moved
    rw [(hdecls d hd).2]
  unfold declarationBody
  simp only [moved, declMoved] at hdecls' ⊢
  cases first.form with
  | typeAlias => exact aliasBody_rereads hfile hscope (h.type_seen first hfirst) (h.type_name first hfirst) args
  | interface =>
    simp only
    rw [hdecls']
    refine interfaceBody_rereads hfile hscope (fun d hd => ?_) (fun d hd => ?_) name args
    · rw [← (hdecls d hd).2]
      exact h.type_seen d (hdecls d hd).1
    · rw [← (hdecls d hd).2]
      exact h.type_name d (hdecls d hd).1
  | enum =>
    apply Rereads.bind (enumMembers_rereads h first.file name)
    rintro members _ rfl
    exact Rereads.onTable _

theorem resolveStep_rereads (h : WidenedProject p p' places words)
    {body body' : Option (String → List (Decl TypeForm) → Decl TypeForm → List TypeId → Reading TypeId)}
    (hbody : (body = none ∧ body' = none) ∨ ∃ b b', body = some b ∧ body' = some b' ∧
      ∀ name decls first args, first ∈ p.types → (∀ d ∈ decls, d ∈ p.types ∧ d.file = first.file) →
        Rereads words Eq (b name decls first args)
          (b' name (decls.map (moved places)) (moved places first) args)) :
    ResolverRereads words (resolveStep p body) (resolveStep p' body') := by
  intro current name args
  unfold resolveStep
  apply Rereads.bind_get
  intro s
  cases s.memo.lookup (name, args) with
  | some type => exact .pure rfl
  | none =>
    simp only [h.typesNamed_eq]
    cases hdecls : p.typesNamed name current with
    | nil =>
      cases Builtin.lookup? name args with
      | some build => exact Rereads.onTable build
      | none => exact .throw _ _
    | cons first rest =>
      have hmem : ∀ d ∈ first :: rest, d ∈ visible p.types name current := by
        intro d hd
        rw [← hdecls] at hd
        exact hd
      rcases hbody with ⟨rfl, rfl⟩ | ⟨b, b', rfl, rfl, hb⟩
      · exact .throw _ _
      · refine defineInstance_rereads (name, args) (hb name (first :: rest) first args ?_ ?_)
        · exact (mem_of_mem_visible (hmem first List.mem_cons_self)).1
        · exact fun d hd => ⟨(mem_of_mem_visible (hmem d hd)).1, file_of_mem_visible (hmem d hd) (hmem first List.mem_cons_self)⟩

theorem resolveWithin_rereads (h : WidenedProject p p' places words) (levels : Nat) :
    ResolverRereads words (resolveWithin p levels) (resolveWithin p' levels) := by
  induction levels with
  | zero => exact resolveStep_rereads h (Or.inl ⟨rfl, rfl⟩)
  | succ levels ih =>
    refine resolveStep_rereads h (Or.inr ⟨_, _, rfl, rfl, ?_⟩)
    intro name decls first args hfirst hdecls
    exact declarationBody_rereads h ih name hfirst hdecls args

theorem topScope_rereads (h : WidenedProject p p' places words) (current : Nat) :
    ScopeRereads words (topScope p current) (topScope p' current) :=
  scopeOf_rereads h (resolveWithin_rereads h maxNesting) current

end SchemaSplice.Declaration
