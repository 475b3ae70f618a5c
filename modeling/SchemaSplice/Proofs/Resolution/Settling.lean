import SchemaSplice.Proofs.Resolution.Following
import SchemaSplice.Proofs.Resolution.Representation
/-!
# The steps suffice

Whatever is asked, the program with explicit steps ends when it is given enough of them, with the answer and the state of
`serve`, and with its mutable state set back. The body of an instance recurs on the nesting that is left, and the type of a
value on the values that have no answer yet.
-/

namespace SchemaSplice.Declaration

open Annotation Source SchemaSplice.Types

section

variable {p : Project} {c k : Nat} {env : Env}

/-! ### Declarations -/

section

variable {f : File} {scope : Scope} (hscope : ScopeFollows p c k scope)

include hscope

theorem follows_bindParameters (bound : Bindings) (ps : List Parameter) (args : List TypeId) :
    Follows c k (fun n => (procedures p n).bindParameters f bound ps args) id id (bindParameters f scope bound ps args) := by
  induction ps generalizing bound args with
  | nil => exact Follows.pure rfl
  | cons q ps ih =>
    cases args with
    | cons arg args => exact ih _ _
    | nil =>
      unfold bindParameters Procedures.bindParameters
      cases q.default? with
      | some start =>
        have hread : Follows c k (fun n => (procedures p n).type ⟨f, bound⟩ start) pair ParseError.cause
            (typeAt ⟨f, scope, bound⟩ start) := follows_typeAt hscope start
        have htype : Follows c k (fun n => (·.1) <$> (procedures p n).type ⟨f, bound⟩ start) id id
            ((·.value) <$> (typeAt ⟨f, scope, bound⟩ start).adaptExcept (·.cause)) :=
          hread.adaptExcept.map fun _ => rfl
        exact htype.bind fun type => ih _ _
      | none => exact Follows.onTable.bind fun type => ih _ _

theorem follows_aliasBody (token : Nat) (args : List TypeId) :
    Follows c k (fun n => (procedures p n).aliasBody f token args) id id (aliasBody f scope token args) := by
  unfold aliasBody Procedures.aliasBody
  cases parameters? f (token + 1) with
  | none => exact Follows.throw rfl
  | some read =>
    refine Follows.ite (fun _ => ?_) fun _ => Follows.throw rfl
    refine (follows_bindParameters hscope [] read.1 args).bind fun bound => ?_
    have hread : Follows c k (fun n => (procedures p n).type ⟨f, bound⟩ (read.2 + 1)) pair ParseError.cause
        (typeAt ⟨f, scope, bound⟩ (read.2 + 1)) := follows_typeAt hscope _
    exact hread.adaptExcept.bind fun r => Follows.pure rfl

theorem follows_interfacePart (token : Nat) (args : List TypeId) :
    Follows c k (fun n => (procedures p n).interfacePart f token args) id id (interfacePart f scope token args) := by
  unfold interfacePart boundParameters Procedures.interfacePart
  cases parameters? f (token + 1) with
  | none => exact Follows.throw rfl
  | some read =>
    simp only [bind_assoc, pure_bind]
    refine (follows_bindParameters hscope [] read.1 args).bind fun bound => ?_
    have hbases : Follows c k (fun n => (procedures p n).heritage ⟨f, bound⟩ read.2) id ParseError.cause
        (heritageAt ⟨f, scope, bound⟩ read.2) := follows_heritageAt hscope _
    refine hbases.adaptExcept.bind fun bases => ?_
    have hobject : Follows c k (fun n => (procedures p n).objectBody ⟨f, bound⟩ bases.2) pair ParseError.cause
        (objectAt ⟨f, scope, bound⟩ bases.2) := follows_objectAt hscope _
    exact hobject.adaptExcept.bind fun object => Follows.pure rfl

theorem follows_interfaceParts (args : List TypeId) (merged : ObjectType) (bases : List TypeId)
    (decls : List (Decl TypeForm)) :
    Follows c k (fun n => (procedures p n).interfaceParts f args merged bases decls) id id
      (interfaceParts f scope args merged bases decls) := by
  induction decls generalizing merged bases with
  | nil => exact Follows.pure rfl
  | cons d ds ih =>
    unfold interfaceParts Procedures.interfaceParts
    refine (follows_interfacePart hscope d.token args).bind fun part => ?_
    exact ih _ _

theorem follows_interfaceBody (name : String) (decls : List (Decl TypeForm)) (args : List TypeId) :
    Follows c k (fun n => (procedures p n).interfaceBody f name decls args) id id
      (interfaceBody f scope name decls args) := by
  unfold interfaceBody Procedures.interfaceBody
  refine (follows_interfaceParts hscope args _ [] _).bind fun parts => ?_
  exact Follows.bind_get fun s => Follows.onTable

end

/-! ### Enums -/

theorem follows_enumRest (f : File) (close : Nat) (enumName : String) (i : Nat) (running : Binary64)
    (members : List (String × TypeId)) :
    Follows c k (fun n => (procedures p n).enumRest f close enumName i running members) id id (do
      let members ← onTable (insertMembers enumName members (enumEntries f close i running).1)
      match (enumEntries f close i running).2 with
      | some e => throw e
      | none => return members) := by
  fun_induction enumEntries f close i running generalizing members with
  | case1 i running h => exact Follows.of_succ (Follows.pure rfl) fun n => if_pos h
  | case2 i running h hname =>
    have hcall : ∀ n, (procedures p (n + 1)).enumRest f close enumName i running members =
        Run.throw (malformed f i "an enum member") := by
      intro n
      refine (if_neg h).trans ?_
      rw [hname]
    exact Follows.of_succ (Follows.throw rfl) hcall
  | case3 i running h name hname v rest error hrest ih =>
    rw [hrest] at ih
    have hcall : ∀ n, (procedures p (n + 1)).enumRest f close enumName i running members =
        Run.onTable (Table.insert (.enumLiteral enumName name v.value)) >>= fun type =>
          (procedures p n).enumRest f close enumName v.next v.running (putMember members name type) := by
      intro n
      refine (if_neg h).trans ?_
      rw [hname]
    refine Follows.of_succ ?_ hcall
    show Follows c k _ id id (onTable (Table.insert (.enumLiteral enumName name v.value)) >>= fun type => do
      let members ← onTable (insertMembers enumName (putMember members name type) rest)
      match error with
      | some e => throw e
      | none => return members)
    exact Follows.onTable.bind fun type => ih (putMember members name type)

theorem follows_enumMembers (name : String) :
    Follows c k (fun n => (procedures p n).enumMembers p name) id id (enumMembers p c name) := by
  unfold enumMembers Procedures.enumMembers
  refine Follows.bind_get fun s => ?_
  cases s.types.enums.lookup name with
  | some members => exact Follows.pure rfl
  | none =>
    cases (p.typesNamed name c).find? (·.form == .enum) with
    | none => exact Follows.throw rfl
    | some decl =>
      simp only
      cases (p.file decl.file).closer? (decl.token + 1) with
      | none => exact Follows.throw rfl
      | some close =>
        simp only
        have hrest := follows_enumRest (p := p) (c := c) (k := k) (p.file decl.file) close.1 name (decl.token + 1 + 1) .zero []
        generalize enumEntries (p.file decl.file) close.1 (decl.token + 1 + 1) .zero = read at hrest
        obtain ⟨entries, error⟩ := read
        -- The loop ends with the error, if there is one; otherwise the members are recorded.
        have hdone : Follows c k (fun n => do
            let members ← (procedures p n).enumRest (p.file decl.file) close.1 name (decl.token + 1 + 1) .zero []
            Run.onTable (Table.recordEnum name members.length)
            Run.modifyTypes fun s => { s with enums := (name, members) :: s.enums }
            return members) id id ((do
              let members ← onTable (insertMembers name [] entries)
              match error with
              | some e => throw e
              | none => return members : Reading (List (String × TypeId))) >>= fun members => do
            onTable (Table.recordEnum name members.length)
            modify fun s => { s with enums := (name, members) :: s.enums }
            return members) := by
          refine hrest.bind fun members => ?_
          refine Follows.onTable.bind fun _ => ?_
          refine Follows.modifyTypes.bind fun _ => ?_
          exact Follows.pure rfl
        rw [bind_assoc] at hdone
        cases error with
        | some e => exact hdone
        | none =>
          simp only [pure_bind] at hdone
          exact hdone

theorem follows_enumMember (qualifier member : String) :
    Follows c k (fun n => (procedures p n).enumMember p qualifier member) id id (enumMember p c qualifier member) := by
  unfold enumMember Procedures.enumMember
  refine (follows_enumMembers qualifier).bind fun members => ?_
  simp only [id_eq]
  cases members.lookup member with
  | some type => exact Follows.pure rfl
  | none => exact Follows.throw rfl

/-! ### Resolution -/

theorem follows_declarationBody {resolver : Resolver} (first : Decl TypeForm)
    (hresolver : ∀ name args, Follows first.file k (fun n => (procedures p n).named name args) id id
      (resolver first.file name args))
    (name : String) (decls : List (Decl TypeForm)) (args : List TypeId) :
    Follows first.file k (fun n => (procedures p n).declarationBody p name decls first args) id id
      (declarationBody p resolver name decls first args) := by
  have hscope : ScopeFollows p first.file k (scopeOf p resolver first.file) := ⟨hresolver, follows_enumMember⟩
  unfold declarationBody Procedures.declarationBody
  cases first.form with
  | typeAlias => exact follows_aliasBody hscope _ _
  | interface => exact follows_interfaceBody hscope _ _ _
  | enum => exact (follows_enumMembers name).bind fun members => Follows.onTable

/-- The body of an instance is read with the instance remembered, the declaration's file as the current one, and one more
instance around it; all of that is set back. -/
theorem follows_instantiate {name : String} {args : List TypeId} {decls : List (Decl TypeForm)} {first : Decl TypeForm}
    {body : Reading TypeId}
    (hbody : Follows first.file (k + 1) (fun n => (procedures p n).declarationBody p name decls first args) id id body) :
    Follows c k (fun n => (procedures p n).instantiate p name args decls first) id id
      (defineInstance (name, args) body) := by
  intro s
  rw [defineInstance_apply]
  have hread := hbody { s with types := s.types.reserve (name, args) }
  unfold Procedures.instantiate
  cases hres : body (s.types.reserve (name, args)) with
  | ok type types =>
    rw [hres] at hread
    refine Settles.bind_ok (Settles.now fun _ => rfl) (Settles.bind_ok (Settles.now fun _ => rfl) ?_)
    refine Settles.bind_ok (Settles.now fun _ => rfl) (Settles.bind_ok (Settles.now fun _ => rfl) ?_)
    exact Settles.bind_ok hread.attempt (Settles.now fun _ => rfl)
  | error e types =>
    rw [hres] at hread
    refine Settles.bind_ok (Settles.now fun _ => rfl) (Settles.bind_ok (Settles.now fun _ => rfl) ?_)
    refine Settles.bind_ok (Settles.now fun _ => rfl) (Settles.bind_ok (Settles.now fun _ => rfl) ?_)
    exact Settles.bind_ok hread.attempt (Settles.now fun _ => rfl)

theorem follows_resolveStep
    (body : Option (String → List (Decl TypeForm) → Decl TypeForm → List TypeId → Reading TypeId))
    (hnone : body = none → maxNesting ≤ k)
    (hsome : ∀ read, body = some read → k < maxNesting ∧ ∀ name decls (first : Decl TypeForm) args,
      Follows first.file (k + 1) (fun n => (procedures p n).declarationBody p name decls first args) id id
        (read name decls first args)) (name : String) (args : List TypeId) :
    Follows c k (fun n => (procedures p n).named name args) id id (resolveStep p body c name args) := by
  refine Follows.of_succ (Follows.bind_get fun s => ?_) fun n => rfl
  cases s.types.memo.lookup (name, args) with
  | some type => exact Follows.pure rfl
  | none =>
    simp only
    cases p.typesNamed name c with
    | nil =>
      cases Builtin.lookup? name args with
      | some build => exact Follows.onTable
      | none => exact Follows.throw rfl
    | cons first rest =>
      cases body with
      | none =>
        simp only [if_pos (hnone rfl)]
        exact Follows.throw rfl
      | some read =>
        obtain ⟨hlt, hread⟩ := hsome read rfl
        simp only [if_neg (Nat.not_le_of_lt hlt)]
        exact follows_instantiate (hread name (first :: rest) first args)

/-- Nesting and the levels that are left are `maxNesting` together, so the guard stops exactly where no level is left. -/
theorem follows_resolveWithin (levels : Nat) (hlevels : k + levels = maxNesting) (name : String) (args : List TypeId) :
    Follows c k (fun n => (procedures p n).named name args) id id (resolveWithin p levels c name args) := by
  induction levels generalizing c k name args with
  | zero => exact follows_resolveStep none (fun _ => by omega) (fun _ h => nomatch h) name args
  | succ levels ih =>
    refine follows_resolveStep (some (declarationBody p (resolveWithin p levels))) (fun h => nomatch h) ?_ name args
    rintro read ⟨rfl⟩
    refine ⟨by omega, fun name decls first args => ?_⟩
    exact follows_declarationBody first (fun name args => ih (by omega) name args) name decls args

theorem follows_topScope : ScopeFollows p c 0 (topScope p c) :=
  ⟨follows_resolveWithin maxNesting (Nat.zero_add _), follows_enumMember⟩

/-! ### Values -/

theorem settles_writtenAt (s : Inquiry) (file start : Nat) :
    Settles (fun n => (procedures p n).writtenAt p file start) ⟨s, file, 0⟩
      (.ok (annotationAt p s file start).1, ⟨(annotationAt p s file start).2, file, 0⟩) := by
  have htype : Follows file 0 (fun n => (procedures p n).type ⟨p.file file, []⟩ start) pair ParseError.cause
      (typeAt ⟨p.file file, topScope p file, []⟩ start) := follows_typeAt follows_topScope _
  have hread := htype s
  unfold annotationAt Procedures.writtenAt
  cases hres : typeAt ⟨p.file file, topScope p file, []⟩ start s.types with
  | ok r types =>
    rw [hres] at hread
    simp only [hres]
    exact Settles.bind_ok hread.attempt (Settles.now fun _ => rfl)
  | error e types =>
    rw [hres] at hread
    simp only [hres]
    exact Settles.bind_ok hread.attempt (Settles.now fun _ => rfl)

theorem settles_value_of_body {o : Oracle} {name : String} {r : Except TypeError (Option TypeId) × Oracle}
    (h : Settles (fun n => (procedures p n).valueBody p name) o r) : Settles (fun n => (procedures p n).value name) o r :=
  h.of_succ fun _ => rfl

theorem settles_value (s : Inquiry) (name : String) :
    Settles (fun n => (procedures p n).value name) ⟨s, c, 0⟩
      (.ok (valueType p s c name).1, ⟨(valueType p s c name).2, c, 0⟩) := by
  fun_induction valueType p s c name with
  | case1 s current name known hknown =>
    refine settles_value_of_body ?_
    refine Settles.bind_ok (Settles.now fun _ => rfl) ?_
    simp only [hknown]
    exact Settles.now fun _ => rfl
  | case2 s current name hunknown pending hd =>
    refine settles_value_of_body ?_
    refine Settles.bind_ok (Settles.now fun _ => rfl) ?_
    simp only [hunknown]
    refine Settles.bind_ok (Settles.now fun _ => rfl) ?_
    simp only [hd]
    exact Settles.now fun _ => rfl
  | case3 s current name hunknown pending d hd type s' hbody ih =>
    refine settles_value_of_body ?_
    refine Settles.bind_ok (Settles.now fun _ => rfl) ?_
    simp only [hunknown]
    refine Settles.bind_ok (Settles.now fun _ => rfl) ?_
    simp only [hd]
    refine Settles.bind_ok (Settles.now fun _ => rfl) ?_
    have hread : Settles (fun n => (procedures p n).declaredValue p d) ⟨pending, d.file, 0⟩
        (.ok type, ⟨s', d.file, 0⟩) := by
      unfold Procedures.declaredValue
      cases hsource : valueSource (p.file d.file) d with
      | type start =>
        rw [hsource] at hbody
        have hwritten := settles_writtenAt (p := p) pending d.file start
        rw [show annotationAt p pending d.file start = (type, s') from hbody] at hwritten
        exact hwritten
      | result start =>
        rw [hsource] at hbody
        simp only at hbody
        have hwritten := settles_writtenAt (p := p) pending d.file start
        generalize annotationAt p pending d.file start = read at hbody hwritten
        obtain ⟨_ | result, s₁⟩ := read
        · cases hbody
          exact Settles.bind_ok hwritten (Settles.now fun _ => rfl)
        · cases hbody
          exact Settles.bind_ok hwritten (Settles.now fun _ => rfl)
      | value other =>
        rw [hsource] at hbody
        have hother := ih other
        rw [show valueType p pending d.file other = (type, s') from hbody] at hother
        exact hother
      | nothing =>
        rw [hsource] at hbody
        cases hbody
        exact Settles.now fun _ => rfl
    exact Settles.bind_ok hread (Settles.now fun _ => rfl)

/-! ### Requests -/

theorem Follows.settles {α : Type} {run : Nat → Run α} {m : Reading α} (h : Follows c k run id id m) (s : Inquiry) :
    Settles run ⟨s, c, k⟩ ((s.run m).1, ⟨(s.run m).2, c, k⟩) := by
  have hs := h s
  unfold Inquiry.run
  cases hres : m s.types with
  | ok a types =>
    rw [hres] at hs
    exact hs
  | error e types =>
    rw [hres] at hs
    exact hs

theorem follows_readType (env : Env) (hscope : ScopeFollows p c k env.scope) (q : Nat) :
    Follows c k (fun n => (procedures p n).type (writtenOf env) q) id id (readType env q) :=
  (follows_typeAt hscope q).adaptExcept.seq_pure fun _ => rfl

theorem follows_readObject (env : Env) (hscope : ScopeFollows p c k env.scope) (q : Nat) :
    Follows c k (fun n => (procedures p n).objectBody (writtenOf env) q) id id (readObject env q) :=
  (follows_objectAt hscope q).adaptExcept.seq_pure fun _ => rfl

theorem follows_readHeritage (env : Env) (hscope : ScopeFollows p c k env.scope) (q : Nat) :
    Follows c k (fun n => (procedures p n).heritage (writtenOf env) q) id id (readHeritage env q) :=
  (follows_heritageAt hscope q).adaptExcept

end

/-- Whatever is asked for in whatever state, the run ends as soon as it has enough steps, with the answer and the state that
`serve` gives, and with the current file and the nesting as they were. -/
theorem settles_perform (p : Project) (current : Nat) (s : Inquiry) (r : Request) :
    ∃ least, ∀ steps, least ≤ steps → perform p steps ⟨s, current, 0⟩ r =
      some ((serve p current s r).1, ⟨(serve p current s r).2, current, 0⟩) := by
  have hscope := follows_topScope (p := p) (c := current)
  let answer (r : Except TypeError (Option TypeId) × Oracle) : Option TypeId × Oracle := (r.1.toOption.join, r.2)
  cases r with
  | named name args => exact (follows_resolveWithin maxNesting (Nat.zero_add _) name args).settles s
  | member qualifier name => exact (follows_enumMember qualifier name).settles s
  | value name =>
    obtain ⟨least, h⟩ := settles_value (p := p) (c := current) s name
    exact ⟨least, fun steps hsteps => congrArg (Option.map answer) (h steps hsteps)⟩
  | signature start? =>
    cases start? with
    | none => exact ⟨0, fun _ _ => rfl⟩
    | some start =>
      obtain ⟨least, h⟩ := settles_writtenAt (p := p) s current start
      exact ⟨least, fun steps hsteps => congrArg (Option.map answer) (h steps hsteps)⟩
  | type f params position => exact (follows_readType ⟨f, topScope p current, params⟩ hscope position).settles s
  | object f params position => exact (follows_readObject ⟨f, topScope p current, params⟩ hscope position).settles s
  | heritage f params position => exact (follows_readHeritage ⟨f, topScope p current, params⟩ hscope position).settles s

/-! ### Sessions -/

/-- The state after requests that were made one after the other, each with a number of steps. -/
def session (p : Project) (steps : Nat) (o : Oracle) : List Request → Option Oracle
  | [] => some o
  | r :: rs => (perform p steps o r).bind fun done => session p steps done.2 rs

def served (p : Project) (current : Nat) (s : Inquiry) (requests : List Request) : Inquiry :=
  requests.foldl (fun s r => (serve p current s r).2) s

theorem settles_session (p : Project) (current : Nat) (s : Inquiry) (requests : List Request) :
    ∃ least, ∀ steps, least ≤ steps →
      session p steps ⟨s, current, 0⟩ requests = some ⟨served p current s requests, current, 0⟩ := by
  induction requests generalizing s with
  | nil => exact ⟨0, fun _ _ => rfl⟩
  | cons r rs ih =>
    obtain ⟨least, hr⟩ := settles_perform p current s r
    obtain ⟨least', hrs⟩ := ih (serve p current s r).2
    refine ⟨max least least', fun steps hsteps => ?_⟩
    rw [session, hr steps (by omega)]
    exact hrs steps (by omega)

/-- After any requests, whatever is asked for next ends within finitely many steps, in any project and whatever was known at
first; the answer is that of `serve`, which is a total function. -/
theorem requests_end (p : Project) (current : Nat) (s : Inquiry) (before : List Request) (r : Request) :
    ∃ least, ∀ steps, least ≤ steps → ∃ o, session p steps ⟨s, current, 0⟩ before = some o ∧
      perform p steps o r = some ((serve p current (served p current s before) r).1,
        ⟨(serve p current (served p current s before) r).2, current, 0⟩) := by
  obtain ⟨least, hbefore⟩ := settles_session p current s before
  obtain ⟨least', hr⟩ := settles_perform p current (served p current s before) r
  exact ⟨max least least', fun steps hsteps => ⟨_, hbefore steps (by omega), hr steps (by omega)⟩⟩

/-! ### What a request leaves as it was -/

/-- In a reachable state, whatever is asked for and whether or not it succeeds: the current file and the nesting are set back, the
table has only grown, types of the table read as before, and what is remembered stays remembered. -/
theorem perform_keeps (p : Project) (current : Nat) (s : Inquiry) (hs : Reachable p current s) (r : Request) :
    ∃ least, ∀ steps, least ≤ steps → ∃ answer o, perform p steps ⟨s, current, 0⟩ r = some (answer, o) ∧
      o.current = current ∧ o.nesting = 0 ∧ s.table.size ≤ o.known.table.size ∧
      (∀ id : TypeId, id.slot < s.table.size → o.known.table.kind id = s.table.kind id) ∧
      ∀ inst id, s.types.memo.lookup inst = some id → o.known.types.memo.lookup inst = some id := by
  obtain ⟨least, hr⟩ := settles_perform p current s r
  have hmoves := moves_serve p current s r
  refine ⟨least, fun steps hsteps => ⟨_, _, hr steps hsteps, rfl, rfl, hmoves.extends.size_le, ?_, ?_⟩⟩
  · exact fun id hid => hs.known.types.table.kind_eq hmoves.extends hid
  · exact fun inst id hinst => hmoves.remembers hinst

/-- The declaration of `Late` fails after its place is reserved; the type of `Box` stays. -/
theorem perform_keeps_box :
    let project : Project := .ofFiles [.parse "a.ts" "interface Box \x7b size: number \x7d type Late = Missing"]
    let boxed := (serve project 0 {} (.named "Box" [])).2
    boxed.types.memo.lookup ("Box", []) = some ⟨0⟩ ∧
      ∃ least, ∀ steps, least ≤ steps → ∃ answer o,
        perform project steps ⟨boxed, 0, 0⟩ (.named "Late" []) = some (answer, o) ∧
        o.current = 0 ∧ o.nesting = 0 ∧ boxed.table.size ≤ o.known.table.size ∧
        (∀ id : TypeId, id.slot < boxed.table.size → o.known.table.kind id = boxed.table.kind id) ∧
        ∀ inst id, boxed.types.memo.lookup inst = some id → o.known.types.memo.lookup inst = some id := by
  refine ⟨by decide +kernel, ?_⟩
  exact perform_keeps _ 0 _ (.serve (.named "Box" []) .start fun _ h => nomatch h) _

end SchemaSplice.Declaration
