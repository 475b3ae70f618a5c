import SchemaSplice.Proofs.Resolution.Machine
/-!
# Runs that follow readings

A run of the program with explicit steps settles if it ends with every number of steps that is large enough. `Follows` says of
a run and a reading that the run settles with what the reading gives and sets the mutable state back; its rules follow the
way readings are put together, and there is one lemma for each procedure of the reader. A reading of a type recurs on the
tokens that are left.
-/

namespace SchemaSplice.Declaration

open Annotation Source SchemaSplice.Types

/-- With enough steps, a run from a state ends, always with the same result. -/
def Settles {α : Type} (run : Nat → Run α) (o : Oracle) (result : Except TypeError α × Oracle) : Prop :=
  ∃ least, ∀ steps, least ≤ steps → run steps o = some result

namespace Settles

variable {α β : Type} {run : Nat → Run α} {o o' : Oracle}

theorem now {r : Except TypeError α × Oracle} (h : ∀ n, run n o = some r) : Settles run o r := ⟨0, fun n _ => h n⟩

/-- A call takes one more step than the body that it runs. -/
theorem of_succ {body : Nat → Run α} {r : Except TypeError α × Oracle} (h : Settles body o r)
    (hcall : ∀ n, run (n + 1) o = body n o) : Settles run o r := by
  obtain ⟨least, h⟩ := h
  refine ⟨least + 1, fun steps hsteps => ?_⟩
  obtain ⟨n, rfl⟩ := Nat.exists_eq_add_of_le' (Nat.le_of_add_left_le hsteps)
  rw [hcall]
  exact h n (by omega)

theorem bind_ok {a : α} {next : Nat → α → Run β} {r : Except TypeError β × Oracle} (h : Settles run o (.ok a, o'))
    (hnext : Settles (fun n => next n a) o' r) : Settles (fun n => run n >>= next n) o r := by
  obtain ⟨least, h⟩ := h
  obtain ⟨least', hnext⟩ := hnext
  refine ⟨max least least', fun n hn => ?_⟩
  exact (Run.bind_of_ok (h n (by omega))).trans (hnext n (by omega))

theorem bind_error {e : TypeError} {next : Nat → α → Run β} (h : Settles run o (.error e, o')) :
    Settles (fun n => run n >>= next n) o (.error e, o') := by
  obtain ⟨least, h⟩ := h
  exact ⟨least, fun n hn => Run.bind_of_error (h n hn)⟩

theorem attempt {r : Except TypeError α × Oracle} (h : Settles run o r) :
    Settles (fun n => (run n).attempt) o (.ok r.1, r.2) := by
  obtain ⟨least, h⟩ := h
  refine ⟨least, fun n hn => ?_⟩
  show (run n o).map (fun r => (Except.ok r.1, r.2)) = _
  rw [h n hn]
  rfl

end Settles

/-! ### Runs that follow readings -/

/-- From every state of what is known, with `current` and `nesting` as given, a run ends like a reading, and leaves `current` and
`nesting` as they were. -/
def Follows (current nesting : Nat) {ε α β : Type} (run : Nat → Run β) (F : α → β) (cause : ε → TypeError)
    (m : EStateM ε TypeState α) : Prop :=
  ∀ s : Inquiry,
    match m s.types with
    | .ok a types => Settles run ⟨s, current, nesting⟩ (.ok (F a), ⟨{ s with types }, current, nesting⟩)
    | .error e types => Settles run ⟨s, current, nesting⟩ (.error (cause e), ⟨{ s with types }, current, nesting⟩)

namespace Follows

variable {c k : Nat} {ε α β γ δ : Type} {F : α → β} {G : γ → δ} {cause : ε → TypeError} {run : Nat → Run β}
  {m : EStateM ε TypeState α}

theorem pure {b : β} {a : α} (h : F a = b) : Follows c k (fun _ => Pure.pure b) F cause (Pure.pure a) := by
  intro s
  subst h
  exact Settles.now fun _ => rfl

theorem throw {e : ε} {e' : TypeError} (h : cause e = e') :
    Follows c k (fun _ => Run.throw e') F cause (MonadExcept.throw e) := by
  intro s
  subst h
  exact Settles.now fun _ => rfl

theorem of_succ {body : Nat → Run β} (h : Follows c k body F cause m) (hcall : ∀ n, run (n + 1) = body n) :
    Follows c k run F cause m := by
  intro s
  have hs := h s
  cases hres : m s.types with
  | ok a types =>
    rw [hres] at hs
    exact hs.of_succ fun n => congrFun (hcall n) _
  | error e types =>
    rw [hres] at hs
    exact hs.of_succ fun n => congrFun (hcall n) _

theorem bind_of {next : Nat → β → Run δ} {cont : α → EStateM ε TypeState γ} (h : Follows c k run F cause m)
    (hnext : ∀ a s t, m s = .ok a t → Follows c k (fun n => next n (F a)) G cause (cont a)) :
    Follows c k (fun n => run n >>= next n) G cause (m >>= cont) := by
  intro s
  have hs := h s
  show match EStateM.bind m cont s.types with
    | .ok a types => Settles _ ⟨s, c, k⟩ (.ok (G a), ⟨{ s with types }, c, k⟩)
    | .error e types => Settles _ ⟨s, c, k⟩ (.error (cause e), ⟨{ s with types }, c, k⟩)
  unfold EStateM.bind
  cases hres : m s.types with
  | ok a types =>
    rw [hres] at hs
    have ht := hnext a s.types types hres { s with types }
    simp only
    cases hres' : cont a types with
    | ok b types' =>
      rw [hres'] at ht
      exact hs.bind_ok ht
    | error e types' =>
      rw [hres'] at ht
      exact hs.bind_ok ht
  | error e types =>
    rw [hres] at hs
    exact hs.bind_error

theorem bind {next : Nat → β → Run δ} {cont : α → EStateM ε TypeState γ} (h : Follows c k run F cause m)
    (hnext : ∀ a, Follows c k (fun n => next n (F a)) G cause (cont a)) :
    Follows c k (fun n => run n >>= next n) G cause (m >>= cont) :=
  h.bind_of fun a _ _ _ => hnext a

/-- A reading that only changes how the result is given is followed by the same run. -/
theorem seq_pure {g : α → γ} {G : γ → β} (h : Follows c k run F cause m) (hG : ∀ a, G (g a) = F a) :
    Follows c k run G cause (m >>= fun a => Pure.pure (g a)) := by
  intro s
  have hs := h s
  show match EStateM.bind m (fun a => Pure.pure (g a)) s.types with
    | .ok a types => Settles _ ⟨s, c, k⟩ (.ok (G a), ⟨{ s with types }, c, k⟩)
    | .error e types => Settles _ ⟨s, c, k⟩ (.error (cause e), ⟨{ s with types }, c, k⟩)
  unfold EStateM.bind
  cases hres : m s.types with
  | ok a types =>
    rw [hres] at hs
    show Settles run ⟨s, c, k⟩ (.ok (G (g a)), ⟨{ s with types }, c, k⟩)
    rw [hG]
    exact hs
  | error e types =>
    rw [hres] at hs
    exact hs

theorem map {g : α → γ} {g' : β → δ} {G : γ → δ} (h : Follows c k run F cause m) (hG : ∀ a, G (g a) = g' (F a)) :
    Follows c k (fun n => g' <$> run n) G cause (g <$> m) :=
  h.bind fun a => pure (hG a)

theorem bind_get {next : Nat → Oracle → Run δ} {cont : TypeState → EStateM ε TypeState γ}
    (hnext : ∀ s, Follows c k (fun n => next n ⟨s, c, k⟩) G cause (cont s.types)) :
    Follows c k (fun n => Run.get >>= next n) G cause (get >>= cont) :=
  fun s => hnext s s

theorem ite {p : Prop} [Decidable p] {run' : Nat → Run β} {m' : EStateM ε TypeState α}
    (h : p → Follows c k run F cause m) (h' : ¬p → Follows c k run' F cause m') :
    Follows c k (fun n => if p then run n else run' n) F cause (if p then m else m') := by
  by_cases hp : p
  · simp only [if_pos hp]
    exact h hp
  · simp only [if_neg hp]
    exact h' hp

theorem dite {p : Prop} [Decidable p] {run' : Nat → Run β} {m : p → EStateM ε TypeState α}
    {m' : ¬p → EStateM ε TypeState α} (h : ∀ hp, Follows c k run F cause (m hp))
    (h' : ∀ hp, Follows c k run' F cause (m' hp)) :
    Follows c k (fun n => if p then run n else run' n) F cause (if hp : p then m hp else m' hp) := by
  by_cases hp : p
  · simp only [if_pos hp, dif_pos hp]
    exact h hp
  · simp only [if_neg hp, dif_neg hp]
    exact h' hp

theorem onTable {change : TableM α} : Follows c k (fun _ => Run.onTable change) id cause (onTable change) :=
  fun _ => Settles.now fun _ => rfl

theorem modifyTypes {change : TypeState → TypeState} :
    Follows c k (fun _ => Run.modifyTypes change) id cause (modify change) :=
  fun _ => Settles.now fun _ => rfl

theorem reader {m : Parse α} : Follows c k (fun _ => Run.reader m) id ParseError.cause m := by
  intro s
  cases hres : m s.types with
  | ok a types =>
    refine Settles.now fun n => ?_
    unfold Run.reader
    rw [hres]
    rfl
  | error e types =>
    refine Settles.now fun n => ?_
    unfold Run.reader
    rw [hres]

theorem lookup {m : Reading α} {position : Nat} (h : Follows c k run F id m) :
    Follows c k run F ParseError.cause (lookup position m) := by
  intro s
  have hs := h s
  unfold Annotation.lookup
  cases hres : m s.types with
  | ok a types =>
    rw [hres] at hs
    exact hs
  | error e types =>
    rw [hres] at hs
    exact hs

theorem adaptExcept {m : Parse α} (h : Follows c k run F ParseError.cause m) :
    Follows c k run F id (m.adaptExcept (·.cause)) := by
  intro s
  have hs := h s
  unfold EStateM.adaptExcept
  cases hres : m s.types with
  | ok a types =>
    rw [hres] at hs
    exact hs
  | error e types =>
    rw [hres] at hs
    exact hs

theorem fail {q : Nat} {e : TypeError} : Follows c k (fun _ => Run.throw e) F ParseError.cause (fail q e) :=
  throw rfl

end Follows

/-! ### The reader -/

/-- What was read, without the facts about it. -/
def pair {f : File} {q : Nat} {α : Type} (r : Parsed f q α) : α × Nat := (r.value, r.next)

def writtenOf (env : Env) : Written := ⟨env.file, env.params⟩

structure ScopeFollows (p : Project) (current nesting : Nat) (scope : Scope) : Prop where
  named : ∀ name args, Follows current nesting (fun n => (procedures p n).named name args) id id (scope.named name args)
  member : ∀ qualifier name,
    Follows current nesting (fun n => (procedures p n).enumMember p qualifier name) id id (scope.member qualifier name)

section

variable {p : Project} {c k : Nat} {env : Env} {position : Nat}

theorem follows_insertAs {next : Nat} (lt : position < next) (le : next ≤ env.file.size) (kind : TypeKind) :
    Follows c k (fun _ => Procedures.insertAs next kind) pair ParseError.cause
      (insertAs env.file position next lt le kind) :=
  Follows.onTable.bind fun _ => Follows.pure rfl

theorem follows_separatedRest {separator : Kind} {item : (q : Nat) → position ≤ q → Parse (Parsed env.file q TypeId)}
    {run : Nat → Nat → Run (TypeId × Nat)} {again : Nat → Nat → List TypeId → Run (List TypeId × Nat)}
    (hagain : ∀ n q items,
      again (n + 1) q items = Procedures.listRest separator (run n) (again n) (writtenOf env) q items)
    (hitem : ∀ q h, Follows c k (fun n => run n q) pair ParseError.cause (item q h)) (q : Nat) (lt : position < q)
    (le : q ≤ env.file.size) (items : List TypeId) :
    Follows c k (fun n => again n q items) pair ParseError.cause
      (separatedRest env.file separator item q lt le items) := by
  fun_induction separatedRest env.file separator item q lt le items with
  | case1 q lt le items h ih =>
    refine Follows.of_succ ?_ fun n => (hagain n q items).trans (if_pos h)
    exact (hitem (q + 1) _).bind fun r => ih r
  | case2 q lt le items h =>
    exact Follows.of_succ (Follows.pure rfl) fun n => (hagain n q items).trans (if_neg h)

theorem follows_sole (build : List TypeId → TableM TypeId) (r : Parsed env.file position (List TypeId)) :
    Follows c k (fun _ => Procedures.soleOr build (pair r)) pair ParseError.cause
      (match r.value with
        | [only] => return ⟨only, r.next, r.lt_next, r.next_le⟩
        | many => return ⟨← onTable (build many), r.next, r.lt_next, r.next_le⟩ :
        Parse (Parsed env.file position TypeId)) := by
  obtain ⟨ms, next, lt, le⟩ := r
  match ms with
  | [only] => exact Follows.pure rfl
  | [] => exact Follows.onTable.bind fun _ => Follows.pure rfl
  | a :: b :: rest => exact Follows.onTable.bind fun _ => Follows.pure rfl

section

variable {later : Later env.file position}
  (hlater : ∀ q h, Follows c k (fun n => (procedures p n).type (writtenOf env) q) pair ParseError.cause (later q h))

include hlater

theorem follows_signature (hp : position < env.file.size) (q : Nat) (hq : position ≤ q) :
    Follows c k (fun n => (procedures p n).signature (writtenOf env) q) pair ParseError.cause
      (signature env hp later q hq) := by
  unfold Procedures.signature
  simp only [writtenOf]
  cases hs : env.file.anglesFrom? q with
  | none =>
    rw [signature_of_none env hp later hq hs]
    exact Follows.fail
  | some o =>
    rw [signature_of_some env hp later hq hs]
    refine Follows.ite (fun _ => ?_) fun _ => Follows.fail
    cases env.file.closer? o with
    | none => exact Follows.fail
    | some close =>
      refine Follows.ite (fun _ => ?_) fun _ => follows_insertAs _ _ _
      exact (hlater (close.1 + 2) _).seq_pure fun _ => rfl

theorem follows_indexSignature (hp : position < env.file.size) (q : Nat) (hq : position ≤ q) :
    Follows c k (fun n => (procedures p n).indexSignature (writtenOf env) q) pair ParseError.cause
      (indexSignature env hp later q hq) := by
  refine (hlater (q + 3) _).bind fun key => ?_
  refine Follows.ite (fun _ => Follows.ite (fun _ => ?_) fun _ => Follows.fail) fun _ => Follows.fail
  exact (hlater (key.next + 2) _).bind fun value => Follows.pure rfl

theorem follows_propertyMember (hp : position < env.file.size) (q : Nat) (hq : position ≤ q) :
    Follows c k (fun n => (procedures p n).propertyMember (writtenOf env) q) pair ParseError.cause
      (propertyMember env hp later q hq) := by
  refine Follows.reader.bind fun key => ?_
  have hfinish : ∀ (type : TypeId) (next : Nat) (lt : q < next) (le : next ≤ env.file.size) (optional : Bool),
      Follows c k (fun _ => Procedures.finishProperty key.value optional (type, next)) pair ParseError.cause
        (if optional = true then do
          let undefined ← onTable (Table.insert .undefined)
          let type ← onTable (Table.union [type, undefined])
          return ⟨.property ⟨key.value, type, true⟩, next, lt, le⟩
        else return ⟨.property ⟨key.value, type, false⟩, next, lt, le⟩ : Parse (Parsed env.file q Member)) := by
    intro type next lt le optional
    refine Follows.ite (fun _ => ?_) fun _ => Follows.pure rfl
    exact Follows.onTable.bind fun undefined => Follows.onTable.bind fun union => Follows.pure rfl
  refine Follows.ite (fun _ => ?_) fun _ => Follows.ite (fun _ => ?_) fun _ => Follows.fail
  · refine (follows_signature hlater hp _ _).bind fun result => Follows.onTable.bind fun type => ?_
    exact hfinish type result.next _ _ _
  · exact (hlater _ _).bind fun type => hfinish type.value type.next _ _ _

theorem follows_member (hp : position < env.file.size) (q : Nat) (hq : position ≤ q) :
    Follows c k (fun n => (procedures p n).member (writtenOf env) q) pair ParseError.cause
      (member env hp later q hq) := by
  refine Follows.ite (fun _ => ?_) fun _ => Follows.ite (fun _ => Follows.fail) fun _ => ?_
  · exact (follows_signature hlater hp q hq).bind fun result => Follows.pure rfl
  · exact Follows.ite (fun _ => follows_indexSignature hlater hp q hq) fun _ => follows_propertyMember hlater hp q hq

theorem follows_members (hp : position < env.file.size) (close q : Nat) (hq : position ≤ q) (body : Body) :
    Follows c k (fun n => (procedures p n).members (writtenOf env) close q body) id ParseError.cause
      (members env hp later close q hq body) := by
  fun_induction members env hp later close q hq body with
  | case1 q hq body h => exact Follows.of_succ (Follows.pure rfl) fun n => if_pos h
  | case2 q hq body h hsep ih => exact Follows.of_succ ih fun n => (if_neg h).trans (if_pos hsep)
  | case3 q hq body h hsep start hs =>
    rename_i ih
    refine Follows.of_succ ?_ fun n => (if_neg h).trans (if_neg hsep)
    exact (follows_member hlater hp start _).bind fun m => ih m

theorem follows_objectBody :
    Follows c k (fun n => (procedures p n).objectBody (writtenOf env) position) pair ParseError.cause
      (objectBody env position later) := by
  unfold Procedures.objectBody
  simp only [writtenOf]
  refine Follows.dite (fun h => ?_) fun _ => Follows.fail
  cases env.file.closer? position with
  | none => exact Follows.fail
  | some close =>
    refine (follows_members hlater (File.lt_size_of_hasKind h) close.1 _ _ {}).bind fun body => ?_
    exact Follows.reader.bind fun object => Follows.pure rfl

theorem follows_tupleRest (hp : position < env.file.size) (q : Nat) (hq : position < q) (elements : List Element) :
    Follows c k (fun n => (procedures p n).tupleRest (writtenOf env) q elements) pair ParseError.cause
      (tupleRest env hp later q hq elements) := by
  fun_induction tupleRest env hp later q hq elements with
  | case1 q hq elements h => exact Follows.of_succ (Follows.pure rfl) fun n => if_pos h
  | case2 q hq elements h spread start hs label =>
    rename_i ih
    refine Follows.of_succ ?_ fun n => if_neg h
    refine (hlater (start + label.1) _).bind fun type => Follows.bind_get fun s => ?_
    refine Follows.dite (fun hc => ih type s.types hc) fun _ => ?_
    exact Follows.dite (fun _ => Follows.pure rfl) fun _ => Follows.fail

theorem follows_typeArguments (hp : position < env.file.size) (q : Nat) (hq : position < q) (args : List TypeId) :
    Follows c k (fun n => (procedures p n).typeArguments (writtenOf env) q args) pair ParseError.cause
      (typeArguments env hp later q hq args) := by
  fun_induction typeArguments env hp later q hq args with
  | case1 q hq args ih =>
    refine Follows.of_succ ?_ fun n => rfl
    refine (hlater q _).bind fun type => Follows.dite (fun hc => ih type hc) fun _ => ?_
    exact Follows.dite (fun _ => Follows.pure rfl) fun _ => Follows.fail

theorem follows_reference (hscope : ScopeFollows p c k env.scope) (hp : position < env.file.size) :
    Follows c k (fun n => (procedures p n).reference p (writtenOf env) position) pair ParseError.cause
      (reference env position hp later) := by
  unfold reference Procedures.reference
  refine Follows.ite (fun _ => Follows.dite (fun _ => Follows.ite (fun _ => Follows.fail) fun _ => ?_)
    fun _ => Follows.fail) fun _ => Follows.ite (fun _ => ?_) fun _ => ?_
  · exact (hscope.member _ _).lookup.bind fun type => Follows.pure rfl
  · refine (follows_typeArguments hlater hp _ _ []).bind fun args => ?_
    exact (hscope.named _ _).lookup.bind fun type => Follows.pure rfl
  · simp only [writtenOf]
    cases env.params.lookup (env.file.tokenText position) with
    | some type => exact Follows.pure rfl
    | none => exact (hscope.named _ _).lookup.bind fun type => Follows.pure rfl

theorem follows_parenthesized (hp : position < env.file.size) :
    Follows c k (fun n => (procedures p n).parenthesized (writtenOf env) position) pair ParseError.cause
      (parenthesized env position hp later) := by
  unfold parenthesized Procedures.parenthesized
  simp only [writtenOf]
  cases env.file.closer? position with
  | none => exact Follows.fail
  | some close =>
    refine Follows.ite (fun _ => ?_) fun _ => ?_
    · exact (hlater (close.1 + 2) _).bind fun result => Follows.onTable.bind fun type => Follows.pure rfl
    · refine (hlater (position + 1) _).bind fun inner => ?_
      exact Follows.dite (fun _ => Follows.pure rfl) fun _ => Follows.fail

omit hlater in
theorem follows_insertNumber {next : Nat} (lt : position < next) (le : next ≤ env.file.size) (i : Nat)
    (negative : Bool) :
    Follows c k (fun _ => Run.reader (numberLiteral env.file i next negative) >>= Procedures.insertAs next) pair
      ParseError.cause
      (numberLiteral env.file i next negative >>= fun kind => insertAs env.file position next lt le kind) :=
  Follows.reader.bind fun kind => follows_insertAs lt le kind

omit hlater in
theorem keyword?_readonly : keyword? "readonly" = none := by decide

theorem follows_named (hscope : ScopeFollows p c k env.scope) (hp : position < env.file.size)
    (hword : env.file.hasWord position "readonly" = false) (hident : env.file.hasKind position .ident = true) :
    Follows c k (fun n => (procedures p n).namedType p (writtenOf env) position) pair ParseError.cause
      (named env position hp later) := by
  have hreadonly : env.file.tokenText position ≠ "readonly" := by
    intro heq
    rw [File.hasWord, File.word?, if_pos hident, heq] at hword
    simp at hword
  unfold named Procedures.namedType
  simp only [writtenOf]
  cases keyword? (env.file.tokenText position) with
  | some kind => exact follows_insertAs _ _ kind
  | none =>
    simp only [hreadonly, if_false]
    exact Follows.ite (fun _ => Follows.fail) fun _ => follows_reference hlater hscope hp

theorem follows_primary (hscope : ScopeFollows p c k env.scope)
    (hword : env.file.hasWord position "readonly" = false) :
    Follows c k (fun n => (procedures p n).primary p (writtenOf env) position) pair ParseError.cause
      (primary env position later) := by
  unfold Procedures.primary
  simp only [writtenOf]
  cases hk : env.file.kind? position with
  | none =>
    rw [primary_of_none env later hk]
    exact Follows.fail
  | some kind =>
    have hp := File.lt_size_of_kind? hk
    rw [primary_of_some env later hk]
    cases kind with
    | lparen => exact follows_parenthesized hlater hp
    | lbrace => exact (follows_objectBody hlater).bind fun body => follows_insertAs _ _ _
    | lbracket => exact (follows_tupleRest hlater hp _ _ []).bind fun elements => follows_insertAs _ _ _
    | str => exact follows_insertAs _ _ _
    | template => exact Follows.ite (fun _ => Follows.fail) fun _ => follows_insertAs _ _ _
    | number => exact follows_insertNumber _ _ position false
    | minus => exact Follows.dite (fun _ => follows_insertNumber _ _ (position + 1) true) fun _ => Follows.fail
    | bigInt => exact follows_insertAs _ _ _
    | ident => exact follows_named hlater hscope hp hword (by simp [File.hasKind, hk])
    | _ => exact Follows.fail

end

/-! ### Postfix types -/

theorem follows_arraySuffix (q : Nat) (lt : position < q) (le : q ≤ env.file.size) (type : TypeId) :
    Follows c k (fun n => (procedures p n).arraySuffix (writtenOf env) q type) pair ParseError.cause
      (arraySuffix env.file position q lt le type) := by
  fun_induction arraySuffix env.file position q lt le type with
  | case1 q lt le type hopen hclose ih =>
    refine Follows.of_succ ?_ fun n => (if_pos hopen).trans (if_pos hclose)
    exact Follows.onTable.bind fun array => ih array
  | case2 q lt le type hopen hclose => exact Follows.of_succ Follows.fail fun n => (if_pos hopen).trans (if_neg hclose)
  | case3 q lt le type hopen => exact Follows.of_succ (Follows.pure rfl) fun n => if_neg hopen

/-- A type that starts at `start` with its postfix, as what is read from an earlier token on. -/
def postfixFrom {f : File} {start : Nat} (hle : position ≤ start) (reading : Parse (Parsed f start TypeId)) :
    Parse (Parsed f position TypeId) := do
  let base ← reading
  arraySuffix f position base.next (Nat.lt_of_le_of_lt hle base.lt_next) base.next_le base.value

/-- After all suffixes, no other one follows. -/
theorem no_suffix_after {f : File} {q : Nat} {lt : position < q} {le : q ≤ f.size} {type : TypeId} {s t : TypeState}
    {r : Parsed f position TypeId} (h : arraySuffix f position q lt le type s = .ok r t) :
    ¬f.hasKind r.next .lbracket = true := by
  fun_induction arraySuffix f position q lt le type generalizing s with
  | case1 q lt le type hopen hclose ih => exact ih _ h
  | case2 q lt le type hopen hclose => cases h
  | case3 q lt le type hopen =>
    cases h
    exact hopen

theorem no_suffix_after_postfixFrom {f : File} {start : Nat} {hle : position ≤ start}
    {reading : Parse (Parsed f start TypeId)} {s t : TypeState} {r : Parsed f position TypeId}
    (h : postfixFrom hle reading s = .ok r t) : ¬f.hasKind r.next .lbracket = true := by
  have h : EStateM.bind reading (fun base =>
    arraySuffix f position base.next (Nat.lt_of_le_of_lt hle base.lt_next) base.next_le base.value) s = .ok r t := h
  unfold EStateM.bind at h
  cases hbase : reading s with
  | ok base s' =>
    rw [hbase] at h
    exact no_suffix_after h
  | error e s' =>
    rw [hbase] at h
    cases h

/-- The words `readonly` in front of a type are stepped over one by one; only the last call finds suffixes. -/
theorem follows_postfixFrom (hscope : ScopeFollows p c k env.scope) {start : Nat}
    (hle : position ≤ skipReadonly env.file start) {later : Later env.file (skipReadonly env.file start)}
    (hlater : ∀ q h, Follows c k (fun n => (procedures p n).type (writtenOf env) q) pair ParseError.cause (later q h)) :
    Follows c k (fun n => (procedures p n).postfixType (writtenOf env) start) pair ParseError.cause
      (postfixFrom hle (primary env (skipReadonly env.file start) later)) := by
  fun_induction skipReadonly env.file start with
  | case1 start hword ih =>
    have hkind : env.file.kind? start = some .ident := by
      simpa [File.hasKind] using File.hasKind_of_hasWord hword
    have htext : env.file.tokenText start = "readonly" := by
      simpa [File.hasWord, File.word?, File.hasKind, hkind] using hword
    have hcall : ∀ n, (procedures p (n + 1)).postfixType (writtenOf env) start =
        (procedures p n).postfixType (writtenOf env) (start + 1) >>= fun r =>
          (procedures p n).arraySuffix (writtenOf env) r.2 r.1 := by
      intro n
      show (procedures p n).postfixBody p (writtenOf env) start = _
      simp only [Procedures.postfixBody, Procedures.primary, writtenOf, hkind, Procedures.namedType, htext,
        keyword?_readonly, if_true]
    refine Follows.of_succ ?_ hcall
    rw [← bind_pure (postfixFrom hle (primary env (skipReadonly env.file (start + 1)) later))]
    refine (ih hle hlater).bind_of fun r s t hr => ?_
    exact Follows.of_succ (Follows.pure rfl) fun n => if_neg (no_suffix_after_postfixFrom hr)
  | case2 start hword =>
    refine Follows.of_succ ?_ fun n => rfl
    refine (follows_primary hlater hscope ?_).bind fun base => follows_arraySuffix _ _ _ _
    simpa using hword

section

variable (hscope : ScopeFollows p c k env.scope)

include hscope

theorem follows_postfixType {later : Later env.file position}
    (hlater : ∀ q h, Follows c k (fun n => (procedures p n).type (writtenOf env) q) pair ParseError.cause (later q h)) :
    Follows c k (fun n => (procedures p n).postfixType (writtenOf env) position) pair ParseError.cause
      (postfixType env position later) :=
  follows_postfixFrom hscope (le_skipReadonly env.file position) fun q _ => hlater q _

/-! ### Types -/

theorem follows_intersectionType {later : Later env.file position}
    (hlater : ∀ q h, Follows c k (fun n => (procedures p n).type (writtenOf env) q) pair ParseError.cause (later q h)) :
    Follows c k (fun n => (procedures p n).intersection (writtenOf env) position) pair ParseError.cause
      (intersectionType env position later) := by
  have hitem : ∀ q h, Follows c k (fun n => (procedures p n).postfixType (writtenOf env) q) pair ParseError.cause
      (postfixType env q (later.mono h)) := fun q h => follows_postfixType hscope fun r _ => hlater r _
  unfold intersectionType separated Procedures.intersection
  rw [bind_assoc]
  refine (hitem _ _).bind fun r => ?_
  refine (follows_separatedRest (fun _ _ _ => rfl) hitem _ _ _ _).bind fun members => ?_
  exact follows_sole Table.intersection members

theorem follows_unionType {later : Later env.file position}
    (hlater : ∀ q h, Follows c k (fun n => (procedures p n).type (writtenOf env) q) pair ParseError.cause (later q h)) :
    Follows c k (fun n => (procedures p n).union (writtenOf env) position) pair ParseError.cause
      (unionType env position later) := by
  have hitem : ∀ q h, Follows c k (fun n => (procedures p n).intersection (writtenOf env) q) pair ParseError.cause
      (intersectionType env q (later.mono h)) := fun q h => follows_intersectionType hscope fun r _ => hlater r _
  unfold unionType separated Procedures.union
  rw [bind_assoc]
  refine (hitem _ _).bind fun r => ?_
  refine (follows_separatedRest (fun _ _ _ => rfl) hitem _ _ _ _).bind fun members => ?_
  exact follows_sole Table.union members

theorem follows_typeAt (q : Nat) :
    Follows c k (fun n => (procedures p n).type (writtenOf env) q) pair ParseError.cause (typeAt env q) := by
  induction hn : env.file.size - q using Nat.strongRecOn generalizing q with
  | ind n ih =>
    rw [typeAt]
    refine Follows.of_succ ?_ fun n => rfl
    refine (follows_unionType hscope fun r hr => ih (env.file.size - r) (by omega) r rfl).bind fun type => ?_
    exact Follows.ite (fun _ => Follows.fail) fun _ => Follows.pure rfl

theorem follows_heritageRest (q : Nat) (bases : List TypeId) :
    Follows c k (fun n => (procedures p n).heritageRest (writtenOf env) q bases) id ParseError.cause
      (heritageRest env q bases) := by
  fun_induction heritageRest env q bases with
  | case1 q bases ih =>
    refine Follows.of_succ ?_ fun n => rfl
    refine (follows_postfixType hscope fun r _ => follows_typeAt hscope r).bind fun base => ?_
    exact Follows.dite (fun hc => ih base hc) fun _ => Follows.pure rfl

theorem follows_heritageAt (q : Nat) :
    Follows c k (fun n => (procedures p n).heritage (writtenOf env) q) id ParseError.cause (heritageAt env q) :=
  Follows.ite (fun _ => follows_heritageRest hscope _ _) fun _ => Follows.pure rfl

theorem follows_objectAt (q : Nat) :
    Follows c k (fun n => (procedures p n).objectBody (writtenOf env) q) pair ParseError.cause (objectAt env q) :=
  follows_objectBody fun r _ => follows_typeAt hscope r

end

end

end SchemaSplice.Declaration
