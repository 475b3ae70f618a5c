import SchemaSplice.Source.File
import SchemaSplice.Text.Quoted
/-!
# Import statements

The import statements of a file with the local names that they bind. The word `import` after a dot, before a parenthesis
or before a dot is no statement.
-/

namespace SchemaSplice.Import

open Source

/-- An import statement. -/
structure Statement where
  /-- The module that is imported from. -/
  source : String
  bindings : List String
  /-- The last token of the statement. -/
  last : Nat
deriving DecidableEq, Repr

/-- The local name that one element of a braced list binds: the word after `as`, else its last word. -/
def localName? (f : File) (element : List Nat) : Option String :=
  let token? :=
    match element.dropWhile (!f.hasWord · "as") with
    | [] => element.getLast?
    | _ :: rest => rest.head?
  token?.bind f.word?

/-- The elements of a braced list: the runs of tokens between commas. -/
def elements (f : File) : List Nat → List (List Nat)
  | [] => [[]]
  | i :: rest =>
    if f.hasKind i .comma then [] :: elements f rest
    else
      match elements f rest with
      | element :: later => (i :: element) :: later
      | [] => [[i]]

def localNames (f : File) (tokens : List Nat) : List String :=
  (elements f tokens).filterMap (localName? f)

def Statement.binding (names : List String) (s : Statement) : Statement :=
  { s with bindings := names ++ s.bindings }

/-- Reads what follows the word `import` from token `i` on; the bindings are those found from there on. -/
def statementFrom? (f : File) (i : Nat) : Option Statement :=
  match h : f.kind? i with
  | some .str =>
    some ⟨Text.unquote (f.tokenText i), [], if f.hasKind (i + 1) .semi then i + 1 else i⟩
  | some .ident =>
    if f.hasWord i "from" && f.hasKind (i + 1) .str then statementFrom? f (i + 1)
    else (statementFrom? f (i + 1)).map (.binding [f.tokenText i])
  | some .comma => statementFrom? f (i + 1)
  | some .punct =>
    if f.tokenText i == "*" && f.hasWord (i + 1) "as" then
      match f.word? (i + 2) with
      | some name => (statementFrom? f (i + 3)).map (.binding [name])
      | none => none
    else none
  | some .lbrace =>
    match f.closer? i with
    | some ⟨c, _⟩ =>
      (statementFrom? f (c + 1)).map
        (.binding (localNames f (List.range' (i + 1) (c - (i + 1)))))
    | none => none
  | _ => none
termination_by f.size - i
decreasing_by
  all_goals have hi := File.lt_size_of_kind? h
  all_goals omega

theorem le_statementFrom?_last {f : File} {i : Nat} {s : Statement}
    (h : statementFrom? f i = some s) : i ≤ s.last := by
  fun_induction statementFrom? f i generalizing s with
  | case1 =>
    simp only [Option.some.injEq] at h
    subst h
    simp only
    split <;> omega
  | case2 _ _ _ ih => have := ih h; omega
  | case3 _ _ _ ih =>
    obtain ⟨later, hlater, rfl⟩ := Option.map_eq_some_iff.1 h
    have := ih hlater
    simp only [Statement.binding]
    omega
  | case4 _ _ ih => have := ih h; omega
  | case5 _ _ _ _ _ ih =>
    obtain ⟨later, hlater, rfl⟩ := Option.map_eq_some_iff.1 h
    have := ih hlater
    simp only [Statement.binding]
    omega
  | case6 => simp at h
  | case7 => simp at h
  | case8 _ _ _ _ _ ih =>
    obtain ⟨later, hlater, rfl⟩ := Option.map_eq_some_iff.1 h
    have := ih hlater
    simp only [Statement.binding]
    omega
  | case9 => simp at h
  | case10 => simp at h

def beginsImport (f : File) (i : Nat) : Bool :=
  f.hasWord i "import" && !f.afterDot i && !(f.hasKind (i + 1) .lparen || f.hasKind (i + 1) .dot)

/-- The token where the bindings of the statement at token `i` start: the word `type` is skipped unless it
is itself a binding. -/
def bindingsStart (f : File) (i : Nat) : Nat :=
  if f.hasWord (i + 1) "type" && !f.hasWord (i + 2) "from" && !f.hasKind (i + 2) .comma then i + 2
  else i + 1

theorem lt_bindingsStart (f : File) (i : Nat) : i < bindingsStart f i := by
  unfold bindingsStart
  split <;> omega

def statementsFrom (f : File) (i : Nat) : List Statement :=
  if i < f.size then
    if beginsImport f i then
      match h : statementFrom? f (bindingsStart f i) with
      | some s =>
        have := le_statementFrom?_last h
        have := lt_bindingsStart f i
        s :: statementsFrom f (s.last + 1)
      | none => statementsFrom f (i + 1)
    else statementsFrom f (i + 1)
  else []
termination_by f.size - i

def statements (f : File) : List Statement := statementsFrom f 0

end SchemaSplice.Import
