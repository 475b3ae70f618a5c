import SchemaSplice.Source.File
/-!
# Expressions at token level

Where an expression ends, where a list of type arguments ends, and what the first argument of a call looks like. None of
this builds a tree: matched brackets are stepped over, and nothing inside them is looked at.
-/

namespace SchemaSplice.Source

namespace File

/-! ### Extents -/

/-- The index after the expression that starts at `i`: the first comma, semicolon or closing bracket outside all
brackets opened since. -/
def expressionEnd (f : File) (i : Nat) : Nat :=
  match h : f.kind? i with
  | none => i
  | some k =>
    if k == .comma || k == .semi || k.closes then i
    else if k.opens then
      match f.closer? i with
      | some ⟨j, _⟩ => expressionEnd f (j + 1)
      | none => expressionEnd f (i + 1)
    else expressionEnd f (i + 1)
termination_by f.size - i
decreasing_by
  all_goals have hi := lt_size_of_kind? h
  all_goals omega

theorem le_expressionEnd (f : File) (i : Nat) : i ≤ f.expressionEnd i := by
  fun_induction expressionEnd f i with
  | case1 => omega
  | case2 => omega
  | case3 i k _ _ _ c hc _ ih => omega
  | case4 i k _ _ _ _ ih => omega
  | case5 i k _ _ _ ih => omega

/-- The index after the `>` that ends a list of type arguments, from `j` inside it with `depth` lists open. Brackets
are stepped over; a semicolon or a closing brace, an unmatched opening bracket or the end of the text make it fail. -/
def anglesEnd? (f : File) (depth j : Nat) : Option Nat :=
  match h : f.kind? j with
  | none => none
  | some k =>
    if k == .lt then anglesEnd? f (depth + 1) (j + 1)
    else if k == .gt then
      if depth ≤ 1 then some (j + 1) else anglesEnd? f (depth - 1) (j + 1)
    else if k == .semi || k == .rbrace then none
    else if k.opens then
      match f.closer? j with
      | some ⟨c, _⟩ => anglesEnd? f depth (c + 1)
      | none => none
    else anglesEnd? f depth (j + 1)
termination_by f.size - j
decreasing_by
  all_goals have hj := lt_size_of_kind? h
  all_goals omega

/-- The index after an optional list of type arguments at `i`. -/
def anglesFrom? (f : File) (i : Nat) : Option Nat :=
  if f.hasKind i .lt then f.anglesEnd? 0 i else some i

theorem lt_of_anglesEnd? {f : File} {depth j q : Nat} (h : f.anglesEnd? depth j = some q) :
    j < q ∧ q ≤ f.size := by
  fun_induction anglesEnd? f depth j with
  | case1 => simp at h
  | case2 depth j k hk _ ih => have := ih h; omega
  | case3 depth j k hk _ _ _ =>
    have := lt_size_of_kind? hk
    simp only [Option.some.injEq] at h
    omega
  | case4 depth j k hk _ _ _ ih => have := ih h; omega
  | case5 => simp at h
  | case6 depth j k hk _ _ _ _ c hc _ ih => have := ih h; omega
  | case7 => simp at h
  | case8 depth j k hk _ _ _ _ ih => have := ih h; omega

theorem le_of_anglesFrom? {f : File} {i q : Nat} (h : f.anglesFrom? i = some q) : i ≤ q := by
  unfold anglesFrom? at h
  split at h
  · exact Nat.le_of_lt (lt_of_anglesEnd? h).1
  · simp only [Option.some.injEq] at h
    omega

/-- The tokens of the parentheses after an optional list of type arguments at `i`. -/
def parens? (f : File) (i : Nat) : Option { p : Nat × Nat // i ≤ p.1 ∧ p.1 < p.2 ∧ p.2 < f.size } :=
  match hs : f.anglesFrom? i with
  | none => none
  | some o =>
    if f.hasKind o .lparen then
      match f.closer? o with
      | none => none
      | some ⟨c, hc⟩ => some ⟨(o, c), le_of_anglesFrom? hs, hc⟩
    else none

end File

/-! ### Handlers -/

inductive HandlerForm where
  /-- An arrow function or a function expression; `returnsAt` is where its return type is written. -/
  | function (returnsAt : Option Nat)
  /-- A bare name. -/
  | reference (name : String)
  /-- Anything else. -/
  | other
deriving DecidableEq, Repr

/-- A classified argument with its place. -/
structure Handler where
  span : Span
  form : HandlerForm
deriving DecidableEq, Repr

namespace File

def functionForm (f : File) (i : Nat) : HandlerForm :=
  let i := if f.hasKind i .punct && f.tokenText i == "*" then i + 1 else i
  let i := if f.hasKind i .ident then i + 1 else i
  if f.hasKind i .lparen then
    match f.closer? i with
    | some ⟨c, _⟩ => .function (if f.hasKind (c + 1) .colon then some (c + 2) else none)
    | none => .other
  else .other

def parenthesizedForm (f : File) (i : Nat) : HandlerForm :=
  match f.closer? i with
  | some ⟨c, _⟩ =>
    if f.hasKind (c + 1) .fatArrow then .function none
    else if f.hasKind (c + 1) .colon then .function (some (c + 2))
    else .other
  | none => .other

def handlerForm (f : File) (start stop : Nat) : HandlerForm :=
  let i := if f.hasWord start "async" && !f.hasKind (start + 1) .fatArrow then start + 1 else start
  if f.hasWord i "function" then f.functionForm (i + 1)
  else if f.hasKind i .lparen then f.parenthesizedForm i
  else if f.hasKind i .ident && f.hasKind (i + 1) .fatArrow then .function none
  else if i == start && stop == start + 1 && f.hasKind start .ident then
    .reference (f.tokenText start)
  else .other

def tokensSpan (f : File) (start stop : Nat) : Span :=
  if start < stop then (f.span start).through (f.span (stop - 1)) else Span.empty (f.span start).start

def handler (f : File) (start stop : Nat) : Handler :=
  ⟨f.tokensSpan start stop, f.handlerForm start stop⟩

end File

end SchemaSplice.Source
