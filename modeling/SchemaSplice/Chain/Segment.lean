import SchemaSplice.Source.Expression
/-!
# Call chains

A chain is a root word followed by calls `.name(args)`, each with optional type arguments. It ends at the first token
that does not continue it.
-/

namespace SchemaSplice.Chain

open Source

/-- One call of a chain, by the indices of its dot and of its parentheses. -/
structure Segment where
  name : String
  dot : Nat
  lparen : Nat
  rparen : Nat
deriving DecidableEq, Repr

def Segment.argumentsSpan (s : Segment) (f : File) : Span := ⟨(f.span s.lparen).stop, (f.span s.rparen).start⟩

def segmentsFrom (f : File) (i : Nat) : List Segment :=
  if f.hasKind i .dot || f.hasKind i .questionDot then
    match f.word? (i + 1), f.parens? (i + 2) with
    | some name, some ⟨(lparen, rparen), _⟩ =>
      ⟨name, i, lparen, rparen⟩ :: segmentsFrom f (rparen + 1)
    | _, _ => []
  else []
termination_by f.size - i

def lastNamed? (segments : List Segment) (name : String) : Option Segment :=
  segments.reverse.find? (·.name == name)

end SchemaSplice.Chain
