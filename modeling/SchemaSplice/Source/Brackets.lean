import SchemaSplice.Source.Kind
/-!
# Matching brackets

Brackets are matched with a stack of open ones. A closing bracket discards open brackets of other kinds until it finds
one of its own; when there is none, everything that was open stays unmatched. So one stray bracket
cannot spoil the rest of a file.
-/

namespace SchemaSplice.Source

structure OpenBracket where
  index : Nat
  kind : Kind
deriving DecidableEq, Repr

/-- The matched pairs among `kinds`, whose first element has index `i`, with `stack` already open. Each pair is the
index of the opening bracket and of its closing one; pairs come in the order of their closing brackets. -/
def pairsFrom (i : Nat) (stack : List OpenBracket) : List Kind → List (Nat × Nat)
  | [] => []
  | k :: ks =>
    if k.opens then pairsFrom (i + 1) (⟨i, k⟩ :: stack) ks
    else if k.closes then
      match stack.dropWhile (fun b => b.kind.closer? != some k) with
      | [] => pairsFrom (i + 1) [] ks
      | b :: rest => (b.index, i) :: pairsFrom (i + 1) rest ks
    else pairsFrom (i + 1) stack ks

/-- The matched pairs of a sequence of kinds. -/
def pairs (kinds : List Kind) : List (Nat × Nat) := pairsFrom 0 [] kinds

def enterPair (table : Array (Option Nat)) (pair : Nat × Nat) : Array (Option Nat) :=
  (table.setIfInBounds pair.1 (some pair.2)).setIfInBounds pair.2 (some pair.1)

/-- For each of `n` indices the index it is paired with. -/
def partnerTable (n : Nat) (ps : List (Nat × Nat)) : Array (Option Nat) :=
  ps.foldl enterPair (Array.replicate n none)

end SchemaSplice.Source
