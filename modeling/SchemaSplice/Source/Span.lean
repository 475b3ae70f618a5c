/-!
# Spans

A span is a range of byte positions, its end excluded.
-/

namespace SchemaSplice.Source

structure Span where
  start : Nat
  stop : Nat
deriving DecidableEq, Repr, Inhabited

namespace Span

def empty (position : Nat) : Span := ⟨position, position⟩

def through (a b : Span) : Span := ⟨a.start, b.stop⟩

def isEmpty (a : Span) : Bool := a.start == a.stop

/-- Whether two spans share a position. -/
def overlaps (a b : Span) : Bool := a.start < b.stop && b.start < a.stop

theorem overlaps_comm (a b : Span) : a.overlaps b = b.overlaps a := by
  simp [overlaps, Bool.and_comm]

end Span

end SchemaSplice.Source
