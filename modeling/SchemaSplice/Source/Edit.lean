import SchemaSplice.Source.Span
import SchemaSplice.Text.Bytes
/-!
# Edits

An edit replaces a span of a text; an empty span inserts. Edits are given by positions of the text before any of
them is made. `applyEdits` orders them by position, keeps the given order among insertions at one place, refuses
edits that overlap, and then copies the text once from left to right.
-/

namespace SchemaSplice.Source

structure Edit where
  span : Span
  text : String
deriving DecidableEq, Repr

inductive EditError where
  /-- Two edits touch the same position. -/
  | overlap (first second : Span)
  /-- A span leaves the text or cuts a character. -/
  | outside
deriving DecidableEq, Repr

namespace Edit

/-- An insertion. -/
def insert (position : Nat) (text : String) : Edit := ⟨Span.empty position, text⟩

/-- Whether making the edit leaves a text as it is. -/
def keepsText (source : String) (e : Edit) : Bool :=
  Text.slice? source e.span.start e.span.stop == some e.text

def le (a b : Edit) : Bool :=
  a.span.start < b.span.start || (a.span.start == b.span.start && a.span.stop ≤ b.span.stop)

end Edit

def firstOverlap? : List Edit → Option (Span × Span)
  | a :: b :: rest =>
    if a.span.overlaps b.span then some (a.span, b.span) else firstOverlap? (b :: rest)
  | _ => none

/-- Copies `source` from byte `cursor` on, with the edits made. -/
def copyFrom (source : List Char) (cursor : Nat) : List Edit → Option (List Char)
  | [] => Text.sliceChars? source cursor (Text.byteCount source)
  | e :: rest => do
    let kept ← Text.sliceChars? source cursor e.span.start
    let tail ← copyFrom source e.span.stop rest
    pure (kept ++ e.text.toList ++ tail)

def applyEdits (source : String) (edits : List Edit) : Except EditError String :=
  let ordered := edits.mergeSort Edit.le
  match firstOverlap? ordered with
  | some (a, b) => .error (.overlap a b)
  | none =>
    match copyFrom source.toList 0 ordered with
    | some cs => .ok (String.ofList cs)
    | none => .error .outside

end SchemaSplice.Source
