import SchemaSplice.Source.Brackets
import SchemaSplice.Source.Span
import SchemaSplice.Source.Token
/-!
# Source files

A file is its text together with what was read off it: the significant tokens, for each of them the comments that stand
directly before it, and the partner of each bracket. Everything downstream works on token indices; an index past
the last token reads as the end of the text.
-/

namespace SchemaSplice.Source

/-- Puts each significant token together with the comments between it and the one before; `pending` holds the
comments seen since. Comments after the last significant token belong to none. -/
def attachComments (pending : List Token) : List Token → List (List Token × Token)
  | [] => []
  | t :: ts =>
    if t.kind.isComment then attachComments (pending ++ [t]) ts
    else (pending, t) :: attachComments [] ts

structure File where
  path : String
  text : String
  /-- Significant tokens. -/
  tokens : Array Token
  /-- Comments before each significant token. -/
  leading : Array (List Token)
  /-- Partner of each significant token that is a matched bracket. -/
  partners : Array (Option Nat)
deriving Inhabited

namespace File

/-- Reads a text. -/
def parse (path text : String) : File :=
  let attached := attachComments [] (scan text)
  let tokens := (attached.map Prod.snd).toArray
  { path, text, tokens
    leading := (attached.map Prod.fst).toArray
    partners := partnerTable tokens.size (pairs (tokens.toList.map Token.kind)) }

/-! ### Tokens by index -/

def size (f : File) : Nat := f.tokens.size

def kind? (f : File) (i : Nat) : Option Kind := f.tokens[i]?.map Token.kind

def hasKind (f : File) (i : Nat) (k : Kind) : Bool := f.kind? i == some k

/-- The token after an optional token of a given kind at `i`. -/
def skip (f : File) (i : Nat) (k : Kind) : Nat := if f.hasKind i k then i + 1 else i

theorem le_skip (f : File) (i : Nat) (k : Kind) : i ≤ f.skip i k := by
  unfold skip
  split <;> omega

def eof (f : File) : Span := Span.empty (Text.size f.text)

def span (f : File) (i : Nat) : Span :=
  match f.tokens[i]? with
  | some t => ⟨t.start, t.stop⟩
  | none => f.eof

/-- The text of a token; empty past the end. -/
def tokenText (f : File) (i : Nat) : String :=
  match f.tokens[i]? with
  | some t => t.text
  | none => ""

def word? (f : File) (i : Nat) : Option String :=
  if f.hasKind i .ident then some (f.tokenText i) else none

def hasWord (f : File) (i : Nat) (word : String) : Bool := f.word? i == some word

/-- The comments directly before a token. -/
def comments (f : File) (i : Nat) : List Token := f.leading[i]?.getD []

def lineAt (f : File) (i : Nat) : Nat := Text.lineOf f.text (f.span i).start

/-- Whether the token before `i` reaches into an object, so that a word at `i` is a member name. -/
def afterDot (f : File) (i : Nat) : Bool :=
  match i with
  | 0 => false
  | j + 1 => f.hasKind j .dot || f.hasKind j .questionDot

/-! ### Brackets -/

def partner? (f : File) (i : Nat) : Option Nat := (f.partners[i]?).join

/-- The bracket that closes the one opened at `i`. The order holds of every matched pair; testing it here hands the
fact to whoever steps over the brackets. -/
def closer? (f : File) (i : Nat) : Option { j : Nat // i < j ∧ j < f.size } :=
  match f.partner? i with
  | some j => if h : i < j ∧ j < f.size then some ⟨j, h⟩ else none
  | none => none

theorem lt_size_of_kind? {f : File} {i : Nat} {k : Kind} (h : f.kind? i = some k) : i < f.size := by
  simp only [kind?, Option.map_eq_some_iff] at h
  obtain ⟨t, ht, _⟩ := h
  exact (Array.getElem?_eq_some_iff.1 ht).1

theorem lt_size_of_hasKind {f : File} {i : Nat} {k : Kind} (h : f.hasKind i k = true) : i < f.size :=
  lt_size_of_kind? (by simpa [hasKind] using h)

theorem hasKind_of_hasWord {f : File} {i : Nat} {w : String} (h : f.hasWord i w = true) :
    f.hasKind i .ident = true := by
  simp only [hasWord, word?, beq_iff_eq] at h
  split at h
  · assumption
  · simp at h

theorem lt_size_of_hasWord {f : File} {i : Nat} {w : String} (h : f.hasWord i w = true) : i < f.size :=
  lt_size_of_hasKind (hasKind_of_hasWord h)

end File

end SchemaSplice.Source
