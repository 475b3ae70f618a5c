import SchemaSplice.Binary64.Written
import SchemaSplice.Text.Bytes
import SchemaSplice.Text.Quoted
/-!
# Problems in a configuration text

What can be wrong with a configuration in JSON, and where: the place inside the value, and the position in the text. While
a text is read, a position is kept as the number of bytes that are still to come.
-/

namespace SchemaSplice.Configuration

inductive Found where
  | null
  | boolean (value : Bool)
  | integer (value : Int)
  | float (value : Binary64)
  | text (value : String)
  | sequence
  | map
deriving DecidableEq, Repr

def Found.message : Found → String
  | null => "null"
  | boolean value => s!"boolean `{value}`"
  | integer value => s!"integer `{value}`"
  | float value => s!"floating point `{value.displayPointed}`"
  | text value => s!"string {Text.quoteVisible value}"
  | sequence => "sequence"
  | map => "map"

inductive Problem where
  | eofInValue
  | eofInObject
  | eofInList
  | eofInString
  | expectedValue
  | expectedIdent
  | expectedColon
  | expectedCommaOrBrace
  | expectedCommaOrBracket
  | trailingComma
  | trailingCharacters
  | keyMustBeString
  | invalidNumber
  | numberOutOfRange
  | invalidEscape
  | unexpectedEndOfHexEscape
  | loneSurrogate
  | controlCharacter
  | wrongType (found : Found) (wanted : String)
  | wrongValue (found : Found) (wanted : String)
  | unknownField (name : String) (known : List String)
  | duplicateField (name : String)
deriving DecidableEq, Repr

def Problem.message : Problem → String
  | eofInValue => "EOF while parsing a value"
  | eofInObject => "EOF while parsing an object"
  | eofInList => "EOF while parsing a list"
  | eofInString => "EOF while parsing a string"
  | expectedValue => "expected value"
  | expectedIdent => "expected ident"
  | expectedColon => "expected `:`"
  | expectedCommaOrBrace => "expected `,` or `\x7d`"
  | expectedCommaOrBracket => "expected `,` or `]`"
  | trailingComma => "trailing comma"
  | trailingCharacters => "trailing characters"
  | keyMustBeString => "key must be a string"
  | invalidNumber => "invalid number"
  | numberOutOfRange => "number out of range"
  | invalidEscape => "invalid escape"
  | unexpectedEndOfHexEscape => "unexpected end of hex escape"
  | loneSurrogate => "lone leading surrogate in hex escape"
  | controlCharacter => "control character (\\u0000-\\u001F) found while parsing a string"
  | wrongType found wanted => s!"invalid type: {found.message}, expected {wanted}"
  | wrongValue found wanted => s!"invalid value: {found.message}, expected {wanted}"
  | unknownField name known =>
    let names := ", ".intercalate (known.map fun k => s!"`{k}`")
    s!"unknown field `{name}`, expected one of {names}"
  | duplicateField name => s!"duplicate field `{name}`"

structure Stop where
  problem : Problem
  left : Nat
deriving DecidableEq, Repr

inductive Step where
  | key (name : String)
  | index (i : Nat)
  /-- A part that has no name yet. -/
  | unknown
deriving DecidableEq, Repr

/-- A step as it is written after others. -/
def Step.message (first : Bool) : Step → String
  | key name => if first then name else "." ++ name
  | index i => s!"[{i}]"
  | unknown => if first then "?" else ".?"

/-- The way to a part of a value; the value itself is written as a dot. -/
def placeMessage : List Step → String
  | [] => "."
  | step :: rest => step.message true ++ String.join (rest.map (Step.message false))

structure Located where
  place : List Step
  stop : Stop
deriving DecidableEq, Repr

/-- Line and column of a byte of a text: lines count from one, and the column is the number of bytes of the line that
come before. -/
def lineAndColumn (text : String) (offset : Nat) : Nat × Nat :=
  let seen := Text.before offset text.toList
  let current := (seen.reverse.takeWhile (· != '\n')).reverse
  (seen.count '\n' + 1, offset - (Text.byteCount seen - Text.byteCount current))

/-- The text of a problem in a given configuration text. -/
def Located.message (text : String) (l : Located) : String :=
  let (line, column) := lineAndColumn text (Text.size text - l.stop.left)
  s!"at JSON path {placeMessage l.place} → {l.stop.problem.message} at line {line} column {column}"

end SchemaSplice.Configuration
