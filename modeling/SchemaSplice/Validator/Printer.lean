import SchemaSplice.Source.Token
import SchemaSplice.Text.Quoted
import SchemaSplice.Validator.Basic
/-!
# Validators as source text

A printed validator is a single line. Strings are written in their JSON form, keys that are identifiers stand bare, and
infinite numbers are written by name. The text that goes into a chain stands between two comments that mark it as
generated.
-/

namespace SchemaSplice

def joinChars (separator : List Char) : List (List Char) → List Char
  | [] => []
  | [a] => a
  | a :: b :: rest => a ++ separator ++ joinChars separator (b :: rest)

def numberChars (x : Binary64) : List Char :=
  if x.isInfinite then (if x.isNegative then "-Infinity" else "Infinity").toList
  else x.display.toList

/-- A field name: bare when it is an identifier. -/
def keyChars (key : String) : List Char :=
  if Source.isIdentifier key then key.toList else Text.quoteJsonChars key.toList

mutual

def Validator.chars : Validator → List Char
  | .call name args =>
    ['z', '.'] ++ name.toList ++ '(' :: joinChars [',', ' '] (argumentsChars args) ++ [')']
  | .method receiver name args =>
    receiver.chars ++ '.' :: name.toList ++ '(' :: joinChars [',', ' '] (argumentsChars args) ++ [')']
termination_by structural v => v

def Argument.chars : Argument → List Char
  | .validator v => v.chars
  | .list items => '[' :: joinChars [',', ' '] (argumentsChars items) ++ [']']
  | .fields [] => ['\x7b', '\x7d']
  | .fields (e :: es) =>
    ['\x7b', ' '] ++ joinChars [',', ' '] (entriesChars (e :: es)) ++ [' ', '\x7d']
  | .text s => Text.quoteJsonChars s.toList
  | .number x => numberChars x
  | .flag b => (if b then "true" else "false").toList
  | .bigInt digits => digits.toList ++ ['n']
  | .name word => word.toList
termination_by structural a => a

def argumentsChars : List Argument → List (List Char)
  | [] => []
  | a :: rest => a.chars :: argumentsChars rest
termination_by structural as => as

def entriesChars : List (String × Validator) → List (List Char)
  | [] => []
  | e :: rest => entryChars e :: entriesChars rest
termination_by structural es => es

def entryChars : String × Validator → List Char
  | (key, v) => keyChars key ++ [':', ' '] ++ v.chars
termination_by structural e => e

end

namespace Validator

def print (v : Validator) : String := String.ofList v.chars

def beginMarker : String := "/* BEGIN GENERATED CONTENT */"

def endMarker : String := "/* END GENERATED CONTENT */"

def printMarked (v : Validator) : String := s!"{beginMarker} {v.print} {endMarker}"

end Validator

end SchemaSplice
