import SchemaSplice.Text.Bytes
import SchemaSplice.Text.Visible
/-!
# Quoted text

Two written forms of a string between double quotes, and the reading of a quoted token.

* `quoteJson` escapes what JSON demands and leaves every other character alone: the form inside validators.
* `quoteVisible` also escapes every character that cannot be seen: the form inside messages.
* `unquote` strips the quotes of a token and resolves its escapes; an escaped character without a name
  of its own stands for itself.
-/

namespace SchemaSplice.Text

/-! ### Hexadecimal digits -/

/-- Digits of a number in base sixteen, without leading zeros. -/
def hexDigits (n : Nat) : List Char := Nat.toDigits 16 n

def hexDigit (n : Nat) : Char := (hexDigits n).headD '0'

/-! ### The JSON form -/

def escapeJson (c : Char) : List Char :=
  match c with
  | '"' => ['\\', '"']
  | '\\' => ['\\', '\\']
  | '\n' => ['\\', 'n']
  | '\r' => ['\\', 'r']
  | '\t' => ['\\', 't']
  | c =>
    if c.toNat == 0x08 then ['\\', 'b']
    else if c.toNat == 0x0C then ['\\', 'f']
    else if c.toNat < 0x20 then
      ['\\', 'u', '0', '0', hexDigit (c.toNat / 16), hexDigit (c.toNat % 16)]
    else [c]

def quoteJsonChars (cs : List Char) : List Char := '"' :: cs.flatMap escapeJson ++ ['"']

def quoteJson (s : String) : String := String.ofList (quoteJsonChars s.toList)

/-! ### The visible form -/

def escapeVisible (c : Char) : List Char :=
  match c with
  | '"' => ['\\', '"']
  | '\\' => ['\\', '\\']
  | '\n' => ['\\', 'n']
  | '\r' => ['\\', 'r']
  | '\t' => ['\\', 't']
  | c =>
    if c.toNat == 0 then ['\\', '0']
    else if isVisible c then [c]
    else ['\\', 'u', '\x7b'] ++ hexDigits c.toNat ++ ['\x7d']

/-- A string with every character that cannot be seen written by its code point. -/
def quoteVisible (s : String) : String :=
  String.ofList ('"' :: s.toList.flatMap escapeVisible ++ ['"'])

/-! ### Reading a quoted token -/

def unescape (c : Char) : Char :=
  match c with
  | 'n' => '\n'
  | 't' => '\t'
  | 'r' => '\r'
  | '0' => Char.ofNat 0
  | c => c

/-- Resolves escapes; a backslash at the end stands for nothing. -/
def resolveEscapes : List Char → List Char
  | [] => []
  | ['\\'] => []
  | '\\' :: c :: rest => unescape c :: resolveEscapes rest
  | c :: rest => c :: resolveEscapes rest

/-- The content of a quoted token: its first and last byte dropped, its escapes resolved. A token without
such bytes has no content. -/
def unquoteChars (cs : List Char) : List Char :=
  resolveEscapes ((sliceChars? cs 1 (byteCount cs - 1)).getD [])

def unquote (token : String) : String := String.ofList (unquoteChars token.toList)

end SchemaSplice.Text
