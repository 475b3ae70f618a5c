import SchemaSplice.Binary64.Read
import SchemaSplice.Configuration.Problem
/-!
# Reading JSON scalars

Strings, numbers and words, each read from the characters that are left and answering those left after it. Reading a
string consumes characters, and its result says so.
-/

namespace SchemaSplice.Configuration

open Text (byteCount)

/-- What was read, and the characters that are left, fewer than before. -/
abbrev Taken (cs : List Char) (α : Type) := { r : α × List Char // r.2.length < cs.length }

/-- What was read from a later point, seen from an earlier one. -/
def Taken.widen {cs ds : List Char} (h : ds.length ≤ cs.length) (r : Taken ds α) : Taken cs α :=
  ⟨r.1, Nat.lt_of_lt_of_le r.2 h⟩

def isBlank (c : Char) : Bool := c == ' ' || c == '\n' || c == '\t' || c == '\r'

def skipBlanks (cs : List Char) : List Char := cs.dropWhile isBlank

theorem length_skipBlanks_le (cs : List Char) : (skipBlanks cs).length ≤ cs.length :=
  (List.dropWhile_sublist isBlank).length_le

/-- A problem with the character that comes next: it counts as read. -/
def peeked (problem : Problem) (cs : List Char) : Stop := ⟨problem, byteCount cs - 1⟩

def here (problem : Problem) (cs : List Char) : Stop := ⟨problem, byteCount cs⟩

/-! ### Words -/

/-- The rest of a word. -/
def wordRest : (word : List Char) → List Char → Except Stop (List Char)
  | [], cs => .ok cs
  | _ :: _, [] => .error ⟨.eofInValue, 0⟩
  | w :: ws, c :: cs => if c == w then wordRest ws cs else .error (peeked .expectedIdent (c :: cs))

/-! ### Strings -/

def hexEscape (cs : List Char) : Except Stop (Taken cs Nat) :=
  match cs with
  | a :: b :: c :: d :: rest =>
    match Binary64.hexValue? a, Binary64.hexValue? b, Binary64.hexValue? c, Binary64.hexValue? d with
    | some a, some b, some c, some d =>
      .ok ⟨(((a * 16 + b) * 16 + c) * 16 + d, rest), by simp only [List.length_cons]; omega⟩
    | _, _, _, _ => .error ⟨.invalidEscape, byteCount cs - 4⟩
  | cs =>
    if byteCount cs < 4 then .error ⟨.eofInString, 0⟩ else .error ⟨.invalidEscape, byteCount cs - 4⟩

def isTrailing (n : Nat) : Bool := 0xDC00 ≤ n && n ≤ 0xDFFF

def isLeading (n : Nat) : Bool := 0xD800 ≤ n && n ≤ 0xDBFF

def pairEscape (first : Nat) (cs : List Char) : Except Stop (Taken cs Char) :=
  match cs with
  | [] => .error ⟨.eofInString, 0⟩
  | '\\' :: rest =>
    match rest with
    | [] => .error ⟨.eofInString, 0⟩
    | 'u' :: rest =>
      match hexEscape rest with
      | .error e => .error e
      | .ok ⟨(second, rest'), h⟩ =>
        if isTrailing second then
          .ok ⟨(Char.ofNat ((first - 0xD800) * 0x400 + (second - 0xDC00) + 0x10000), rest'), by
            simp only [List.length_cons] at h ⊢
            omega⟩
        else .error (here .loneSurrogate rest')
    | rest => .error (peeked .unexpectedEndOfHexEscape rest)
  | cs => .error (peeked .unexpectedEndOfHexEscape cs)

/-- A character given by its code. -/
def codeEscape (cs : List Char) : Except Stop (Taken cs Char) :=
  match hexEscape cs with
  | .error e => .error e
  | .ok ⟨(n, rest), h⟩ =>
    if isTrailing n then .error (here .loneSurrogate rest)
    else if isLeading n then
      match pairEscape n rest with
      | .error e => .error e
      | .ok r => .ok (r.widen (Nat.le_of_lt h))
    else .ok ⟨(Char.ofNat n, rest), h⟩

def escape (cs : List Char) : Except Stop (Taken cs Char) :=
  match cs with
  | [] => .error ⟨.eofInString, 0⟩
  | c :: rest =>
    let named (c : Char) : Except Stop (Taken (_ :: rest) Char) := .ok ⟨(c, rest), by simp⟩
    match c with
    | '"' => named '"'
    | '\\' => named '\\'
    | '/' => named '/'
    | 'b' => named (Char.ofNat 0x08)
    | 'f' => named (Char.ofNat 0x0C)
    | 'n' => named '\n'
    | 'r' => named '\r'
    | 't' => named '\t'
    | 'u' =>
      match codeEscape rest with
      | .error e => .error e
      | .ok r => .ok (r.widen (by simp))
    | c => .error (peeked .invalidEscape (c :: rest))

def charsRest (cs : List Char) : Except Stop (Taken cs (List Char)) :=
  match cs with
  | [] => .error ⟨.eofInString, 0⟩
  | '"' :: rest => .ok ⟨([], rest), by simp⟩
  | '\\' :: rest =>
    match escape rest with
    | .error e => .error e
    | .ok ⟨(c, after), h⟩ =>
      match charsRest after with
      | .error e => .error e
      | .ok ⟨(more, last), hl⟩ =>
        .ok ⟨(c :: more, last), by simp only [List.length_cons] at h hl ⊢; omega⟩
  | c :: rest =>
    if c.toNat < 0x20 then .error (here .controlCharacter rest)
    else
      match charsRest rest with
      | .error e => .error e
      | .ok ⟨(more, last), hl⟩ => .ok ⟨(c :: more, last), by simp only [List.length_cons] at hl ⊢; omega⟩
termination_by cs.length
decreasing_by
  all_goals simp only [List.length_cons] at *
  all_goals omega

def stringRest (cs : List Char) : Except Stop (Taken cs String) :=
  match charsRest cs with
  | .error e => .error e
  | .ok ⟨(chars, rest), h⟩ => .ok ⟨(String.ofList chars, rest), h⟩

/-! ### Numbers -/

def maxInteger : Nat := 0xffffffffffffffff

def digit (c : Char) : Nat := c.toNat - '0'.toNat

/-- Adds digits to a significand while it stays exact; answers the significand, how many digits were added, and
the characters left. -/
def exactDigits (significand count : Nat) : List Char → Nat × Nat × List Char
  | [] => (significand, count, [])
  | c :: cs =>
    if c.isDigit && significand * 10 + digit c ≤ maxInteger then
      exactDigits (significand * 10 + digit c) (count + 1) cs
    else (significand, count, c :: cs)

/-- Divides by large powers of ten until the exponent that remains is small; zero stays zero. -/
def scaleDown (x : Binary64) (exponent : Nat) : Binary64 :=
  if x.code == 0 then x
  else if exponent ≤ 308 then x.divFinite (Binary64.ofScaled false 1 exponent)
  else scaleDown (x.divFinite (Binary64.ofScaled false 1 308)) (exponent - 308)
termination_by exponent
decreasing_by omega

/-- The number with a given significand and power of ten: the significand is rounded, then multiplied or divided. -/
def floatOf (negative : Bool) (significand : Nat) (exponent : Int) (cs : List Char) :
    Except Stop (Binary64 × List Char) :=
  let x := Binary64.ofNat significand
  let signed (x : Binary64) : Binary64 := if negative then x.neg else x
  if exponent < 0 then .ok (signed (scaleDown x (-exponent).toNat), cs)
  else if 308 < exponent then
    if x.code == 0 then .ok (signed x, cs) else .error (here .numberOutOfRange cs)
  else
    let y := x.mulFinite (Binary64.ofScaled false 1 exponent)
    if y.isInfinite then .error (here .numberOutOfRange cs) else .ok (signed y, cs)

def maxExponent : Nat := 0x7fffffff

/-- The digits of an exponent; none if it is too large. -/
def exponentDigits (n : Nat) : List Char → Option Nat × List Char
  | [] => (some n, [])
  | c :: cs =>
    if c.isDigit then
      if maxExponent < n * 10 + digit c then (none, cs) else exponentDigits (n * 10 + digit c) cs
    else (some n, c :: cs)

/-- The exponent part after its letter, for a significand scaled by `exponent` already. -/
def withExponent (negative : Bool) (significand : Nat) (exponent : Int) (cs : List Char) :
    Except Stop (Binary64 × List Char) :=
  let (down, cs) :=
    match cs with
    | '+' :: rest => (false, rest)
    | '-' :: rest => (true, rest)
    | _ => (false, cs)
  match cs with
  | [] => .error ⟨.eofInValue, 0⟩
  | c :: rest =>
    if c.isDigit then
      match exponentDigits (digit c) rest with
      | (some n, rest) => floatOf negative significand (if down then exponent - n else exponent + n) rest
      | (none, rest) =>
        if significand != 0 && !down then .error (here .numberOutOfRange rest)
        else .ok (Binary64.ofCode negative 0, rest.dropWhile Char.isDigit)
    else .error (peeked .invalidNumber (c :: rest))

def afterDigits (negative : Bool) (significand : Nat) (exponent : Int) (cs : List Char) :
    Except Stop (Binary64 × List Char) :=
  match cs with
  | 'e' :: rest => withExponent negative significand exponent rest
  | 'E' :: rest => withExponent negative significand exponent rest
  | cs => floatOf negative significand exponent cs

/-- The fraction of a number after its point. Digits that no longer fit are dropped. -/
def withFraction (negative : Bool) (significand : Nat) (exponent : Int) (cs : List Char) :
    Except Stop (Binary64 × List Char) :=
  let (significand, count, rest) := exactDigits significand 0 cs
  let overflows := (rest.head?.map Char.isDigit).getD false
  if overflows then
    afterDigits negative significand (exponent - count) (rest.dropWhile Char.isDigit)
  else if count == 0 then
    match rest with
    | [] => .error ⟨.eofInValue, 0⟩
    | rest => .error (peeked .invalidNumber rest)
  else afterDigits negative significand (exponent - count) rest

/-- A number after its digits that fit, `dropped` of which did not. -/
def numberRest (negative : Bool) (significand dropped : Nat) (cs : List Char) :
    Except Stop (Found × List Char) :=
  let float (r : Except Stop (Binary64 × List Char)) : Except Stop (Found × List Char) :=
    r.map fun (x, cs) => (.float x, cs)
  match cs with
  | '.' :: rest => float (withFraction negative significand dropped rest)
  | 'e' :: rest => float (withExponent negative significand dropped rest)
  | 'E' :: rest => float (withExponent negative significand dropped rest)
  | cs =>
    if dropped != 0 then float (floatOf negative significand dropped cs)
    else if !negative then .ok (.integer significand, cs)
    else if significand == 0 || 0x8000000000000000 < significand then
      .ok (.float (Binary64.ofNat significand).neg, cs)
    else .ok (.integer (-(significand : Int)), cs)

def unsignedNumber (negative : Bool) (cs : List Char) : Except Stop (Found × List Char) :=
  match cs with
  | [] => .error ⟨.eofInValue, 0⟩
  | '0' :: rest =>
    match rest with
    | [] => numberRest negative 0 0 []
    | c :: _ => if c.isDigit then .error (peeked .invalidNumber rest) else numberRest negative 0 0 rest
  | c :: rest =>
    if c.isDigit then
      let (significand, _, rest) := exactDigits (digit c) 0 rest
      let dropped := rest.takeWhile Char.isDigit
      numberRest negative significand dropped.length (rest.drop dropped.length)
    else .error (peeked .invalidNumber (c :: rest))

def number? : List Char → Option (Except Stop (Found × List Char))
  | '-' :: rest => some (unsignedNumber true rest)
  | c :: rest => if c.isDigit then some (unsignedNumber false (c :: rest)) else none
  | [] => none

/-! ### Values of the wrong kind -/

/-- The problem with a value that should have been something else. A scalar is read to its end; a list or an object is
not entered. -/
def wrongKind (wanted : String) (cs : List Char) : Stop :=
  let after (found : Found) : Except Stop (List Char) → Stop
    | .ok rest => here (.wrongType found wanted) rest
    | .error e => e
  match number? cs with
  | some (.ok (found, rest)) => here (.wrongType found wanted) rest
  | some (.error e) => e
  | none =>
    match cs with
    | 'n' :: rest => after .null (wordRest "ull".toList rest)
    | 't' :: rest => after (.boolean true) (wordRest "rue".toList rest)
    | 'f' :: rest => after (.boolean false) (wordRest "alse".toList rest)
    | '"' :: rest =>
      match stringRest rest with
      | .ok ⟨(s, rest), _⟩ => here (.wrongType (.text s) wanted) rest
      | .error e => e
    | '[' :: _ => here (.wrongType .sequence wanted) cs
    | '\x7b' :: _ => here (.wrongType .map wanted) cs
    | _ => peeked .expectedValue cs

end SchemaSplice.Configuration
