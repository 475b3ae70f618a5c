import SchemaSplice.Binary64.Basic
/-!
# Reading numbers

`ofDecimal?` reads a decimal with an optional sign, point and exponent, or a name of infinity or of no number, and
rounds its exact value once. `ofToken?` reads a numeric token: separators are dropped first, and a hexadecimal
token is a signed 64-bit integer.
-/

namespace SchemaSplice.Binary64

/-! ### Digits -/

def digitsValue (ds : List Char) : Nat := ds.foldl (fun n d => 10 * n + (d.toNat - '0'.toNat)) 0

def hexValue? (c : Char) : Option Nat :=
  if c.isDigit then some (c.toNat - '0'.toNat)
  else if 'a' ≤ c && c ≤ 'f' then some (c.toNat - 'a'.toNat + 10)
  else if 'A' ≤ c && c ≤ 'F' then some (c.toNat - 'A'.toNat + 10)
  else none

def splitSign : List Char → Bool × List Char
  | '-' :: rest => (true, rest)
  | '+' :: rest => (false, rest)
  | rest => (false, rest)

/-! ### Decimals -/

/-- The number nearest to `significand * 10 ^ exponent`. Magnitudes that are surely too large or too small are decided
by their size alone. -/
def ofScaled (negative : Bool) (significand : Nat) (exponent : Int) : Binary64 :=
  if significand == 0 then ofCode negative 0
  else
    let size : Int := (Nat.toDigits 10 significand).length + exponent
    if 310 < size then infinity negative
    else if size < -330 then ofCode negative 0
    else
      ofUnits negative (significand * Nat.pow 10 exponent.toNat * unitsPerOne)
        (Nat.pow 10 (-exponent).toNat)

def exponent? : List Char → Option Int
  | [] => some 0
  | c :: rest =>
    if c == 'e' || c == 'E' then
      let (negative, ds) := splitSign rest
      if ds.isEmpty || !ds.all Char.isDigit then none
      else
        let n : Int := digitsValue ds
        some (if negative then -n else n)
    else none

/-- A decimal without its sign. -/
def unsigned? (negative : Bool) (cs : List Char) : Option Binary64 :=
  let whole := cs.takeWhile Char.isDigit
  let afterWhole := cs.dropWhile Char.isDigit
  let (fraction, rest) :=
    match afterWhole with
    | '.' :: tail => (tail.takeWhile Char.isDigit, tail.dropWhile Char.isDigit)
    | _ => ([], afterWhole)
  if whole.isEmpty && fraction.isEmpty then none
  else
    (exponent? rest).map fun e =>
      ofScaled negative (digitsValue (whole ++ fraction)) (e - fraction.length)

def ofDecimal? (text : String) : Option Binary64 :=
  let (negative, cs) := splitSign text.toList
  let name := String.ofList (cs.map Char.toLower)
  if name == "inf" || name == "infinity" then some (infinity negative)
  else if name == "nan" then some (ofCode negative nanCode)
  else unsigned? negative cs

/-! ### Tokens -/

/-- A signed hexadecimal integer of 64 bits. -/
def ofHex? (cs : List Char) : Option Binary64 :=
  let (negative, ds) := splitSign cs
  match ds.mapM hexValue? with
  | none | some [] => none
  | some values =>
    let n := values.foldl (fun n d => 16 * n + d) 0
    let limit := if negative then 0x8000000000000000 else 0x7fffffffffffffff
    if limit < n then none
    else if n == 0 then some zero
    else some (ofUnits negative (n * unitsPerOne) 1)

/-- The number that a numeric token stands for; `_` separates digits. -/
def ofToken? (token : String) : Option Binary64 :=
  match token.toList.filter (· != '_') with
  | '0' :: 'x' :: hex => ofHex? hex
  | '0' :: 'X' :: hex => ofHex? hex
  | cs => ofDecimal? (String.ofList cs)

end SchemaSplice.Binary64
