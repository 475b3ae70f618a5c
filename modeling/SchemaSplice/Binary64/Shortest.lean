import SchemaSplice.Binary64.Basic
/-!
# The shortest decimal of a number

The reals that round to a number form an interval, ends included when the number's code is even. Among the
decimals with the fewest significant digits that lie in it, `shortest` takes the one nearest to the number; between
two equally near ones a `Tie` decides. On the grid of decimals with a given number of digits only
the number's two neighbours have to be looked at: when any grid point lies in the interval, one of them does.
-/

namespace SchemaSplice

/-- A positive decimal: `digits` is its significand read as a whole number, without trailing zeros, and `exponent` the
power of ten of its leading digit. -/
structure Decimal where
  digits : List Char
  exponent : Int
deriving DecidableEq, Repr

namespace Decimal

def digitsOf (n : Nat) : List Char := Nat.toDigits 10 n

def trimZeros (ds : List Char) : List Char := (ds.reverse.dropWhile (· == '0')).reverse

end Decimal

/-- Which of two equally near neighbours on a grid is taken. -/
inductive Tie where
  /-- The larger one. -/
  | up
  /-- The one with an even last digit. -/
  | even
deriving DecidableEq, Repr

/-- Whether the neighbour after `below` is taken when both are equally near. -/
def Tie.takesAbove (below : Nat) : Tie → Bool
  | up => true
  | even => below % 2 == 1

namespace Binary64

/-- The power of ten of the leading digit of a positive number of units. -/
def leadingExponent (units : Nat) : Int :=
  if unitsPerOne ≤ units then (Decimal.digitsOf (units / unitsPerOne)).length - 1
  else -((Decimal.digitsOf (unitsPerOne / units)).length : Int)

/-- A power of ten as a fraction of half units: the numerator, then the denominator. -/
def gridStep (exponent : Int) : Nat × Nat :=
  (Nat.pow 10 exponent.toNat * (2 * unitsPerOne), Nat.pow 10 (-exponent).toNat)

/-- The multiple of `10 ^ exponent` that reads back as the number with a given code and is nearest to it. -/
def nearestOnGrid? (tie : Tie) (code : Nat) (exponent : Int) : Option Nat :=
  let (num, den) := gridStep exponent
  let units := unitsOfCode code
  let low := units + unitsOfCode (code - 1)
  let high := units + unitsOfCode (code + 1)
  let inside (a : Nat) : Bool :=
    let point := a * num
    if code % 2 == 0 then decide (low * den ≤ point) && decide (point ≤ high * den)
    else decide (low * den < point) && decide (point < high * den)
  let target := 2 * units * den
  let below := target / num
  let above := below + 1
  match inside below, inside above with
  | true, true =>
    match compare (above * num - target) (target - below * num) with
    | .lt => some above
    | .eq => some (if tie.takesAbove below then above else below)
    | .gt => some below
  | true, false => some below
  | false, true => some above
  | false, false => none

/-- Tries grids of `count`, `count + 1`, ... digits, at most `tries` of them. -/
def shortestFrom (tie : Tie) (code : Nat) (leading : Int) : (count tries : Nat) → Decimal
  | _, 0 => ⟨[], leading⟩
  | count, tries + 1 =>
    match nearestOnGrid? tie code (leading + 1 - count) with
    | some a =>
      let ds := Decimal.digitsOf a
      ⟨Decimal.trimZeros ds, leading + (ds.length : Int) - count⟩
    | none => shortestFrom tie code leading (count + 1) tries

/-- The shortest decimal that reads back as the magnitude of a finite number; zero has no digits. Seventeen digits
always suffice. -/
def shortest (tie : Tie) (x : Binary64) : Decimal :=
  if x.code == 0 then ⟨[], 0⟩ else shortestFrom tie x.code (leadingExponent x.units) 1 17

end Binary64

end SchemaSplice
