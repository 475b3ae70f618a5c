/-!
# Double-precision numbers

A number is its 64-bit word. The low 63 bits are its `code`: codes order magnitudes, so neighbouring codes are
neighbouring numbers. Every finite magnitude is a whole multiple of the least positive one, 2^-1074, and
`unitsOfCode` gives that multiple; with it all arithmetic here is exact arithmetic on natural numbers
followed by one rounding, `roundCode`, to the nearest code with ties to the even one.
-/

namespace SchemaSplice

structure Binary64 where
  bits : UInt64
deriving DecidableEq, Repr, Inhabited

namespace Binary64

/-! ### Fields of the word -/

def signWeight : Nat := 0x8000000000000000

def exponentWeight : Nat := 0x10000000000000

/-- Code of infinity; larger codes are not numbers. -/
def infinityCode : Nat := 2047 * exponentWeight

def ofCode (negative : Bool) (code : Nat) : Binary64 :=
  ⟨UInt64.ofNat ((if negative then signWeight else 0) + code)⟩

def code (x : Binary64) : Nat := x.bits.toNat % signWeight

def isNegative (x : Binary64) : Bool := signWeight ≤ x.bits.toNat

def isNaN (x : Binary64) : Bool := infinityCode < x.code

def isInfinite (x : Binary64) : Bool := x.code == infinityCode

def isFinite (x : Binary64) : Bool := x.code < infinityCode

def nanCode : Nat := infinityCode + exponentWeight / 2

def nan : Binary64 := ofCode false nanCode

def zero : Binary64 := ⟨0⟩

def one : Binary64 := ⟨0x3ff0000000000000⟩

def infinity (negative : Bool) : Binary64 := ofCode negative infinityCode

/-! ### Magnitudes and rounding -/

/-- How many least positive numbers make up the magnitude with a given code. -/
def unitsOfCode (code : Nat) : Nat :=
  if code < exponentWeight then code
  else (exponentWeight + code % exponentWeight) * Nat.pow 2 (code / exponentWeight - 1)

/-- The magnitude of a finite number, counted in least positive numbers. -/
def units (x : Binary64) : Nat := unitsOfCode x.code

/-- How many least positive numbers make one. -/
def unitsPerOne : Nat := Nat.pow 2 1074

/-- The code nearest to `num / den` units; halfway cases go to the even code, and what is too large to
infinity. -/
def roundCode (num den : Nat) : Nat :=
  let whole := num / den
  let shift := if whole < 2 * exponentWeight then 0 else whole.log2 - 52
  let unit := den * Nat.pow 2 shift
  let quotient := num / unit
  let twice := 2 * (num % unit)
  let rounded :=
    if unit < twice || (twice == unit && quotient % 2 == 1) then quotient + 1 else quotient
  min (shift * exponentWeight + rounded) infinityCode

/-- The number nearest to a signed ratio of units. -/
def ofUnits (negative : Bool) (num den : Nat) : Binary64 := ofCode negative (roundCode num den)

def ofNat (n : Nat) : Binary64 := ofUnits false (n * unitsPerOne) 1

/-! ### Arithmetic -/

def neg (x : Binary64) : Binary64 := ofCode (!x.isNegative) x.code

def signedUnits (x : Binary64) : Int := if x.isNegative then -(x.units : Int) else x.units

/-- The sum; two finite numbers whose exact sum is zero give positive zero unless both are negative. -/
def add (x y : Binary64) : Binary64 :=
  if x.isNaN || y.isNaN then nan
  else if x.isInfinite then
    if y.isInfinite && x.isNegative != y.isNegative then nan else x
  else if y.isInfinite then y
  else
    let sum := x.signedUnits + y.signedUnits
    let negative := if sum == 0 then x.isNegative && y.isNegative else decide (sum < 0)
    ofUnits negative sum.natAbs 1

def sub (x y : Binary64) : Binary64 := add x y.neg

def mulFinite (x y : Binary64) : Binary64 :=
  ofUnits (x.isNegative != y.isNegative) (x.units * y.units) unitsPerOne

def divFinite (x y : Binary64) : Binary64 :=
  ofUnits (x.isNegative != y.isNegative) (x.units * unitsPerOne) y.units

/-! ### Equality of values -/

/-- The word that stands for all words of the same value: the two zeros are one value, and so are all words
that are no number. -/
def canonical (x : Binary64) : Binary64 :=
  if x.isNaN then nan else if x.code == 0 then zero else x

/-- Whether two numbers have the same value. -/
def sameValue (x y : Binary64) : Bool := x.canonical == y.canonical

@[simp] theorem sameValue_self (x : Binary64) : x.sameValue x = true := by simp [sameValue]

theorem sameValue_comm (x y : Binary64) : x.sameValue y = y.sameValue x := by
  rw [Bool.eq_iff_iff]
  simp only [sameValue, beq_iff_eq]
  exact eq_comm

theorem sameValue_trans {x y z : Binary64} (hxy : x.sameValue y = true) (hyz : y.sameValue z = true) :
    x.sameValue z = true := by
  simp only [sameValue, beq_iff_eq] at hxy hyz ⊢
  exact hxy.trans hyz

end Binary64

end SchemaSplice
