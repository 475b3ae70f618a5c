import SchemaSplice.Binary64.Shortest
/-!
# Numbers as text

Both layouts start from the shortest decimal. `display` never uses an exponent, writes whole numbers without a
point and takes the larger of two equally near decimals; `displayPointed` always shows a point or an exponent, uses
the exponent for very large and very small magnitudes and takes the decimal with an even last digit.
-/

namespace SchemaSplice

namespace Decimal

/-- Positional layout; zero has no digits and is written `0`. -/
def positional (d : Decimal) : List Char :=
  if d.exponent < 0 then
    ['0', '.'] ++ List.replicate (-d.exponent - 1).toNat '0' ++ d.digits
  else
    let whole := d.exponent.toNat + 1
    let front := d.digits.take whole
    let back := d.digits.drop whole
    front ++ List.replicate (whole - front.length) '0' ++ (if back.isEmpty then [] else '.' :: back)

/-- One digit, a point before the others, and the exponent with its sign. -/
def scientific (d : Decimal) : List Char :=
  let fraction := d.digits.drop 1
  d.digits.take 1 ++ (if fraction.isEmpty then [] else '.' :: fraction) ++
    ['e', if d.exponent < 0 then '-' else '+'] ++ digitsOf d.exponent.natAbs

end Decimal

namespace Binary64

def sign (x : Binary64) : List Char := if x.isNegative then ['-'] else []

/-- A number without an exponent: whole numbers have no point. -/
def display (x : Binary64) : String :=
  if x.isNaN then "NaN"
  else if x.isInfinite then if x.isNegative then "-inf" else "inf"
  else String.ofList (x.sign ++ (x.shortest .up).positional)

/-- A finite number with a point or an exponent: the exponent is used below 10^-5 and from 10^16 on. -/
def displayPointed (x : Binary64) : String :=
  let d := x.shortest .even
  let magnitude :=
    if d.exponent < -5 || 15 < d.exponent then d.scientific
    else
      let plain := d.positional
      if plain.contains '.' then plain else plain ++ ['.', '0']
  String.ofList (x.sign ++ magnitude)

end Binary64

end SchemaSplice
