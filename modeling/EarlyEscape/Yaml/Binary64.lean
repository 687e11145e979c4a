/-!
# Numbers in binary floating point

A finite number of 64 bits is a whole number of units, of which one is two to the power -1074.  Its
first 53 binary digits may be anything and all that follow are zero.

## Main definitions

* `Binary64` : a number of 64 bits.
* `Binary64.equals` : whether two numbers are equal.
* `Binary64.ofRatio?` : the number nearest to a quotient.
-/

namespace EarlyEscape.Yaml

/-- A number in binary floating point.  Both zeros are one. -/
inductive Binary64 where
  /-- A finite number by its units. -/
  | finite (units : Int)
  | infinite (negative : Bool)
  /-- What is no number. -/
  | nan
deriving DecidableEq, Repr

namespace Binary64

/-- Whether two numbers are equal.  What is no number equals nothing. -/
def equals (x y : Binary64) : Bool := x != .nan && x == y

/-- The binary digits of a unit behind the point. -/
def unitDigits : Nat := 1074

/-- The binary digits that may differ from zero. -/
def precision : Nat := 53

/-- The binary digits in front of the point that a finite number may have. -/
def wholeDigits : Nat := 1024

/-- The whole number nearest to a quotient; of two that are equally near the even one. -/
def roundQuotient (num den : Nat) : Nat :=
  let q := num / den
  let r := num % den
  if den < 2 * r || (2 * r == den && q % 2 == 1) then q + 1 else q

/-- The units of the number nearest to a quotient. -/
def unitsNear (num den : Nat) : Nat :=
  let scaled := num <<< unitDigits
  let dropped := (scaled / den).log2 + 1 - precision
  roundQuotient scaled (den <<< dropped) <<< dropped

/-- The number nearest to a quotient; none if it is too large. -/
def ofRatio? (negative : Bool) (num den : Nat) : Option Binary64 :=
  let units := unitsNear num den
  if units < 1 <<< (wholeDigits + unitDigits) then
    some (.finite (if negative then -units else units))
  else none

end Binary64

end EarlyEscape.Yaml
