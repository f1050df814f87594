import Shading.Binary32.Basic

/-!
# Rounding to single precision

A positive rational is rounded once, to the nearest number, a tie going to the
even coefficient.  Decimal notation, conversion from integers and the four
operations are all exact rationals that are rounded this way.
-/

namespace Shading

namespace Binary32

/-- The natural number nearest to `num / den`; a tie goes to the even one. -/
def roundHalfEven (num den : Nat) : Nat :=
  let q := num / den
  let r := num % den
  if 2 * r < den then q
  else if den < 2 * r then q + 1
  else q + q % 2

/-- The magnitude bits nearest to `num / den` units.  A coefficient has at most 24
bits, so `shift` binary places are rounded away; adding the shift in the exponent
bits to the coefficient also carries when the coefficient rounds up to `2 ^ 24`. -/
def roundUnits (num den : Nat) : Nat :=
  let shift := Nat.log2 (num / den) - 23
  min (shift * fractionCount + roundHalfEven num (den * Nat.pow 2 shift)) infinityBits

/-- The number nearest to `num / den` with the given sign. -/
def ofRatio (negative : Bool) (num den : Nat) : Binary32 :=
  ofParts negative (roundUnits (num * oneUnits) den)

/-- The magnitude nearest to `coefficient * 10 ^ exponent`.  Exponents that decide the
answer alone (infinity from `10 ^ 41` on, zero below `10 ^ -60`) are settled first, so
no power larger than the text calls for is ever computed. -/
def ofDecimal (coefficient : Nat) (exponent : Int) : Binary32 :=
  if coefficient = 0 then zero
  else if 40 < exponent then ofParts false infinityBits
  else if (Nat.log2 coefficient : Int) + 1 + exponent < -60 then zero
  else if 0 ≤ exponent then ofRatio false (coefficient * Nat.pow 10 exponent.toNat) 1
  else ofRatio false coefficient (Nat.pow 10 (-exponent).toNat)

/-- The number nearest to an integer. -/
def ofInt (i : Int) : Binary32 := ofRatio (i < 0) i.natAbs 1

/-- A result counts only when it is finite. -/
def finite? (x : Binary32) : Option Binary32 := if x.isFinite then some x else none

/-- The rounded sum; two zeros of one sign keep it, every other exact zero is positive. -/
def add? (x y : Binary32) : Option Binary32 :=
  if x.isFinite && y.isFinite then
    let sum := x.signedUnits + y.signedUnits
    let negative := if sum = 0 then x.isNegative && y.isNegative else decide (sum < 0)
    finite? (ofParts negative (roundUnits sum.natAbs 1))
  else none

/-- The rounded difference. -/
def sub? (x y : Binary32) : Option Binary32 := x.add? y.negate

/-- The rounded product. -/
def mul? (x y : Binary32) : Option Binary32 :=
  if x.isFinite && y.isFinite then
    finite? (ofParts (x.isNegative != y.isNegative) (roundUnits (x.units * y.units) oneUnits))
  else none

/-- The rounded quotient; a finite number divided by an infinity is a zero. -/
def div? (x y : Binary32) : Option Binary32 :=
  let negative := x.isNegative != y.isNegative
  if x.isFinite && y.isInfinite then some (ofParts negative 0)
  else if x.isFinite && y.isFinite && y.units != 0 then
    finite? (ofParts negative (roundUnits (x.units * oneUnits) y.units))
  else none

end Binary32

end Shading
