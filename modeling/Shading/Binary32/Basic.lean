/-!
# Single-precision numbers

A number is its 32 bits: a sign, eight exponent bits and 23 fraction bits.
Every finite number is a whole multiple of `2 ^ -149`, so its magnitude is kept
as that multiple, its units, and exact work is done on natural numbers.
-/

namespace Shading

/-- The bits of a single-precision number. -/
structure Binary32 where
  bits : UInt32
deriving DecidableEq, Inhabited

namespace Binary32

/-- The bits of the positive infinity, above those of every finite magnitude. -/
def infinityBits : Nat := 0x7f800000

/-- The bit that holds the sign. -/
def signBit : Nat := 0x80000000

/-- The number of fractions that share an exponent, `2 ^ 23`. -/
def fractionCount : Nat := 0x800000

/-- The units of the number one, `2 ^ 149`. -/
def oneUnits : Nat := Nat.pow 2 149

/-- The bits below the sign. -/
def magnitude (x : Binary32) : Nat := x.bits.toNat % signBit

/-- Whether the sign bit is set, which also tells the two zeros apart. -/
def isNegative (x : Binary32) : Bool := signBit ≤ x.bits.toNat

/-- Neither an infinity nor a NaN. -/
def isFinite (x : Binary32) : Bool := x.magnitude < infinityBits

/-- One of the two infinities. -/
def isInfinite (x : Binary32) : Bool := x.magnitude = infinityBits

/-- Not a number, whatever its sign and payload. -/
def isNaN (x : Binary32) : Bool := infinityBits < x.magnitude

/-- The number with the given sign and magnitude bits. -/
def ofParts (negative : Bool) (magnitude : Nat) : Binary32 :=
  ⟨UInt32.ofNat (if negative then signBit + magnitude else magnitude)⟩

/-- Positive zero. -/
def zero : Binary32 := ⟨0⟩

/-- The same number with the other sign. -/
def negate (x : Binary32) : Binary32 := ofParts (!x.isNegative) x.magnitude

/-- A finite magnitude as a multiple of `2 ^ -149`: with exponent bits `e` and
fraction `f` it is `f` when `e` is zero and `(2 ^ 23 + f) * 2 ^ (e - 1)` otherwise. -/
def unitsOf (magnitude : Nat) : Nat :=
  if magnitude < fractionCount then magnitude
  else (fractionCount + magnitude % fractionCount) * Nat.pow 2 (magnitude / fractionCount - 1)

/-- How many units of the smallest positive value the magnitude is. -/
def units (x : Binary32) : Nat := unitsOf x.magnitude

/-- The multiple of `2 ^ -149` that a finite number is, with its sign. -/
def signedUnits (x : Binary32) : Int :=
  if x.isNegative then -(x.units : Int) else x.units

/-- A key in the order of the numbers; both zeros have the key zero. -/
def orderKey (x : Binary32) : Int :=
  if x.isNegative then -(x.magnitude : Int) else x.magnitude

/-- How two numbers compare; a NaN compares with nothing. -/
def compare? (x y : Binary32) : Option Ordering :=
  if x.isNaN || y.isNaN then none else some (compare x.orderKey y.orderKey)

/-- Numerical equality: the zeros are equal and a NaN differs from itself. -/
def same (x y : Binary32) : Bool := x.compare? y == some .eq

end Binary32

end Shading
