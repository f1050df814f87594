import Shading.Binary32.Rounding

/-!
# Shortest decimal text

A number is written with the fewest digits that read back to the same bits.  Each
grid of `n` significant digits offers the two neighbours of the number; the first
grid on which one of them reads back wins, and of two the nearer one, the upper one
on a tie.  The layout is positional from `10 ^ -4` up to but excluding `10 ^ 16`.
-/

namespace Shading

/-- A decimal `digits * 10 ^ exponent`. -/
structure Decimal where
  digits : Nat
  exponent : Int
deriving DecidableEq

namespace Decimal

/-- The decimal digits of a natural number, most significant first. -/
def digitsOf (n : Nat) : List Char := Nat.toDigits 10 n

/-- Drops the zeros at the end of the digits; `fuel` bounds their number. -/
def strip : Nat → Decimal → Decimal
  | 0, d => d
  | fuel + 1, d =>
    if d.digits ≠ 0 ∧ d.digits % 10 = 0 then strip fuel ⟨d.digits / 10, d.exponent + 1⟩ else d

end Decimal

namespace Binary32

/-- The numerator and denominator of a finite magnitude. -/
def ratio (x : Binary32) : Nat × Nat := (x.units, oneUnits)

/-- The exponent of the leading decimal digit of `num / den`: the largest `e` with
`10 ^ e ≤ num / den`, searched upward from `low` for at most `fuel` steps. -/
def leadingExponent (num den : Nat) : Nat → Int → Int
  | 0, low => low
  | fuel + 1, low =>
    let next := low + 1
    let reached := if 0 ≤ next then decide (den * Nat.pow 10 next.toNat ≤ num)
      else decide (den ≤ num * Nat.pow 10 (-next).toNat)
    if reached then leadingExponent num den fuel next else low

/-- The decimal of exponent `exponent` nearest to a positive finite number among its
two neighbours that read back. -/
def nearestOnGrid? (x : Binary32) (exponent : Int) : Option Decimal :=
  let (num, den) := x.ratio
  let scaledNum := if 0 ≤ exponent then num else num * Nat.pow 10 (-exponent).toNat
  let scaledDen := if 0 ≤ exponent then den * Nat.pow 10 exponent.toNat else den
  let below := scaledNum / scaledDen
  let readsBack (n : Nat) : Bool := n != 0 && (ofDecimal n exponent).magnitude == x.magnitude
  match readsBack below, readsBack (below + 1) with
  | true, true =>
    if 2 * (scaledNum % scaledDen) < scaledDen then some ⟨below, exponent⟩
    else some ⟨below + 1, exponent⟩
  | true, false => some ⟨below, exponent⟩
  | false, true => some ⟨below + 1, exponent⟩
  | false, false => none

/-- Every finite number is a decimal: `2 ^ -149` is `5 ^ 149 * 10 ^ -149`. -/
def exactDecimal (x : Binary32) : Decimal := ⟨x.units * Nat.pow 5 149, -149⟩

/-- Tries grids of finer and finer exponent; the exact decimal ends the search. -/
def searchGrid (x : Binary32) : Nat → Int → Decimal
  | 0, _ => x.exactDecimal
  | fuel + 1, exponent =>
    match x.nearestOnGrid? exponent with
    | some d => d
    | none => searchGrid x fuel (exponent - 1)

/-- The shortest decimal that reads back to the magnitude of a nonzero finite number. -/
def shortest (x : Binary32) : Decimal :=
  let (num, den) := x.ratio
  (searchGrid x 9 (leadingExponent num den 100 (-50))).strip 200

/-- A nonzero decimal whose leading digit stands for `10 ^ lead`, laid out in text. -/
def layout (digits : List Char) (lead : Int) : List Char :=
  if lead < -4 ∨ 16 ≤ lead then
    let fraction := digits.drop 1
    digits.take 1 ++ (if fraction.isEmpty then [] else '.' :: fraction) ++
      'e' :: (toString lead).toList
  else if lead < 0 then
    '0' :: '.' :: List.replicate (-lead - 1).toNat '0' ++ digits
  else
    let whole := lead.toNat + 1
    let fraction := digits.drop whole
    digits.take whole ++ List.replicate (whole - digits.length) '0' ++
      '.' :: (if fraction.isEmpty then ['0'] else fraction)

/-- The text of a magnitude: always with a point or an exponent. -/
def magnitudeChars (x : Binary32) : List Char :=
  if x.isNaN then ['N', 'a', 'N']
  else if x.isInfinite then ['i', 'n', 'f']
  else if x.magnitude = 0 then ['0', '.', '0']
  else
    let d := x.shortest
    let digits := Decimal.digitsOf d.digits
    layout digits (d.exponent + digits.length - 1)

/-- The text of a number: a NaN shows no sign. -/
def text (x : Binary32) : String :=
  String.ofList (if x.isNegative && !x.isNaN then '-' :: x.magnitudeChars else x.magnitudeChars)

end Binary32

end Shading
