import Shading.Token.Basic

/-!
# Number literals

The longest literal at the head of a text, its kind and its value.  Magnitudes that do
not fit make a literal malformed, whatever the number of its digits.
-/

namespace Shading

namespace Number

/-- A decimal digit. -/
def isDigit (c : Char) : Bool := '0' ≤ c && c ≤ '9'

/-- A hexadecimal digit of either case. -/
def isHexDigit (c : Char) : Bool := isDigit c || ('a' ≤ c && c ≤ 'f') || ('A' ≤ c && c ≤ 'F')

/-- The value of a digit in any base up to sixteen. -/
def digitValue (c : Char) : Nat :=
  if isDigit c then c.toNat - '0'.toNat
  else if 'a' ≤ c && c ≤ 'f' then c.toNat - 'a'.toNat + 10
  else c.toNat - 'A'.toNat + 10

/-- The value of a digit string, most significant digit first. -/
def value (base : Nat) (digits : List Char) : Nat :=
  digits.foldl (fun n c => n * base + digitValue c) 0

/-- The largest magnitude of an integer literal. -/
def intLimit : Nat := 2147483648

/-- One more than the largest unsigned literal. -/
def uintBound : Nat := 4294967296

/-- A literal: its characters in number, and its token unless the value does not fit. -/
structure Literal where
  length : Nat
  kind? : Option Kind

/-- An integer literal ends in `u` or `U` when it is unsigned. -/
def integer (length magnitude : Nat) (rest : List Char) : Literal :=
  match rest with
  | 'u' :: _ | 'U' :: _ =>
    ⟨length + 1, if magnitude < uintBound then some (.uint (UInt32.ofNat magnitude)) else none⟩
  | _ => ⟨length, if magnitude ≤ intLimit then some (.int magnitude) else none⟩

/-- An exponent part: its length and its value. -/
def exponent? : List Char → Option (Nat × Int)
  | e :: rest =>
    if e = 'e' || e = 'E' then
      let (signLength, negative, rest) : Nat × Bool × List Char :=
        match rest with
        | '-' :: rest => (1, true, rest)
        | '+' :: rest => (1, false, rest)
        | rest => (0, false, rest)
      let digits := rest.takeWhile isDigit
      if digits.isEmpty then none
      else
        let n : Int := value 10 digits
        some (1 + signLength + digits.length, if negative then -n else n)
    else none
  | [] => none

/-- A float literal from its digits before and after the point; `rest` is what follows
them and starts with the exponent part and the letter, if there are any. -/
def float (length : Nat) (whole fraction rest : List Char) : Literal :=
  let (expLength, exp) := (exponent? rest).getD (0, 0)
  let letter :=
    match rest.drop expLength with
    | 'f' :: _ | 'F' :: _ => 1
    | _ => 0
  let x := Binary32.ofDecimal (value 10 (whole ++ fraction)) (exp - fraction.length)
  ⟨length + expLength + letter, if x.isFinite then some (.float x) else none⟩

/-- The longest literal at the head of a text that starts with a digit, or with a point
and a digit. -/
def literal? (cs : List Char) : Option Literal :=
  let whole := cs.takeWhile isDigit
  let rest := cs.drop whole.length
  if whole.isEmpty then
    match rest with
    | '.' :: rest =>
      let fraction := rest.takeWhile isDigit
      if fraction.isEmpty then none
      else some (float (1 + fraction.length) [] fraction (rest.drop fraction.length))
    | _ => none
  else
    let hex : List Char :=
      match cs with
      | '0' :: x :: rest => if x = 'x' || x = 'X' then rest.takeWhile isHexDigit else []
      | _ => []
    if hex.isEmpty then
      match rest with
      | '.' :: rest =>
        let fraction := rest.takeWhile isDigit
        some (float (whole.length + 1 + fraction.length) whole fraction
          (rest.drop fraction.length))
      | rest =>
        if (exponent? rest).isSome then some (float whole.length whole [] rest)
        else some (integer whole.length (value 10 whole) rest)
    else
      let length := 2 + hex.length
      some (integer length (value 16 hex) (cs.drop length))

end Number

end Shading
