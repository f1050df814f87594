import Shading.Glsl.Error

/-!
# Binary modules as words

A binary module is a sequence of 32-bit words, least significant byte first, and its
first word is a magic number.
-/

namespace Shading

namespace Spirv

/-- The word that every module starts with. -/
def magic : UInt32 := 0x07230203

/-- The word made of four bytes. -/
def word (a b c d : UInt8) : UInt32 :=
  a.toUInt32 ||| (b.toUInt32 <<< 8) ||| (c.toUInt32 <<< 16) ||| (d.toUInt32 <<< 24)

/-- Groups bytes into words; fewer than four bytes at the end make none. -/
def group : List UInt8 → List UInt32
  | a :: b :: c :: d :: rest => word a b c d :: group rest
  | _ => []

/-- A word as `0x` and eight hexadecimal digits. -/
def hex (w : UInt32) : String :=
  let digits := Nat.toDigits 16 w.toNat
  "0x" ++ String.ofList (List.replicate (8 - digits.length) '0' ++ digits)

/-- The words of a module, if its size and its first word are right. -/
def words (bytes : List UInt8) : Except CodegenError (List UInt32) :=
  if bytes.length % 4 ≠ 0 then
    .error (.assembler ("SPIR-V size " ++ toString bytes.length ++ " is not a multiple of 4"))
  else
    match group bytes with
    | [] => .error (.assembler "empty SPIR-V module")
    | first :: rest =>
      if first = magic then .ok (first :: rest)
      else .error (.assembler ("bad SPIR-V magic " ++ hex first))

end Spirv

end Shading
