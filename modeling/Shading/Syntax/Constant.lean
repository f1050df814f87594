import Shading.Binary32.Shortest
import Shading.Types.Basic

/-!
# Literal values

A scalar literal is also the value that an option is bound to.
-/

namespace Shading

/-- A value that an expression or an option has. -/
inductive Constant where
  | bool (b : Bool)
  | int (i : Int32)
  | uint (u : UInt32)
  | float (x : Binary32)
deriving DecidableEq, Inhabited

namespace Constant

/-- The type of the constant. -/
def primitive : Constant → Primitive
  | .bool _ => .bool
  | .int _ => .int
  | .uint _ => .uint
  | .float _ => .float

/-- The type of the constant, as a type of the language. -/
def type (c : Constant) : Ty := .prim c.primitive

/-- The truth value, if it is one. -/
def bool? : Constant → Option Bool
  | .bool b => some b
  | _ => none

/-- Whether the value counts as a negative operand: a negative integer, or a float
with its sign bit set. -/
def isNegative : Constant → Bool
  | .int i => i < 0
  | .float x => x.isNegative
  | .bool _ | .uint _ => false

/-- The literal that denotes the value. -/
def text : Constant → String
  | .bool b => if b then "true" else "false"
  | .int i => toString i.toInt
  | .uint u => toString u.toNat ++ "u"
  | .float x => x.text

/-- Equality of values: floats are compared as numbers. -/
def same : Constant → Constant → Bool
  | .bool a, .bool b => a == b
  | .int a, .int b => a == b
  | .uint a, .uint b => a == b
  | .float a, .float b => a.same b
  | _, _ => false

end Constant

end Shading
