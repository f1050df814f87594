import Shading.Options.Error

/-!
# Constant evaluation

Conditions over constants and options.  Both operands of an operator are always
evaluated, so every option that a condition names must have a value.  Arithmetic that
leaves its range is not defined, and neither is an operator on operands of two kinds,
except that an integer beside a float counts as a float.
-/

namespace Shading

/-- Two operands of one kind. -/
inductive Operands where
  | bools (a b : Bool)
  | ints (a b : Int32)
  | uints (a b : UInt32)
  | floats (a b : Binary32)

namespace Operands

/-- Two constants of one type as operands. -/
def of? : Constant → Constant → Option Operands
  | .bool a, .bool b => some (.bools a b)
  | .int a, .int b => some (.ints a b)
  | .uint a, .uint b => some (.uints a b)
  | .float a, .float b => some (.floats a b)
  | .int a, .float b => some (.floats (Binary32.ofInt a.toInt) b)
  | .float a, .int b => some (.floats a (Binary32.ofInt b.toInt))
  | _, _ => none

end Operands

namespace Constant

/-- The signed integer of a value, if it is in range. -/
def int? (i : Int) : Option Int32 :=
  if -2147483648 ≤ i ∧ i ≤ 2147483647 then some (Int32.ofInt i) else none

/-- The unsigned integer of a value, if it is in range. -/
def uint? (i : Int) : Option UInt32 :=
  if 0 ≤ i ∧ i < 4294967296 then some (UInt32.ofNat i.toNat) else none

/-- The operators on signed integers; division goes toward zero. -/
def intOp? (op : BinaryOp) (a b : Int32) : Option Int32 :=
  let x := a.toInt
  let y := b.toInt
  match op with
  | .add => int? (x + y)
  | .sub => int? (x - y)
  | .mul => int? (x * y)
  | .div => if y = 0 then none else int? (x.tdiv y)
  | .rem => if y = 0 then none else (int? (x.tdiv y)).bind fun _ => int? (x.tmod y)
  | .bitAnd => some (a &&& b)
  | .bitOr => some (a ||| b)
  | .bitXor => some (a ^^^ b)
  | .shl => if 0 ≤ y ∧ y < 32 then some (a <<< b) else none
  | .shr => if 0 ≤ y ∧ y < 32 then some (a >>> b) else none
  | _ => none

/-- The operators on unsigned integers. -/
def uintOp? (op : BinaryOp) (a b : UInt32) : Option UInt32 :=
  let x : Int := a.toNat
  let y : Int := b.toNat
  match op with
  | .add => uint? (x + y)
  | .sub => uint? (x - y)
  | .mul => uint? (x * y)
  | .div => if y = 0 then none else uint? (x.tdiv y)
  | .rem => if y = 0 then none else uint? (x.tmod y)
  | .bitAnd => some (a &&& b)
  | .bitOr => some (a ||| b)
  | .bitXor => some (a ^^^ b)
  | .shl => if y < 32 then some (a <<< b) else none
  | .shr => if y < 32 then some (a >>> b) else none
  | _ => none

/-- The operators on floats, where their result is finite. -/
def floatOp? (op : BinaryOp) (a b : Binary32) : Option Binary32 :=
  match op with
  | .add => a.add? b
  | .sub => a.sub? b
  | .mul => a.mul? b
  | .div => a.div? b
  | _ => none

/-- The truth of a comparison, given how the operands compare if they do. -/
def comparison? (op : BinaryOp) (order : Option Ordering) : Option Bool :=
  match op with
  | .eq => some (order == some .eq)
  | .notEq => some (order != some .eq)
  | .lt => some (order == some .lt)
  | .ltEq => some (order == some .lt || order == some .eq)
  | .gt => some (order == some .gt)
  | .gtEq => some (order == some .gt || order == some .eq)
  | _ => none

/-- A comparison, or else an operator of the kind. -/
def numeric? (op : BinaryOp) (order : Option Ordering) (result : Option Constant) :
    Option Constant :=
  match comparison? op order with
  | some b => some (.bool b)
  | none => result

/-- A binary operator on two constants, where it is defined. -/
def binary? (op : BinaryOp) (l r : Constant) : Option Constant :=
  match Operands.of? l r with
  | none => none
  | some (.bools a b) =>
    match op with
    | .eq => some (.bool (a == b))
    | .notEq => some (.bool (a != b))
    | .and => some (.bool (a && b))
    | .or => some (.bool (a || b))
    | _ => none
  | some (.ints a b) =>
    numeric? op (some (compare a.toInt b.toInt)) ((intOp? op a b).map .int)
  | some (.uints a b) =>
    numeric? op (some (compare a.toNat b.toNat)) ((uintOp? op a b).map .uint)
  | some (.floats a b) => numeric? op (a.compare? b) ((floatOp? op a b).map .float)

/-- A unary operator on a constant, where it is defined. -/
def unary? (op : UnaryOp) (c : Constant) : Option Constant :=
  match op, c with
  | .not, .bool b => some (.bool !b)
  | .neg, .int i => (int? (-i.toInt)).map .int
  | .neg, .float x => some (.float x.negate)
  | .bitNot, .int i => some (.int (~~~i))
  | .bitNot, .uint u => some (.uint (~~~u))
  | _, _ => none

end Constant

namespace Expr

/-- The constant that an expression stands for; `lookup` gives the values of options. -/
def evaluate (lookup : String → Span → Except SpecializeError Constant) :
    Expr → Except SpecializeError Constant
  | .constant _ value => .ok value
  | .ref span name => lookup name span
  | .unary span op operand => do
    let value ← operand.evaluate lookup
    match Constant.unary? op value with
    | some result => return result
    | none => .error (.nonConstantCondition (.unary op value.primitive) span)
  | .binary span op left right => do
    let l ← left.evaluate lookup
    let r ← right.evaluate lookup
    match Constant.binary? op l r with
    | some result => return result
    | none => .error (.nonConstantCondition (.binary op l.primitive r.primitive) span)
  | .ternary _ c t f => do
    match ← c.evaluate lookup with
    | .bool true => t.evaluate lookup
    | .bool false => f.evaluate lookup
    | _ => .error (.nonConstantCondition .ternaryCondition c.span)
  | e@(.index ..) | e@(.field ..) | e@(.assign ..) | e@(.call ..) | e@(.builtin ..)
  | e@(.cast ..) | e@(.swizzle ..) => .error (.nonConstantCondition (.runtime e.formName) e.span)

/-- The truth of a condition, which must be boolean. -/
def evaluateCondition (lookup : String → Span → Except SpecializeError Constant) (e : Expr) :
    Except SpecializeError Bool := do
  match ← e.evaluate lookup with
  | .bool b => return b
  | value => .error (.nonConstantCondition (.notBool value.primitive) e.span)

end Expr

end Shading
