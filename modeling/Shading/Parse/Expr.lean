import Shading.Parse.Names
import Shading.Syntax.Expr

/-!
# Reading expressions

One function per level of the grammar, from the tightest to the loosest.  Inside
brackets and arguments any expression may stand, which each level is given as `inner`.
-/

namespace Shading

namespace Parse

/-- The binary operator that a token stands for. -/
def binaryOp? : Kind → Option BinaryOp
  | .symbol .pipePipe => some .or
  | .symbol .ampAmp => some .and
  | .symbol .pipe => some .bitOr
  | .symbol .caret => some .bitXor
  | .symbol .amp => some .bitAnd
  | .symbol .eqEq => some .eq
  | .symbol .notEq => some .notEq
  | .symbol .lt => some .lt
  | .symbol .ltEq => some .ltEq
  | .symbol .gt => some .gt
  | .symbol .gtEq => some .gtEq
  | .symbol .shl => some .shl
  | .symbol .shr => some .shr
  | .symbol .plus => some .add
  | .symbol .minus => some .sub
  | .symbol .star => some .mul
  | .symbol .slash => some .div
  | .symbol .percent => some .rem
  | _ => none

/-- The assignment operator that a token stands for. -/
def assignOp? : Kind → Option AssignOp
  | .symbol .eq => some .set
  | .symbol .plusEq => some .add
  | .symbol .minusEq => some .sub
  | .symbol .starEq => some .mul
  | .symbol .slashEq => some .div
  | _ => none

/-- The operator that a token stands for before its operand; a plus sign is none. -/
def unaryOp? : Kind → Option UnaryOp
  | .symbol .minus => some .neg
  | .symbol .bang => some .not
  | .symbol .tilde => some .bitNot
  | _ => none

/-- The arguments of a call, in parentheses. -/
def arguments (inner : Parse Expr) (fuel : Nat) : Parse (List Expr) := do
  expect .lparen
  if ← eat .rparen then return []
  else
    let args ← separated inner (fuel + 1)
    expect .rparen
    return args

/-- A name: a constructor if it is a type, else a call if arguments follow, else a
reference to a variable. -/
def named (names : Names) (inner : Parse Expr) (fuel : Nat) (t : Token) (name : String) :
    Parse Expr :=
  match names.type? name with
  | some base => do
    take
    let target ← arraySuffix base
    if (← kind) = .symbol .lparen then
      let args ← arguments inner fuel
      return .cast (← spanFrom t.span) target args
    else unexpected .constructorArguments
  | none => do
    take
    if (← kind) = .symbol .lparen then
      let args ← arguments inner fuel
      let span ← spanFrom t.span
      match names.registry.function? name with
      | some f => return .builtin span f args
      | none => return .call span name args
    else return .ref t.span name

/-- The largest integer that a literal stands for by itself. -/
def intMax : Nat := 2147483647

/-- The truth value that a keyword stands for. -/
def truth? : Keyword → Option Bool
  | .true => some true
  | .false => some false
  | _ => none

/-- The constant that a token stands for by itself. -/
def literal? : Kind → Option Constant
  | .int n => if n ≤ intMax then some (.int (Int32.ofNat n)) else none
  | .uint n => some (.uint n)
  | .float x => some (.float x)
  | .keyword k => (truth? k).map .bool
  | _ => none

/-- A literal, an expression in parentheses or a name. -/
def primary (names : Names) (inner : Parse Expr) (fuel : Nat) : Parse Expr := do
  let t ← look
  match literal? t.kind with
  | some c => do
    take
    return .constant t.span c
  | none =>
    match t.kind with
    | .int n => failAt t (.integerOutOfRange n)
    | .symbol .lparen => do
      take
      let e ← inner
      expect .rparen
      return e
    | .ident name => named names inner fuel t name
    | k => failAt t (.expectedExpression k)

/-- The index, field and swizzle suffixes after an expression. -/
def suffixes (inner : Parse Expr) : Nat → Expr → Parse Expr
  | 0, _ => spent
  | fuel + 1, e => do
    if ← eat .lbracket then
      let place ← inner
      expect .rbracket
      suffixes inner fuel (.index (← spanFrom e.span) e place)
    else if ← eat .dot then
      let (member, span) ← identifier
      let span := e.span.merge span
      match Swizzle.ofName? member with
      | some selection => suffixes inner fuel (.swizzle span e selection)
      | none => suffixes inner fuel (.field span e member)
    else return e

/-- Unary operators before an operand.  A plus sign leaves no trace, and a minus sign
directly before the magnitude of the smallest integer makes that integer. -/
def unary (operand : Parse Expr) : Nat → Parse Expr
  | 0 => spent
  | fuel + 1 => do
    let t ← look
    match unaryOp? t.kind with
    | some op => do
      take
      let u ← look
      if op = .neg ∧ u.kind = .int (intMax + 1) then do
        take
        return .constant (t.span.merge u.span) (.int Int32.minValue)
      else
        let e ← unary operand fuel
        return .unary (t.span.merge e.span) op e
    | none =>
      if t.kind = .symbol .plus then do
        take
        unary operand fuel
      else operand

/-- The operators after an operand that bind at least as tightly as `min`, with what they
join to it. The operand on the right of an operator is all that binds more tightly. -/
def climb (operand : Parse Expr) : Nat → Precedence → Expr → Parse Expr
  | 0, _, _ => spent
  | fuel + 1, min, left => do
    match binaryOp? (← kind) with
    | some op =>
      if op.precedence < min then return left
      else
        take
        let right ← (do climb operand fuel op.precedence.next (← operand))
        climb operand fuel min (.binary (left.span.merge right.span) op left right)
    | none => return left

/-- Binary operators that bind at least as tightly as `min`. -/
def binary (operand : Parse Expr) (fuel : Nat) (min : Precedence) : Parse Expr := do
  climb operand fuel min (← operand)

/-- A conditional; the part after the colon may be another one. -/
def ternary (condition inner : Parse Expr) : Nat → Parse Expr
  | 0 => spent
  | fuel + 1 => do
    let c ← condition
    if ← eat .question then
      let t ← inner
      expect .colon
      let f ← ternary condition inner fuel
      return .ternary (c.span.merge f.span) c t f
    else return c

/-- An assignment; the value may be another one. -/
def assignment (target : Parse Expr) : Nat → Parse Expr
  | 0 => spent
  | fuel + 1 => do
    let t ← target
    match assignOp? (← kind) with
    | some op => do
      take
      let v ← assignment target fuel
      return .assign (t.span.merge v.span) op t v
    | none => return t

/-- An expression; `fuel` bounds the nesting and the length of every chain, for both of
which the number of tokens is enough. -/
def expression (names : Names) : Nat → Parse Expr
  | 0 => spent
  | fuel + 1 =>
    let inner := expression names fuel
    let suffixed := do suffixes inner (fuel + 1) (← primary names inner fuel)
    let operand := unary suffixed (fuel + 1)
    let condition := binary operand (fuel + 1) .or
    assignment (ternary condition inner (fuel + 1)) (fuel + 1)

end Parse

end Shading
