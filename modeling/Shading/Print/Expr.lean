import Shading.Glsl.Error
import Shading.Syntax.Stmt

/-!
# Expressions as text

The source language and the target share their expressions.  A dialect supplies what
differs: how built-in functions, references and declarators are spelled, and which
items have no form at all.
-/

namespace Shading

/-- What the two languages write differently. -/
structure Dialect where
  builtin : BuiltinFunction → Span → Except CodegenError String
  /-- The spelling of a reference to a variable. -/
  reference : String → String
  /-- A type and a name as a declaration writes them. -/
  declarator : Ty → String → String
  /-- The error for a declaration or an optional block that the dialect does not have. -/
  refusal : Stmt → Option CodegenError

/-- A list of texts between parentheses. -/
def parenthesizedList (parts : List String) : String :=
  "(" ++ String.intercalate ", " parts ++ ")"

namespace Constant

/-- The literal, in parentheses when it starts with a minus sign. -/
def operandText (c : Constant) : String :=
  if c.isNegative then "(" ++ c.text ++ ")" else c.text

end Constant

namespace Expr

/-- Whether an operand stands in parentheses where at least the strength `min` is called
for, or more than it when `strict`.  A negative literal brings its own parentheses. -/
def needsParens (e : Expr) (min : Precedence) (strict : Bool) : Bool :=
  let negative :=
    match e with
    | .constant _ value => value.isNegative
    | _ => false
  !negative && (e.precedence < min || (strict && e.precedence == min))

/-- Two prefix operators never touch. -/
def needsParensAfterSign : Expr → Bool
  | .unary .. => true
  | e => e.needsParens .unary false

/-- Puts a text in parentheses or leaves it. -/
def wrap (parens : Bool) (text : String) : String :=
  if parens then "(" ++ text ++ ")" else text

mutual

/-- The text of an expression, or the reason that the language has none for it. -/
def text (d : Dialect) : Expr → Except CodegenError String
  | .constant _ value => return value.operandText
  | .ref _ name => return d.reference name
  | .index _ base place => do
    let b ← base.text d
    let p ← place.text d
    return wrap (base.needsParens .postfixed false) b ++ "[" ++ p ++ "]"
  | .field _ base name => do
    let b ← base.text d
    return wrap (base.needsParens .postfixed false) b ++ "." ++ name
  | .swizzle _ base selection => do
    let b ← base.text d
    return wrap (base.needsParens .postfixed false) b ++ "." ++ selection.text
  | .assign _ op target value => do
    let t ← target.text d
    let v ← value.text d
    return wrap (target.needsParens .ternary false) t ++ " " ++ op.symbol ++ " " ++ v
  | .unary _ op operand => do
    let o ← operand.text d
    return op.symbol ++ wrap operand.needsParensAfterSign o
  | .binary _ op left right => do
    let l ← left.text d
    let r ← right.text d
    return wrap (left.needsParens op.precedence false) l ++ " " ++ op.symbol ++ " " ++
      wrap (right.needsParens op.precedence true) r
  | .call _ name args => do
    let args ← textList d args
    return name ++ parenthesizedList args
  | .builtin span f args => do
    let name ← d.builtin f span
    let args ← textList d args
    return name ++ parenthesizedList args
  | .cast _ target args => do
    let args ← textList d args
    return target.text ++ parenthesizedList args
  | .ternary _ c t f => do
    let ct ← c.text d
    let tt ← t.text d
    let ft ← f.text d
    return wrap (c.needsParens .ternary true) ct ++ " ? " ++ tt ++ " : " ++
      wrap (f.needsParens .ternary false) ft

/-- The texts of expressions one after another; the first one without a text fails. -/
def textList (d : Dialect) : List Expr → Except CodegenError (List String)
  | [] => return []
  | e :: es => return (← e.text d) :: (← textList d es)

end

end Expr

end Shading
