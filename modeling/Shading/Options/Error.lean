import Shading.Diagnostic
import Shading.Syntax.Expr

/-!
# Errors of choosing a permutation
-/

namespace Shading

/-- Why a condition has no constant truth value. -/
inductive ConditionFault where
  | unary (op : UnaryOp) (operand : Primitive)
  | binary (op : BinaryOp) (left right : Primitive)
  | ternaryCondition
  | notBool (type : Primitive)
  | runtime (form : String)
deriving DecidableEq

namespace ConditionFault

/-- How a message describes the fault. -/
def text : ConditionFault → String
  | .unary op operand =>
    "`" ++ op.symbol ++ "` cannot be applied to a " ++ operand.name ++ " value"
  | .binary op left right =>
    "`" ++ op.symbol ++ "` is not defined for " ++ left.name ++ " and " ++ right.name ++
      " operands"
  | .ternaryCondition => "ternary condition is not a boolean"
  | .notBool type => "condition has type " ++ type.name
  | .runtime form => form ++ " expressions are evaluated at run time"

end ConditionFault

/-- What choosing a permutation fails with. -/
inductive SpecializeError where
  | unresolvedOption (name : String) (span : Span)
  | nonConstantCondition (reason : ConditionFault) (span : Span)
  | optionTypeMismatch (name : String) (declared : Ty) (bound : Primitive) (span : Span)
deriving DecidableEq

namespace SpecializeError

/-- The place that the error points at. -/
def span : SpecializeError → Span
  | .unresolvedOption _ span | .nonConstantCondition _ span | .optionTypeMismatch _ _ _ span =>
    span

def code : SpecializeError → Code
  | .unresolvedOption .. => .unresolvedOption
  | .nonConstantCondition .. => .nonConstantCondition
  | .optionTypeMismatch .. => .optionTypeMismatch

/-- What the error says. -/
def message : SpecializeError → String
  | .unresolvedOption name _ => "option `" ++ name ++ "` is not bound"
  | .nonConstantCondition reason _ => "condition is not a constant boolean: " ++ reason.text
  | .optionTypeMismatch name declared bound _ =>
    "option `" ++ name ++ "` is declared as `" ++ declared.text ++ "` but bound to a `" ++
      bound.name ++ "` value"

/-- The diagnostic of an error, with its label and what to do about it. -/
def diagnostic (e : SpecializeError) : Diagnostic :=
  let d := (Diagnostic.error e.code).withMessage e.message
  match e with
  | .unresolvedOption name span =>
    (d.withLabel span ("`" ++ name ++ "` used here")).withNote
      "every option used by an `optional` block must be bound"
  | .nonConstantCondition _ span => d.withLabel span "evaluated at specialization time"
  | .optionTypeMismatch _ _ _ span => d.withLabel span "option declared here"

end SpecializeError

end Shading
