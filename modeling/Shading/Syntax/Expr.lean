import Shading.Source.Span
import Shading.Syntax.Constant
import Shading.Syntax.Operator
import Shading.Syntax.Swizzle
import Shading.Types.Builtin

/-!
# Expressions

Every node carries the span of the text it was read from.
-/

namespace Shading

/-- An expression; every form carries the span of its source. -/
inductive Expr where
  | constant (span : Span) (value : Constant)
  /-- A local, parameter, global, input, output, external, constant or option. -/
  | ref (span : Span) (name : String)
  | index (span : Span) (base index : Expr)
  | field (span : Span) (base : Expr) (name : String)
  | assign (span : Span) (op : AssignOp) (target value : Expr)
  | unary (span : Span) (op : UnaryOp) (operand : Expr)
  | binary (span : Span) (op : BinaryOp) (left right : Expr)
  /-- A call of a function that the program declares. -/
  | call (span : Span) (name : String) (args : List Expr)
  | builtin (span : Span) (function : BuiltinFunction) (args : List Expr)
  /-- A conversion or a constructor. -/
  | cast (span : Span) (target : Ty) (args : List Expr)
  | swizzle (span : Span) (base : Expr) (selection : Swizzle)
  | ternary (span : Span) (condition whenTrue whenFalse : Expr)
deriving Inhabited

namespace Expr

/-- The span of the whole expression. -/
def span : Expr → Span
  | .constant s _ | .ref s _ | .index s _ _ | .field s _ _ | .assign s _ _ _
  | .unary s _ _ | .binary s _ _ _ | .call s _ _ | .builtin s _ _ | .cast s _ _
  | .swizzle s _ _ | .ternary s _ _ _ => s

/-- The name of the form of an expression. -/
def formName : Expr → String
  | .constant .. => "Constant"
  | .ref .. => "Variable"
  | .index .. => "AccessIndex"
  | .field .. => "AccessField"
  | .assign .. => "Assign"
  | .unary .. => "Unary"
  | .binary .. => "Binary"
  | .call .. => "CallFunction"
  | .builtin .. => "CallBuiltin"
  | .cast .. => "Cast"
  | .swizzle .. => "Swizzle"
  | .ternary .. => "Ternary"

/-- The binding strength of the outermost form; a negative literal starts with a sign
and binds like a unary operator. -/
def precedence : Expr → Precedence
  | .assign .. => .assign
  | .ternary .. => .ternary
  | .binary _ op _ _ => op.precedence
  | .unary .. => .unary
  | .constant _ value => if value.isNegative then .unary else .primary
  | .index .. | .field .. | .swizzle .. | .call .. | .builtin .. | .cast .. => .postfixed
  | .ref .. => .primary

mutual

/-- Equality of trees, spans included; floats are compared as numbers. -/
def same : Expr → Expr → Bool
  | .constant s v, .constant s' v' => s == s' && v.same v'
  | .ref s n, .ref s' n' => s == s' && n == n'
  | .index s b i, .index s' b' i' => s == s' && b.same b' && i.same i'
  | .field s b n, .field s' b' n' => s == s' && b.same b' && n == n'
  | .assign s op t v, .assign s' op' t' v' => s == s' && op == op' && t.same t' && v.same v'
  | .unary s op e, .unary s' op' e' => s == s' && op == op' && e.same e'
  | .binary s op l r, .binary s' op' l' r' => s == s' && op == op' && l.same l' && r.same r'
  | .call s n as, .call s' n' as' => s == s' && n == n' && sameList as as'
  | .builtin s f as, .builtin s' f' as' => s == s' && f == f' && sameList as as'
  | .cast s t as, .cast s' t' as' => s == s' && t == t' && sameList as as'
  | .swizzle s b w, .swizzle s' b' w' => s == s' && b.same b' && w == w'
  | .ternary s c t e, .ternary s' c' t' e' => s == s' && c.same c' && t.same t' && e.same e'
  | _, _ => false

def sameList : List Expr → List Expr → Bool
  | [], [] => true
  | e :: es, e' :: es' => e.same e' && sameList es es'
  | _, _ => false

end

/-- Equality of optional expressions. -/
def sameOption : Option Expr → Option Expr → Bool
  | none, none => true
  | some e, some e' => e.same e'
  | _, _ => false

end Expr

end Shading
