import Shading.Syntax.Stmt

/-!
# Equality of trees

Trees are equal when their forms, names, types and spans are and their floats are
equal as numbers: a literal that is not a number differs from itself.
-/

namespace Shading

/-- Equality of declarations, with equal initializers. -/
def VariableDeclaration.same (a b : VariableDeclaration) : Bool :=
  a.name == b.name && a.type == b.type && a.isConst == b.isConst &&
    Expr.sameOption a.initializer b.initializer

/-- Equality of declarations, their defaults and their spans included. -/
def OptionDeclaration.same (a b : OptionDeclaration) : Bool :=
  a.name == b.name && a.type == b.type && Expr.sameOption a.default b.default && a.span == b.span

/-- Equality of declarations, their values and their spans included. -/
def ConstDeclaration.same (a b : ConstDeclaration) : Bool :=
  a.name == b.name && a.type == b.type && a.value.same b.value && a.span == b.span

/-- Lists are equal when they are equally long and equal place by place. -/
def sameBy {α : Type} (eq : α → α → Bool) : List α → List α → Bool
  | [], [] => true
  | a :: as, b :: bs => eq a b && sameBy eq as bs
  | _, _ => false

namespace Stmt

mutual

/-- Equality of trees, spans included; a constant that is no number differs from itself. -/
def same : Stmt → Stmt → Bool
  | .branch s arms e, .branch s' arms' e' => s == s' && sameArms arms arms' && sameOption e e'
  | .forLoop s i c t b, .forLoop s' i' c' t' b' =>
    s == s' && sameOption i i' && Expr.sameOption c c' && Expr.sameOption t t' && b.same b'
  | .whileLoop s c b, .whileLoop s' c' b' => s == s' && c.same c' && b.same b'
  | .doWhile s b c, .doWhile s' b' c' => s == s' && b.same b' && c.same c'
  | .var s d, .var s' d' => s == s' && d.same d'
  | .struct s d, .struct s' d' => s == s' && d == d'
  | .inputs s vs, .inputs s' vs' => s == s' && vs == vs'
  | .outputs s vs, .outputs s' vs' => s == s' && vs == vs'
  | .externals s vs, .externals s' vs' => s == s' && vs == vs'
  | .options s os, .options s' os' => s == s' && sameBy OptionDeclaration.same os os'
  | .consts s cs, .consts s' cs' => s == s' && sameBy ConstDeclaration.same cs cs'
  | .function s f b, .function s' f' b' => s == s' && f == f' && sameList b b'
  | .expr s e, .expr s' e' => s == s' && e.same e'
  | .leaveLoop s, .leaveLoop s' => s == s'
  | .nextRound s, .nextRound s' => s == s'
  | .ret s v, .ret s' v' => s == s' && Expr.sameOption v v'
  | .discard s, .discard s' => s == s'
  | .block s b, .block s' b' => s == s' && sameList b b'
  | .optional s c b e, .optional s' c' b' e' =>
    s == s' && c.same c' && b.same b' && sameOption e e'
  | .library s p, .library s' p' => s == s' && p == p'
  | _, _ => false
termination_by structural s => s

def sameList : List Stmt → List Stmt → Bool
  | [], [] => true
  | a :: as, b :: bs => a.same b && sameList as bs
  | _, _ => false
termination_by structural s => s

def sameArms : List (Expr × Stmt) → List (Expr × Stmt) → Bool
  | [], [] => true
  | (c, a) :: as, (c', b) :: bs => c.same c' && a.same b && sameArms as bs
  | _, _ => false
termination_by structural s => s

def sameOption : Option Stmt → Option Stmt → Bool
  | none, none => true
  | some a, some b => a.same b
  | _, _ => false
termination_by structural s => s

end

end Stmt

end Shading
