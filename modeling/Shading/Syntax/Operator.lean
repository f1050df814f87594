/-!
# Operators and how tightly they bind
-/

namespace Shading

/-- The binding strength of an expression form, weakest first. -/
inductive Precedence where
  | assign | ternary | or | and | bitOr | bitXor | bitAnd | equality | relational
  | shift | additive | multiplicative | unary | postfixed | primary
deriving DecidableEq, Inhabited

namespace Precedence

/-- The place of a level, counted from the weakest. -/
def rank : Precedence → Nat
  | .assign => 0
  | .ternary => 1
  | .or => 2
  | .and => 3
  | .bitOr => 4
  | .bitXor => 5
  | .bitAnd => 6
  | .equality => 7
  | .relational => 8
  | .shift => 9
  | .additive => 10
  | .multiplicative => 11
  | .unary => 12
  | .postfixed => 13
  | .primary => 14

instance : LE Precedence := ⟨fun a b => a.rank ≤ b.rank⟩

instance : LT Precedence := ⟨fun a b => a.rank < b.rank⟩

instance (a b : Precedence) : Decidable (a ≤ b) := inferInstanceAs (Decidable (a.rank ≤ b.rank))

instance (a b : Precedence) : Decidable (a < b) := inferInstanceAs (Decidable (a.rank < b.rank))

/-- The next tighter level; the tightest is its own successor. -/
def next : Precedence → Precedence
  | .assign => .ternary
  | .ternary => .or
  | .or => .and
  | .and => .bitOr
  | .bitOr => .bitXor
  | .bitXor => .bitAnd
  | .bitAnd => .equality
  | .equality => .relational
  | .relational => .shift
  | .shift => .additive
  | .additive => .multiplicative
  | .multiplicative => .unary
  | .unary => .postfixed
  | .postfixed | .primary => .primary

theorem rank_next (p : Precedence) : p.next.rank = Nat.min (p.rank + 1) 14 := by
  cases p <;> rfl

end Precedence

/-- An operator before its operand. -/
inductive UnaryOp where
  | neg | not | bitNot
deriving DecidableEq, Inhabited

namespace UnaryOp

def all : List UnaryOp := [.neg, .not, .bitNot]

/-- How the operator is written. -/
def symbol : UnaryOp → String
  | .neg => "-"
  | .not => "!"
  | .bitNot => "~"

/-- The unary operator that is written so. -/
def ofSymbol? (s : String) : Option UnaryOp := all.find? fun op => op.symbol = s

end UnaryOp

/-- A binary operator; all of them associate to the left. -/
inductive BinaryOp where
  | add | sub | mul | div | rem | eq | notEq | lt | ltEq | gt | gtEq
  | and | or | bitAnd | bitOr | bitXor | shl | shr
deriving DecidableEq, Inhabited

namespace BinaryOp

def all : List BinaryOp :=
  [.add, .sub, .mul, .div, .rem, .eq, .notEq, .lt, .ltEq, .gt, .gtEq,
    .and, .or, .bitAnd, .bitOr, .bitXor, .shl, .shr]

/-- How the operator is written. -/
def symbol : BinaryOp → String
  | .add => "+"
  | .sub => "-"
  | .mul => "*"
  | .div => "/"
  | .rem => "%"
  | .eq => "=="
  | .notEq => "!="
  | .lt => "<"
  | .ltEq => "<="
  | .gt => ">"
  | .gtEq => ">="
  | .and => "&&"
  | .or => "||"
  | .bitAnd => "&"
  | .bitOr => "|"
  | .bitXor => "^"
  | .shl => "<<"
  | .shr => ">>"

/-- The binary operator that is written so. -/
def ofSymbol? (s : String) : Option BinaryOp := all.find? fun op => op.symbol = s

/-- The level of the grammar that the operator belongs to. -/
def precedence : BinaryOp → Precedence
  | .or => .or
  | .and => .and
  | .bitOr => .bitOr
  | .bitXor => .bitXor
  | .bitAnd => .bitAnd
  | .eq | .notEq => .equality
  | .lt | .ltEq | .gt | .gtEq => .relational
  | .shl | .shr => .shift
  | .add | .sub => .additive
  | .mul | .div | .rem => .multiplicative

end BinaryOp

/-- An assignment operator; it associates to the right and binds weakest. -/
inductive AssignOp where
  | set | add | sub | mul | div
deriving DecidableEq, Inhabited

namespace AssignOp

def all : List AssignOp := [.set, .add, .sub, .mul, .div]

/-- How the operator is written. -/
def symbol : AssignOp → String
  | .set => "="
  | .add => "+="
  | .sub => "-="
  | .mul => "*="
  | .div => "/="

/-- The assignment operator that is written so. -/
def ofSymbol? (s : String) : Option AssignOp := all.find? fun op => op.symbol = s

end AssignOp

end Shading
