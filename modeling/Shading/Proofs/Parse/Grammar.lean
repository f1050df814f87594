import Shading.Parse.Expr
import Shading.Proofs.Syntax.Erased

/-!
# The grammar of expressions

One level for each precedence, the left operand of a binary operator at the operator's own
level and the right one a level tighter. A derivation gives the tree without its places.
-/

namespace Shading

namespace Parse

/-- A literal is not the end of the file. -/
theorem ne_eof_of_literal? {k : Kind} {c : Constant} (h : literal? k = some c) : k ≠ .eof := by
  rintro rfl
  cases h

theorem ne_eof_of_binaryOp? {k : Kind} {op : BinaryOp} (h : binaryOp? k = some op) :
    k ≠ .eof := by
  rintro rfl
  cases h

theorem ne_eof_of_assignOp? {k : Kind} {op : AssignOp} (h : assignOp? k = some op) :
    k ≠ .eof := by
  rintro rfl
  cases h

theorem ne_eof_of_unaryOp? {k : Kind} {op : UnaryOp} (h : unaryOp? k = some op) : k ≠ .eof := by
  rintro rfl
  cases h

/-- The array brackets after a type name, the outermost dimension first. -/
inductive Brackets : List Kind → List ArraySize → Prop
  | nil : Brackets [] []
  | implicit {ks : List Kind} {dims : List ArraySize} (h : Brackets ks dims) :
      Brackets (.symbol .lbracket :: .symbol .rbracket :: ks) (.implicit :: dims)
  | fixed {k : Kind} {n : Nat} {ks : List Kind} {dims : List ArraySize}
      (hk : arraySize? k = some n) (h : Brackets ks dims) :
      Brackets (.symbol .lbracket :: k :: .symbol .rbracket :: ks) (.fixed n :: dims)

/-- Lists of tokens with a comma between any two. -/
def commas : List (List Kind) → List Kind
  | [] => []
  | [ks] => ks
  | ks :: ls :: rest => ks ++ .symbol .comma :: commas (ls :: rest)

/-- The arguments of a call in their parentheses. -/
def argumentList (parts : List (List Kind)) : List Kind :=
  .symbol .lparen :: commas parts ++ [.symbol .rparen]

section Derivations

variable (names : Names)

/-- The tokens are an expression of at least the given strength. -/
inductive Derives : Precedence → List Kind → Expr → Prop
  | tighter {level : Precedence} {ks : List Kind} {e : Expr} (h : Derives level.next ks e) :
      Derives level ks e
  | assign {k : Kind} {op : AssignOp} {ts vs : List Kind} {t v : Expr} (hop : assignOp? k = some op)
      (ht : Derives .ternary ts t) (hv : Derives .assign vs v) :
      Derives .assign (ts ++ k :: vs) (.assign .dummy op t v)
  | ternary {cs ts fs : List Kind} {c t f : Expr} (hc : Derives .or cs c)
      (ht : Derives .assign ts t) (hf : Derives .ternary fs f) :
      Derives .ternary (cs ++ .symbol .question :: (ts ++ .symbol .colon :: fs))
        (.ternary .dummy c t f)
  | binary {k : Kind} {op : BinaryOp} {ls rs : List Kind} {l r : Expr} (hop : binaryOp? k = some op)
      (hl : Derives op.precedence ls l) (hr : Derives op.precedence.next rs r) :
      Derives op.precedence (ls ++ k :: rs) (.binary .dummy op l r)
  | unary {k : Kind} {op : UnaryOp} {ks : List Kind} {e : Expr} (hop : unaryOp? k = some op)
      (h : Derives .unary ks e) : Derives .unary (k :: ks) (.unary .dummy op e)
  | plus {ks : List Kind} {e : Expr} (h : Derives .unary ks e) :
      Derives .unary (.symbol .plus :: ks) e
  | minInt : Derives .unary [.symbol .minus, .int (intMax + 1)]
      (.constant .dummy (.int Int32.minValue))
  | index {bs ps : List Kind} {b p : Expr} (hb : Derives .postfixed bs b)
      (hp : Derives .assign ps p) :
      Derives .postfixed (bs ++ .symbol .lbracket :: (ps ++ [.symbol .rbracket]))
        (.index .dummy b p)
  | swizzle {bs : List Kind} {b : Expr} {name : String} {selection : Swizzle}
      (hb : Derives .postfixed bs b) (hname : Swizzle.ofName? name = some selection) :
      Derives .postfixed (bs ++ [.symbol .dot, .ident name]) (.swizzle .dummy b selection)
  | field {bs : List Kind} {b : Expr} {name : String} (hb : Derives .postfixed bs b)
      (hname : Swizzle.ofName? name = none) :
      Derives .postfixed (bs ++ [.symbol .dot, .ident name]) (.field .dummy b name)
  | literal {k : Kind} {c : Constant} (h : literal? k = some c) :
      Derives .primary [k] (.constant .dummy c)
  | parens {ks : List Kind} {e : Expr} (h : Derives .assign ks e) :
      Derives .primary (.symbol .lparen :: (ks ++ [.symbol .rparen])) e
  | ref {name : String} (htype : names.type? name = none) :
      Derives .primary [.ident name] (.ref .dummy name)
  | call {name : String} {parts : List (List Kind × Expr)} (htype : names.type? name = none)
      (hfunction : names.registry.function? name = none)
      (hargs : ∀ p ∈ parts, Derives .assign p.1 p.2) :
      Derives .primary (.ident name :: argumentList (parts.map Prod.fst))
        (.call .dummy name (parts.map Prod.snd))
  | builtin {name : String} {f : BuiltinFunction} {parts : List (List Kind × Expr)}
      (htype : names.type? name = none) (hfunction : names.registry.function? name = some f)
      (hargs : ∀ p ∈ parts, Derives .assign p.1 p.2) :
      Derives .primary (.ident name :: argumentList (parts.map Prod.fst))
        (.builtin .dummy f (parts.map Prod.snd))
  | cast {name : String} {base : Ty} {bs : List Kind} {dims : List ArraySize}
      {parts : List (List Kind × Expr)} (htype : names.type? name = some base)
      (hdims : Brackets bs dims) (hargs : ∀ p ∈ parts, Derives .assign p.1 p.2) :
      Derives .primary (.ident name :: (bs ++ argumentList (parts.map Prod.fst)))
        (.cast .dummy (dims.foldr (fun size t => .array t size) base) (parts.map Prod.snd))

end Derivations

section Levels

variable {names : Names} {level : Precedence} {ks : List Kind} {e : Expr}

theorem rank_injective {a b : Precedence} (h : a.rank = b.rank) : a = b := by
  cases a <;> cases b <;> first | rfl | exact absurd h (by decide)

theorem rank_le (p : Precedence) : p.rank ≤ 14 := by
  cases p <;> decide

theorem le_primary (p : Precedence) : p ≤ .primary := rank_le p

/-- What holds at a level if it does at the next stronger one holds at every weaker level. -/
theorem of_le_of_next {P : Precedence → Prop} {strong : Precedence}
    (hnext : ∀ level, P level.next → P level) (hle : level ≤ strong) (h : P strong) :
    P level := by
  have hrank : level.rank ≤ strong.rank := hle
  have hmax := rank_le strong
  obtain ⟨n, hn⟩ : ∃ n, strong.rank - level.rank = n := ⟨_, rfl⟩
  induction n generalizing level with
  | zero =>
      obtain rfl : level = strong := rank_injective (by omega)
      exact h
  | succ n ih =>
      have hsucc : level.next.rank = level.rank + 1 := by
        rw [Precedence.rank_next]
        exact Nat.min_eq_left (by omega)
      have hlt : level.next.rank ≤ strong.rank := by omega
      exact hnext level (ih hlt hlt (by omega))

/-- A derivation holds at every weaker level. -/
theorem Derives.weaken {strong : Precedence} (h : Derives names strong ks e)
    (hle : level ≤ strong) : Derives names level ks e :=
  of_le_of_next (P := (Derives names · ks e)) (fun _ => .tighter) hle h

/-- No operator follows that binds at least as tightly as the level. -/
def NoOperator (level : Precedence) (rest : List Kind) : Prop :=
  ∀ op, binaryOp? (rest.headD .eof) = some op → op.precedence < level

/-- What binds looser than the next level binds no tighter than this one. -/
theorem le_of_lt_next {level : Precedence} (op : BinaryOp) (h : op.precedence < level.next) :
    op.precedence ≤ level := by
  have hlt : op.precedence.rank < level.next.rank := h
  rw [Precedence.rank_next] at hlt
  have hmin : Nat.min (level.rank + 1) 14 ≤ level.rank + 1 := Nat.min_le_left _ _
  change op.precedence.rank ≤ level.rank
  omega

/-- An operand with its suffixes stands before any token but a suffix. -/
theorem noOperator_postfixed (rest : List Kind) : NoOperator .postfixed rest := by
  intro op _
  cases op <;> decide

theorem next_le_unary (op : BinaryOp) : op.precedence.next ≤ .unary := by
  cases op <;> decide

end Levels

end Parse

end Shading
