import Shading.Proofs.Print.Kinds

/-!
# Trees as pieces

The pieces that the source dialect writes a tree with. A constant is one piece, whatever the
sign that its literal needs, and so is a reference: replacing a reference by a value replaces
one piece and moves no other one.
-/

namespace Shading

open Parse (commas argumentList)
open Kind (parenthesized braced wrapped Writable)

namespace Constant

/-- The literal of the value without its sign. -/
def magnitude : Constant → Kind
  | .bool b => .keyword (if b then .true else .false)
  | .int i => .int i.toInt.natAbs
  | .uint u => .uint u
  | .float x => .float (Binary32.ofParts false x.magnitude)

/-- One literal; a minus stands before it, and parentheses around both, if the value is
negative. -/
def literal (c : Constant) : List Kind :=
  if c.isNegative then parenthesized [.symbol .minus, c.magnitude] else [c.magnitude]

/-- A literal can be written where its magnitude has a spelling. -/
@[simp] theorem writable_literal (c : Constant) : Writable c.literal ↔ c.magnitude.Spellable := by
  unfold literal
  split <;> simp

end Constant

/-- A token of a tree, or a place in it that holds a constant or a reference. -/
inductive Piece where
  | token (k : Kind)
  | value (span : Span) (value : Constant)
  | reference (span : Span) (name : String)
deriving DecidableEq

namespace Piece

/-- The tokens that the piece is written with. -/
def literal : Piece → List Kind
  | .token k => [k]
  | .value _ c => c.literal
  | .reference _ name => [.ident name]

/-- Tokens that hold neither constants nor references. -/
def tokens (ks : List Kind) : List Piece := ks.map token

/-- The piece that a symbol is. -/
def symbol (s : Symbol) : Piece := .token (.symbol s)

/-- The piece that a keyword is. -/
def keyword (k : Keyword) : Piece := .token (.keyword k)

/-- Pieces between parentheses. -/
def enclosed (ps : List Piece) : List Piece := symbol .lparen :: (ps ++ [symbol .rparen])

/-- Pieces between parentheses where they are asked for. -/
def enclosedIf (parens : Bool) (ps : List Piece) : List Piece := if parens then enclosed ps else ps

/-- The arguments of a call in their parentheses. -/
def arguments (parts : List (List Piece)) : List Piece :=
  enclosed ([symbol .comma].intercalate parts)

/-- Pieces between braces. -/
def inBraces (ps : List Piece) : List Piece := symbol .lbrace :: (ps ++ [symbol .rbrace])

/-- The tokens that the pieces are written with. -/
def spell (ps : List Piece) : List Kind := ps.flatMap literal

section Spell

variable {ps qs : List Piece}

@[simp] theorem spell_nil : spell [] = [] := rfl

@[simp] theorem spell_token (k : Kind) : spell (.token k :: ps) = k :: spell ps := rfl

@[simp] theorem spell_symbol (s : Symbol) : spell (symbol s :: ps) = .symbol s :: spell ps := rfl

@[simp] theorem spell_keyword (k : Keyword) : spell (keyword k :: ps) = .keyword k :: spell ps :=
  rfl

@[simp] theorem spell_value (s : Span) (c : Constant) :
    spell (.value s c :: ps) = c.literal ++ spell ps := rfl

@[simp] theorem spell_reference (s : Span) (n : String) :
    spell (.reference s n :: ps) = .ident n :: spell ps := rfl

@[simp] theorem spell_append : spell (ps ++ qs) = spell ps ++ spell qs := by
  simp [spell]

@[simp] theorem spell_tokens (ks : List Kind) : spell (tokens ks) = ks := by
  induction ks with
  | nil => rfl
  | cons k ks ih => simpa [tokens] using ih

@[simp] theorem spell_enclosed : spell (enclosed ps) = parenthesized (spell ps) := by
  simp [enclosed, parenthesized]

@[simp] theorem spell_enclosedIf (parens : Bool) :
    spell (enclosedIf parens ps) = wrapped parens (spell ps) := by
  cases parens <;> simp [enclosedIf, wrapped]

@[simp] theorem spell_inBraces : spell (inBraces ps) = braced (spell ps) := by
  simp [inBraces, braced]

theorem spell_intercalate (parts : List (List Piece)) :
    spell ([symbol .comma].intercalate parts) = commas (parts.map spell) := by
  induction parts with
  | nil => rfl
  | cons p rest ih =>
      cases rest with
      | nil => simp [List.intercalate, commas]
      | cons q rest =>
          have hcons : [symbol .comma].intercalate (p :: q :: rest)
              = p ++ symbol .comma :: [symbol .comma].intercalate (q :: rest) := by
            simp [List.intercalate]
          simp only [hcons, spell_append, spell_symbol, ih, List.map_cons, commas]

@[simp] theorem spell_arguments (parts : List (List Piece)) :
    spell (arguments parts) = argumentList (parts.map spell) := by
  simp [arguments, spell_intercalate, argumentList, parenthesized]

@[simp] theorem spell_flatMap {α : Type} (xs : List α) (f : α → List Piece) :
    spell (xs.flatMap f) = xs.flatMap fun x => spell (f x) := by
  simp [spell, List.flatMap_assoc]

end Spell

end Piece

open Piece (symbol keyword tokens enclosed enclosedIf arguments inBraces)

namespace Expr

mutual

/-- The pieces of an expression, in the order in which it is printed. -/
def pieces : Expr → List Piece
  | .constant s value => [.value s value]
  | .ref s name => [.reference s name]
  | .index _ base place =>
    enclosedIf (base.needsParens .postfixed false) base.pieces ++
      symbol .lbracket :: (place.pieces ++ [symbol .rbracket])
  | .field _ base name =>
    enclosedIf (base.needsParens .postfixed false) base.pieces ++
      tokens [.symbol .dot, .ident name]
  | .swizzle _ base selection =>
    enclosedIf (base.needsParens .postfixed false) base.pieces ++
      tokens [.symbol .dot, .ident selection.text]
  | .assign _ op target value =>
    enclosedIf (target.needsParens .ternary false) target.pieces ++
      symbol op.token :: value.pieces
  | .unary _ op operand =>
    symbol op.token :: enclosedIf operand.needsParensAfterSign operand.pieces
  | .binary _ op left right =>
    enclosedIf (left.needsParens op.precedence false) left.pieces ++
      symbol op.token :: enclosedIf (right.needsParens op.precedence true) right.pieces
  | .call _ name args => .token (.ident name) :: arguments (piecesList args)
  | .builtin _ f args => .token (.ident f.name) :: arguments (piecesList args)
  | .cast _ target args => tokens target.kinds ++ arguments (piecesList args)
  | .ternary _ c t f =>
    enclosedIf (c.needsParens .ternary true) c.pieces ++ symbol .question ::
      (t.pieces ++ symbol .colon :: enclosedIf (f.needsParens .ternary false) f.pieces)

/-- The pieces of each of some expressions. -/
def piecesList : List Expr → List (List Piece)
  | [] => []
  | e :: es => e.pieces :: piecesList es

end

/-- The pieces of an optional expression after a lead. -/
def piecesAfter (lead : List Kind) : Option Expr → List Piece
  | none => []
  | some e => tokens lead ++ e.pieces

end Expr

/-- The pieces of an option, with its default if it has one. -/
def OptionDeclaration.pieces (d : OptionDeclaration) : List Piece :=
  tokens (d.type.kinds ++ [.ident d.name]) ++
    (Expr.piecesAfter [.symbol .eq] d.default ++ [symbol .semicolon])

/-- The pieces of an entry of a block of constants. -/
def ConstDeclaration.pieces (d : ConstDeclaration) : List Piece :=
  tokens (d.type.kinds ++ [.ident d.name, .symbol .eq]) ++
    (d.value.pieces ++ [symbol .semicolon])

/-- The pieces of a variable declaration without its semicolon. -/
def VariableDeclaration.pieces (d : VariableDeclaration) : List Piece :=
  tokens ((if d.isConst then [.keyword .const] else []) ++ (d.type.kinds ++ [.ident d.name])) ++
    (Expr.piecesAfter [.symbol .eq] d.initializer ++ [symbol .semicolon])

namespace Stmt

/-- Whether the semicolon of the statement is the one that ends it as the first clause of a
`for`. -/
def endsClause : Stmt → Bool
  | .var .. | .expr .. => true
  | _ => false

mutual

/-- The pieces of a statement, in the order in which it is printed. -/
def pieces : Stmt → List Piece
  | .branch _ arms otherwise => piecesArms [.keyword .if] arms ++ piecesElse otherwise
  | .forLoop _ init condition step body =>
    tokens [.keyword .for, .symbol .lparen] ++ (piecesInit init ++
      (Expr.piecesAfter [] condition ++ symbol .semicolon ::
        (Expr.piecesAfter [] step ++ symbol .rparen :: body.pieces)))
  | .whileLoop _ condition body =>
    keyword .while :: (enclosed condition.pieces ++ body.pieces)
  | .doWhile _ body condition =>
    keyword .do :: (body.pieces ++ keyword .while :: (enclosed condition.pieces ++
      [symbol .semicolon]))
  | .var _ d => d.pieces
  | .struct s d => tokens (kinds (.struct s d))
  | .inputs s entries => tokens (kinds (.inputs s entries))
  | .outputs s entries => tokens (kinds (.outputs s entries))
  | .externals s entries => tokens (kinds (.externals s entries))
  | .options _ entries => keyword .option :: inBraces (entries.flatMap OptionDeclaration.pieces)
  | .consts _ entries => keyword .const :: inBraces (entries.flatMap ConstDeclaration.pieces)
  | .function _ f body => tokens f.kinds ++ inBraces (piecesList body)
  | .expr _ e => e.pieces ++ [symbol .semicolon]
  | .leaveLoop s => tokens (kinds (.leaveLoop s))
  | .nextRound s => tokens (kinds (.nextRound s))
  | .ret _ value => keyword .return :: (Expr.piecesAfter [] value ++ [symbol .semicolon])
  | .discard s => tokens (kinds (.discard s))
  | .block _ items => inBraces (piecesList items)
  | .optional _ condition body otherwise =>
    keyword .optional :: (enclosed condition.pieces ++ (body.pieces ++ piecesElse otherwise))
  | .library s path => tokens (kinds (.library s path))

def piecesList : List Stmt → List Piece
  | [] => []
  | s :: ss => s.pieces ++ piecesList ss

/-- The arms of a branch; each but the first comes after an `else`. -/
def piecesArms (lead : List Kind) : List (Expr × Stmt) → List Piece
  | [] => []
  | (c, s) :: rest =>
    tokens lead ++ (enclosed c.pieces ++
      (s.pieces ++ piecesArms [.keyword .else, .keyword .if] rest))

/-- The pieces of an alternative with its keyword, or none. -/
def piecesElse : Option Stmt → List Piece
  | none => []
  | some s => keyword .else :: s.pieces

/-- The first clause of a `for` with its semicolon. -/
def piecesInit : Option Stmt → List Piece
  | none => [symbol .semicolon]
  | some s => s.pieces ++ (if s.endsClause then [] else [symbol .semicolon])

end

/-- The pieces of a file without the end of the file. -/
def filePieces (s : Stmt) : List Piece := piecesList s.items

theorem piecesList_eq_flatMap (ss : List Stmt) : piecesList ss = ss.flatMap pieces := by
  induction ss with
  | nil => rfl
  | cons s ss ih => rw [piecesList, ih, List.flatMap_cons]

end Stmt

end Shading
