import Shading.Parse.File
import Shading.Print.Source
import Shading.Proofs.Parse.Grammar
import Shading.Proofs.Token.Spelling

/-!
# Trees as tokens

The tokens that the source dialect writes a tree with, in their order. A text of the tree is
a spelling of them, and reading them gives the tree back.
-/

namespace Shading

open Parse (commas argumentList)

namespace AssignOp

/-- The symbol of an assignment operator. -/
def token : AssignOp → Symbol
  | .set => .eq
  | .add => .plusEq
  | .sub => .minusEq
  | .mul => .starEq
  | .div => .slashEq

/-- The symbol of an assignment is spelled like its token. -/
theorem chars_token (op : AssignOp) : op.symbol.toList = op.token.chars := by
  cases op <;> rfl

/-- The token of an assignment operator is read back as that operator. -/
@[simp] theorem assignOp?_token (op : AssignOp) : Parse.assignOp? (.symbol op.token) = some op := by
  cases op <;> rfl

end AssignOp

namespace UnaryOp

/-- The symbol of a unary operator. -/
def token : UnaryOp → Symbol
  | .neg => .minus
  | .not => .bang
  | .bitNot => .tilde

theorem chars_token (op : UnaryOp) : op.symbol.toList = op.token.chars := by
  cases op <;> rfl

/-- The token of a prefix operator is read back as that operator. -/
@[simp] theorem unaryOp?_token (op : UnaryOp) : Parse.unaryOp? (.symbol op.token) = some op := by
  cases op <;> rfl

end UnaryOp

namespace BinaryOp

/-- The symbol of a binary operator. -/
def token : BinaryOp → Symbol
  | .add => .plus
  | .sub => .minus
  | .mul => .star
  | .div => .slash
  | .rem => .percent
  | .eq => .eqEq
  | .notEq => .notEq
  | .lt => .lt
  | .ltEq => .ltEq
  | .gt => .gt
  | .gtEq => .gtEq
  | .and => .ampAmp
  | .or => .pipePipe
  | .bitAnd => .amp
  | .bitOr => .pipe
  | .bitXor => .caret
  | .shl => .shl
  | .shr => .shr

theorem chars_token (op : BinaryOp) : op.symbol.toList = op.token.chars := by
  cases op <;> rfl

/-- The token of a binary operator is read back as that operator. -/
@[simp] theorem binaryOp?_token (op : BinaryOp) : Parse.binaryOp? (.symbol op.token) = some op := by
  cases op <;> rfl

end BinaryOp

namespace Kind

/-- Tokens between parentheses. -/
def parenthesized (ks : List Kind) : List Kind :=
  .symbol .lparen :: (ks ++ [.symbol .rparen])

/-- Tokens between braces. -/
def braced (ks : List Kind) : List Kind := .symbol .lbrace :: (ks ++ [.symbol .rbrace])

/-- Tokens between parentheses where they are asked for. -/
def wrapped (parens : Bool) (ks : List Kind) : List Kind := if parens then parenthesized ks else ks

/-- Every token can be written. -/
def Writable (ks : List Kind) : Prop := ∀ k ∈ ks, k.Spellable

section Writable

variable {k : Kind} {ks ls : List Kind}

/-- An identifier can be spelled exactly where it is a name of the language. -/
theorem spellable_ident {name : String} :
    (ident name).Spellable ↔ Lexer.isName name = true := Iff.rfl

@[simp] theorem spellable_symbol {s : Symbol} : (symbol s).Spellable := trivial

@[simp] theorem spellable_keyword {k : Keyword} : (keyword k).Spellable := trivial

@[simp] theorem spellable_int {n : Nat} : (int n).Spellable := trivial

@[simp] theorem writable_nil : Writable [] := by
  simp [Writable]

/-- Kinds can be written exactly where each of them has a spelling. -/
@[simp] theorem writable_cons : Writable (k :: ks) ↔ k.Spellable ∧ Writable ks := by
  simp [Writable]

@[simp] theorem writable_append : Writable (ks ++ ls) ↔ Writable ks ∧ Writable ls := by
  simp [Writable, or_imp, forall_and]

theorem Writable.left (h : Writable (ks ++ ls)) : Writable ks := (writable_append.mp h).1

theorem Writable.right (h : Writable (ks ++ ls)) : Writable ls := (writable_append.mp h).2

theorem Writable.tail (h : Writable (k :: ks)) : Writable ks := (writable_cons.mp h).2

@[simp] theorem writable_parenthesized : Writable (parenthesized ks) ↔ Writable ks := by
  simp [parenthesized]

@[simp] theorem writable_braced : Writable (braced ks) ↔ Writable ks := by
  simp [braced]

@[simp] theorem writable_wrapped {parens : Bool} :
    Writable (wrapped parens ks) ↔ Writable ks := by
  cases parens <;> simp [wrapped]

/-- What is written for each element of a list can be written exactly where all parts can. -/
theorem writable_flatMap {α : Type} {xs : List α} {f : α → List Kind} :
    Writable (xs.flatMap f) ↔ ∀ x ∈ xs, Writable (f x) := by
  induction xs with
  | nil => simp
  | cons x xs ih => simp [ih]

/-- The commas between parts always have a spelling. -/
theorem writable_commas {parts : List (List Kind)} :
    Writable (commas parts) ↔ ∀ part ∈ parts, Writable part := by
  induction parts with
  | nil => simp [commas]
  | cons p ps ih =>
      cases ps with
      | nil => simp [commas]
      | cons q qs => simp [commas, ih]

@[simp] theorem writable_argumentList {parts : List (List Kind)} :
    Writable (argumentList parts) ↔ ∀ part ∈ parts, Writable part := by
  simp [argumentList, writable_commas]

end Writable

end Kind

open Kind (parenthesized braced wrapped)

/-- The brackets of a dimension, with its size if it has one. -/
def ArraySize.kinds : ArraySize → List Kind
  | .implicit => [.symbol .lbracket, .symbol .rbracket]
  | .fixed n => [.symbol .lbracket, .int n, .symbol .rbracket]

/-- The name of the element type and the brackets of each dimension. -/
def Ty.kinds (t : Ty) : List Kind := .ident t.baseName :: t.dims.flatMap ArraySize.kinds

/-- The tokens of a literal as an operand, a negative one in its parentheses. -/
def Constant.kinds : Constant → List Kind
  | .bool b => [.keyword (if b then .true else .false)]
  | .int i =>
    if i < 0 then parenthesized [.symbol .minus, .int i.toInt.natAbs] else [.int i.toInt.natAbs]
  | .uint u => [.uint u]
  | .float x => [.float x]

namespace Expr

mutual

/-- The tokens that an expression is printed with. -/
def kinds : Expr → List Kind
  | .constant _ value => value.kinds
  | .ref _ name => [.ident name]
  | .index _ base place =>
    wrapped (base.needsParens .postfixed false) base.kinds ++
      .symbol .lbracket :: (place.kinds ++ [.symbol .rbracket])
  | .field _ base name =>
    wrapped (base.needsParens .postfixed false) base.kinds ++ [.symbol .dot, .ident name]
  | .swizzle _ base selection =>
    wrapped (base.needsParens .postfixed false) base.kinds ++
      [.symbol .dot, .ident selection.text]
  | .assign _ op target value =>
    wrapped (target.needsParens .ternary false) target.kinds ++ .symbol op.token :: value.kinds
  | .unary _ op operand => .symbol op.token :: wrapped operand.needsParensAfterSign operand.kinds
  | .binary _ op left right =>
    wrapped (left.needsParens op.precedence false) left.kinds ++
      .symbol op.token :: wrapped (right.needsParens op.precedence true) right.kinds
  | .call _ name args => .ident name :: argumentList (kindsList args)
  | .builtin _ f args => .ident f.name :: argumentList (kindsList args)
  | .cast _ target args => target.kinds ++ argumentList (kindsList args)
  | .ternary _ c t f =>
    wrapped (c.needsParens .ternary true) c.kinds ++ .symbol .question ::
      (t.kinds ++ .symbol .colon :: wrapped (f.needsParens .ternary false) f.kinds)

/-- The tokens of each of some expressions. -/
def kindsList : List Expr → List (List Kind)
  | [] => []
  | e :: es => e.kinds :: kindsList es

end

/-- The tokens of an optional expression after a lead. -/
def kindsAfter (lead : List Kind) : Option Expr → List Kind
  | none => []
  | some e => lead ++ e.kinds

/-- The kinds of a list of arguments are those of each argument; the recursion is `List.map`. -/
theorem kindsList_eq_map (es : List Expr) : kindsList es = es.map kinds := by
  induction es with
  | nil => rfl
  | cons e es ih => rw [kindsList, ih, List.map_cons]

end Expr

/-- The token of an attribute's argument. -/
def AttributeArgument.kind : AttributeArgument → Kind
  | .int n => .int n
  | .name n => .ident n

namespace Parse

/-- An attribute by its name and its arguments. -/
def attributeKinds (a : String × List AttributeArgument) : List Kind :=
  .ident a.1 ::
    match a.2 with
    | [] => []
    | args => argumentList (args.map fun x => [AttributeArgument.kind x])

/-- Attributes in one pair of brackets. -/
def bracketed (as : List (String × List AttributeArgument)) : List Kind :=
  .symbol .lbracket :: (commas (as.map attributeKinds) ++ [.symbol .rbracket])

end Parse

open Parse (bracketed)

/-- The attribute that a slot is printed with. -/
def Slot.attributes : Slot → List (String × List AttributeArgument)
  | .location n => [("location", [.int n])]
  | .builtin b => [("builtin", [.name b.name])]

/-- The attributes that an external variable is printed with. -/
def ExternalVariable.attributes (v : ExternalVariable) : List (String × List AttributeArgument) :=
  ("set", [.int v.set]) :: ("binding", [.int v.binding]) ::
    if v.storage then [("storage", [])] else []

/-- The attributes that an entry is printed with. -/
def EntryPoint.attributes (e : EntryPoint) : List (String × List AttributeArgument) :=
  ("entry", [.name e.stage.name]) ::
    match e.workgroup with
    | some g => [("workgroup", [.int g.x, .int g.y, .int g.z])]
    | none => []

/-- The tokens of a field. -/
def StructField.kinds (f : StructField) : List Kind :=
  .ident f.name :: .symbol .colon :: (f.type.kinds ++ [.symbol .semicolon])

/-- The tokens of an entry of an input or output block. -/
def InterfaceVariable.kinds (v : InterfaceVariable) : List Kind :=
  bracketed v.slot.attributes ++ (v.type.kinds ++ [.ident v.name, .symbol .semicolon])

/-- The tokens of an entry of a block of external variables. -/
def ExternalVariable.kinds (v : ExternalVariable) : List Kind :=
  bracketed v.attributes ++ (v.type.kinds ++ [.ident v.name, .symbol .semicolon])

/-- The tokens of an option, with its default if it has one. -/
def OptionDeclaration.kinds (d : OptionDeclaration) : List Kind :=
  d.type.kinds ++ .ident d.name ::
    (Expr.kindsAfter [.symbol .eq] d.default ++ [.symbol .semicolon])

/-- The tokens of an entry of a block of constants. -/
def ConstDeclaration.kinds (d : ConstDeclaration) : List Kind :=
  d.type.kinds ++ .ident d.name :: .symbol .eq :: (d.value.kinds ++ [.symbol .semicolon])

/-- The tokens of a variable declaration without its semicolon. -/
def VariableDeclaration.kinds (d : VariableDeclaration) : List Kind :=
  (if d.isConst then [.keyword .const] else []) ++ (d.type.kinds ++ .ident d.name ::
    (Expr.kindsAfter [.symbol .eq] d.initializer ++ [.symbol .semicolon]))

/-- The tokens of a parameter. -/
def Parameter.kinds (p : Parameter) : List Kind := p.type.kinds ++ [.ident p.name]

/-- The attributes before a function. -/
def entryKinds : Option EntryPoint → List Kind
  | some e => bracketed e.attributes
  | none => []

/-- A function up to its body. -/
def Signature.kinds (f : Signature) : List Kind :=
  entryKinds f.entry ++
    (f.returnType.kinds ++ .ident f.name :: argumentList (f.parameters.map Parameter.kinds))

/-- The parts of a library name with a point between any two. -/
def dottedKinds : List String → List Kind
  | [] => []
  | [part] => [.ident part]
  | part :: parts => .ident part :: .symbol .dot :: dottedKinds parts

namespace Stmt

mutual

/-- The tokens that a statement is printed with. -/
def kinds : Stmt → List Kind
  | .branch _ arms otherwise => kindsArms [.keyword .if] arms ++ kindsElse otherwise
  | .forLoop _ init condition step body =>
    .keyword .for :: .symbol .lparen :: (kindsInit init ++ (Expr.kindsAfter [] condition ++
      .symbol .semicolon :: (Expr.kindsAfter [] step ++ .symbol .rparen :: body.kinds)))
  | .whileLoop _ condition body => .keyword .while :: (parenthesized condition.kinds ++ body.kinds)
  | .doWhile _ body condition =>
    .keyword .do :: (body.kinds ++ .keyword .while :: (parenthesized condition.kinds ++
      [.symbol .semicolon]))
  | .var _ d => d.kinds
  | .struct _ d =>
    .keyword .struct :: .ident d.name :: braced (d.fields.flatMap StructField.kinds)
  | .inputs _ entries => .keyword .input :: braced (entries.flatMap InterfaceVariable.kinds)
  | .outputs _ entries => .keyword .output :: braced (entries.flatMap InterfaceVariable.kinds)
  | .externals _ entries => .keyword .external :: braced (entries.flatMap ExternalVariable.kinds)
  | .options _ entries => .keyword .option :: braced (entries.flatMap OptionDeclaration.kinds)
  | .consts _ entries => .keyword .const :: braced (entries.flatMap ConstDeclaration.kinds)
  | .function _ f body => f.kinds ++ braced (kindsList body)
  | .expr _ e => e.kinds ++ [.symbol .semicolon]
  | .leaveLoop _ => [.keyword .break, .symbol .semicolon]
  | .nextRound _ => [.keyword .continue, .symbol .semicolon]
  | .ret _ value => .keyword .return :: (Expr.kindsAfter [] value ++ [.symbol .semicolon])
  | .discard _ => [.keyword .discard, .symbol .semicolon]
  | .block _ items => braced (kindsList items)
  | .optional _ condition body otherwise =>
    .keyword .optional :: (parenthesized condition.kinds ++ (body.kinds ++ kindsElse otherwise))
  | .library _ path => .keyword .include :: (dottedKinds path ++ [.symbol .semicolon])

def kindsList : List Stmt → List Kind
  | [] => []
  | s :: ss => s.kinds ++ kindsList ss

/-- The arms of a branch; each but the first comes after an `else`. -/
def kindsArms (lead : List Kind) : List (Expr × Stmt) → List Kind
  | [] => []
  | (c, s) :: rest =>
    lead ++ (parenthesized c.kinds ++ (s.kinds ++ kindsArms [.keyword .else, .keyword .if] rest))

/-- The tokens of an alternative with its keyword, or none. -/
def kindsElse : Option Stmt → List Kind
  | none => []
  | some s => .keyword .else :: s.kinds

/-- The first clause of a `for` with its semicolon. -/
def kindsInit : Option Stmt → List Kind
  | none => [.symbol .semicolon]
  | some s => s.kinds

end

/-- The tokens of a file without the end of the file. -/
def fileKinds (s : Stmt) : List Kind := kindsList s.items

/-- Statements are written one behind the other, with nothing between them. -/
theorem kindsList_eq_flatMap (ss : List Stmt) : kindsList ss = ss.flatMap kinds := by
  induction ss with
  | nil => rfl
  | cons s ss ih => rw [kindsList, ih, List.flatMap_cons]

end Stmt

end Shading
