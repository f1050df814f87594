import Shading.Syntax.Stmt

/-!
# The nodes of a tree

All statements, expressions, functions and written types of a tree in reading order,
each before what it contains.  Analyses that need no scopes are folds over this list.
-/

namespace Shading

/-- A part of a tree that a traversal visits. -/
inductive Node where
  | stmt (s : Stmt)
  | expr (e : Expr)
  | function (signature : Signature)
  | type (t : Ty)

namespace Expr

mutual

/-- The nodes of an expression, itself first and then its parts from left to right. -/
def nodes : Expr → List Node
  | e@(.constant _ _) | e@(.ref _ _) => [.expr e]
  | e@(.index _ base place) => .expr e :: (base.nodes ++ place.nodes)
  | e@(.field _ base _) | e@(.swizzle _ base _) => .expr e :: base.nodes
  | e@(.assign _ _ target value) => .expr e :: (target.nodes ++ value.nodes)
  | e@(.unary _ _ operand) => .expr e :: operand.nodes
  | e@(.binary _ _ left right) => .expr e :: (left.nodes ++ right.nodes)
  | e@(.call _ _ args) | e@(.builtin _ _ args) => .expr e :: nodesList args
  | e@(.cast _ target args) => .expr e :: .type target :: nodesList args
  | e@(.ternary _ c t f) => .expr e :: (c.nodes ++ t.nodes ++ f.nodes)

def nodesList : List Expr → List Node
  | [] => []
  | e :: es => e.nodes ++ nodesList es

end

def nodesOption : Option Expr → List Node
  | none => []
  | some e => e.nodes

end Expr

namespace Stmt

mutual

/-- The nodes of a statement; a loop's condition comes before its body in either loop. -/
def nodes : Stmt → List Node
  | s@(.branch _ arms otherwise) => .stmt s :: (nodesArms arms ++ nodesOption otherwise)
  | s@(.forLoop _ init condition step body) =>
    .stmt s :: (nodesOption init ++ Expr.nodesOption condition ++ Expr.nodesOption step ++
      body.nodes)
  | s@(.whileLoop _ condition body) | s@(.doWhile _ body condition) =>
    .stmt s :: (condition.nodes ++ body.nodes)
  | s@(.var _ d) => .stmt s :: .type d.type :: Expr.nodesOption d.initializer
  | s@(.struct _ d) => .stmt s :: d.fields.map (.type ·.type)
  | s@(.inputs _ entries) | s@(.outputs _ entries) => .stmt s :: entries.map (.type ·.type)
  | s@(.externals _ entries) => .stmt s :: entries.map (.type ·.type)
  | s@(.options _ entries) =>
    .stmt s :: entries.flatMap fun d => .type d.type :: Expr.nodesOption d.default
  | s@(.consts _ entries) => .stmt s :: entries.flatMap fun d => .type d.type :: d.value.nodes
  | s@(.function _ f body) =>
    .stmt s :: .function f :: (f.parameters.map (.type ·.type) ++ .type f.returnType ::
      nodesList body)
  | s@(.expr _ e) => .stmt s :: e.nodes
  | s@(.ret _ value) => .stmt s :: Expr.nodesOption value
  | s@(.leaveLoop _) | s@(.nextRound _) | s@(.discard _) | s@(.library _ _) => [.stmt s]
  | s@(.block _ items) => .stmt s :: nodesList items
  | s@(.optional _ condition body otherwise) =>
    .stmt s :: (condition.nodes ++ body.nodes ++ nodesOption otherwise)

def nodesList : List Stmt → List Node
  | [] => []
  | s :: ss => s.nodes ++ nodesList ss

def nodesArms : List (Expr × Stmt) → List Node
  | [] => []
  | (c, s) :: rest => c.nodes ++ s.nodes ++ nodesArms rest

def nodesOption : Option Stmt → List Node
  | none => []
  | some s => s.nodes

end

end Stmt

end Shading
