import Mathlib.Tactic.Common
import Shading.Proofs.Syntax.Erased
import Shading.Syntax.Node

/-!
# The nodes of a tree without its places

The nodes of an erased tree are those of the tree, erased one by one.
-/

namespace Shading

/-- The node without its places. -/
def Node.erased : Node → Node
  | .stmt s => .stmt s.eraseSpans
  | .expr e => .expr e.erased
  | .function f => .function f.erased
  | .type t => .type t

namespace Expr

mutual

/-- An erased expression has the nodes of the expression, each erased, in the same order. -/
theorem nodes_erased (e : Expr) : e.erased.nodes = e.nodes.map Node.erased := by
  cases e with
  | constant s v => rfl
  | ref s n => rfl
  | index s base place =>
      simp only [erased_index, nodes, nodes_erased base, nodes_erased place, List.map_cons,
        List.map_append, Node.erased]
  | field s base n =>
      simp only [erased_field, nodes, nodes_erased base, List.map_cons, Node.erased]
  | assign s op target value =>
      simp only [erased_assign, nodes, nodes_erased target, nodes_erased value, List.map_cons,
        List.map_append, Node.erased]
  | unary s op operand =>
      simp only [erased_unary, nodes, nodes_erased operand, List.map_cons, Node.erased]
  | binary s op left right =>
      simp only [erased_binary, nodes, nodes_erased left, nodes_erased right, List.map_cons,
        List.map_append, Node.erased]
  | call s n args =>
      simp only [erased_call, nodes, nodesList_erased args, List.map_cons, Node.erased]
  | builtin s f args =>
      simp only [erased_builtin, nodes, nodesList_erased args, List.map_cons, Node.erased]
  | cast s t args =>
      simp only [erased_cast, nodes, nodesList_erased args, List.map_cons, Node.erased]
  | swizzle s base w =>
      simp only [erased_swizzle, nodes, nodes_erased base, List.map_cons, Node.erased]
  | ternary s c t f =>
      simp only [erased_ternary, nodes, nodes_erased c, nodes_erased t, nodes_erased f,
        List.map_cons, List.map_append, Node.erased]

theorem nodesList_erased (es : List Expr) :
    nodesList (es.map erased) = (nodesList es).map Node.erased := by
  cases es with
  | nil => rfl
  | cons e rest =>
      simp only [List.map_cons, nodesList, nodes_erased e, nodesList_erased rest, List.map_append]

end

theorem nodesOption_erased (e : Option Expr) :
    nodesOption (e.map erased) = (nodesOption e).map Node.erased := by
  cases e with
  | none => rfl
  | some e => exact e.nodes_erased

end Expr

namespace Stmt

mutual

/-- An erased statement has the nodes of the statement, each erased, in the same order. -/
theorem nodes_eraseSpans (s : Stmt) : s.eraseSpans.nodes = s.nodes.map Node.erased := by
  cases s with
  | branch p arms otherwise =>
      simp only [erased_branch, nodes, nodesArms_erased arms, nodesOption_erased otherwise,
        List.map_cons, List.map_append, Node.erased]
  | forLoop p init condition step body =>
      simp only [erased_forLoop, nodes, nodesOption_erased init, Expr.nodesOption_erased,
        nodes_eraseSpans body, List.map_cons, List.map_append, Node.erased]
  | whileLoop p condition body =>
      simp only [erased_whileLoop, nodes, condition.nodes_erased, nodes_eraseSpans body,
        List.map_cons, List.map_append, Node.erased]
  | doWhile p body condition =>
      simp only [erased_doWhile, nodes, condition.nodes_erased, nodes_eraseSpans body,
        List.map_cons, List.map_append, Node.erased]
  | var p d =>
      simp only [erased_var, nodes, VariableDeclaration.erased, Expr.nodesOption_erased,
        List.map_cons, Node.erased]
  | struct p d =>
      simp only [erased_struct, nodes, List.map_cons, Node.erased, List.map_map]
      rfl
  | inputs p vs =>
      simp only [erased_inputs, nodes, List.map_cons, Node.erased, List.map_map]
      rfl
  | outputs p vs =>
      simp only [erased_outputs, nodes, List.map_cons, Node.erased, List.map_map]
      rfl
  | externals p vs =>
      simp only [erased_externals, nodes, List.map_cons, Node.erased, List.map_map]
      rfl
  | options p ds =>
      simp only [erased_options, nodes, List.map_cons, Node.erased, List.flatMap_map,
        List.map_flatMap, OptionDeclaration.erased, Expr.nodesOption_erased]
  | consts p ds =>
      simp only [erased_consts, nodes, List.map_cons, Node.erased, List.flatMap_map,
        List.map_flatMap, ConstDeclaration.erased, Expr.nodes_erased]
  | function p f body =>
      simp only [erased_function, nodes, nodesList_erased body, List.map_cons, List.map_append,
        Node.erased, Signature.erased, List.map_map]
      rfl
  | expr p e => simp only [erased_expr, nodes, e.nodes_erased, List.map_cons, Node.erased]
  | ret p value =>
      simp only [erased_ret, nodes, Expr.nodesOption_erased, List.map_cons, Node.erased]
  | leaveLoop p => rfl
  | nextRound p => rfl
  | discard p => rfl
  | library p path => rfl
  | block p items =>
      simp only [erased_block, nodes, nodesList_erased items, List.map_cons, Node.erased]
  | optional p condition body otherwise =>
      simp only [erased_optional, nodes, condition.nodes_erased, nodes_eraseSpans body,
        nodesOption_erased otherwise, List.map_cons, List.map_append, Node.erased]

theorem nodesList_erased (ss : List Stmt) :
    nodesList (ss.map eraseSpans) = (nodesList ss).map Node.erased := by
  cases ss with
  | nil => rfl
  | cons s rest =>
      simp only [List.map_cons, nodesList, nodes_eraseSpans s, nodesList_erased rest,
        List.map_append]

theorem nodesArms_erased (arms : List (Expr × Stmt)) :
    nodesArms (arms.map erasedArm) = (nodesArms arms).map Node.erased := by
  match arms with
  | [] => rfl
  | (c, s) :: rest =>
      simp only [List.map_cons, erasedArm, nodesArms, c.nodes_erased, nodes_eraseSpans s,
        nodesArms_erased rest, List.map_append]

theorem nodesOption_erased (s : Option Stmt) :
    nodesOption (s.map eraseSpans) = (nodesOption s).map Node.erased := by
  cases s with
  | none => rfl
  | some s => exact nodes_eraseSpans s

end

end Stmt

end Shading
