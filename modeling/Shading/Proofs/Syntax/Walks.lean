import Mathlib.Control.Monad.Writer
import Shading.Proofs.Syntax.ErasedNodes
import Shading.Proofs.Syntax.Parts

/-!
# The walks over a tree

The walk that may relabel a tree writes down what it comes to: each part, and then the parts that
stand directly in it. The list of the nodes of a tree is that of the walk without the spans.
-/

namespace Shading

/-- A walk that writes down what it comes to. -/
abbrev Recording : Type → Type := WriterT (List Part) Id

instance : LawfulMonad Recording where
  map_const := rfl
  id_map _ := rfl
  seqLeft_eq _ _ := Prod.ext rfl (congrArg (_ ++ ·) (List.append_nil _))
  seqRight_eq _ _ := rfl
  pure_seq _ _ := rfl
  bind_pure_comp _ x := Prod.ext rfl (List.append_nil x.2)
  bind_map _ _ := rfl
  pure_bind _ _ := rfl
  bind_assoc _ _ _ := Prod.ext rfl (List.append_assoc ..)

/-- Replaces nothing and writes down every node and every span. -/
def Relabeler.record : Relabeler Recording where
  enter n := do
    tell [.node n]
  span s := do
    tell [.span s]
    return s
  type t := do
    tell [.type t]
    return t
  name n := pure n

open Relabeler (record)

/-- What a recording walk has written down. -/
def written {α : Type} (walk : Recording α) : List Part := walk.run.2

section Written

variable {α β : Type}

@[simp] theorem written_pure (a : α) : written (pure a) = [] := rfl

/-- Two steps record what the first one visits and then what the second one does. -/
@[simp] theorem written_bind (x : Recording α) (f : α → Recording β) :
    written (x >>= f) = written x ++ written (f x.run.1) := rfl

@[simp] theorem written_map (f : α → β) (x : Recording α) :
    written (f <$> x) = written x := rfl

@[simp] theorem written_enter (n : Node) : written (record.enter n) = [.node n] := rfl

@[simp] theorem written_span (s : Span) : written (record.span s) = [.span s] := rfl

@[simp] theorem written_type (t : Ty) : written (record.type t) = [.type t] := rfl

@[simp] theorem written_name (n : String) : written (record.name n) = [] := rfl

/-- A walk over a list records what each element gives, in order. -/
theorem written_mapM {walk : α → Recording α} {visits : α → List Part}
    (h : ∀ a, written (walk a) = visits a) (as : List α) :
    written (as.mapM walk) = as.flatMap visits := by
  induction as with
  | nil => rfl
  | cons a as ih =>
      simp [List.mapM_cons, h a, ih]

end Written

namespace Expr

/-- What the walk over an expression comes to. -/
def visits (e : Expr) : List Part := written (e.relabel record)

@[simp] theorem written_relabel (e : Expr) : written (e.relabel record) = e.visits := rfl

@[simp] theorem written_relabelList (es : List Expr) :
    written (relabelList record es) = es.flatMap visits := by
  induction es with
  | nil => rfl
  | cons e es ih => simp [relabelList, ih]

@[simp] theorem written_relabelOption (e : Option Expr) :
    written (relabelOption record e) = e.toList.flatMap visits := by
  cases e with
  | none => rfl
  | some e => simp [relabelOption]

end Expr

namespace Stmt

/-- What the walk over a statement comes to. -/
def visits (s : Stmt) : List Part := written (s.relabel record)

@[simp] theorem written_relabel (s : Stmt) : written (s.relabel record) = s.visits := rfl

@[simp] theorem written_relabelList (ss : List Stmt) :
    written (relabelList record ss) = ss.flatMap visits := by
  induction ss with
  | nil => rfl
  | cons s ss ih => simp [relabelList, ih]

@[simp] theorem written_relabelArms (arms : List (Expr × Stmt)) :
    written (relabelArms record arms) = arms.flatMap fun arm => arm.1.visits ++ arm.2.visits := by
  induction arms with
  | nil => rfl
  | cons arm arms ih => simp [relabelArms, ih]

@[simp] theorem written_relabelOption (s : Option Stmt) :
    written (relabelOption record s) = s.toList.flatMap visits := by
  cases s with
  | none => rfl
  | some s => simp [relabelOption]

end Stmt

namespace Part

/-- What the walk comes to in a part. -/
def visits : Part → List Part
  | .node (.stmt s) => s.visits
  | .node (.expr e) => e.visits
  | .node (.function f) => .node (.function f) :: written (record.signature f)
  | .node (.type t) => [.type t]
  | .span s => [.span s]

@[simp] theorem visits_stmt (s : Stmt) : (stmt s).visits = s.visits := rfl

@[simp] theorem visits_expr (e : Expr) : (expr e).visits = e.visits := rfl

@[simp] theorem visits_function (f : Signature) : (node (.function f)).visits =
    .node (.function f) :: written (record.signature f) := rfl

@[simp] theorem visits_type (t : Ty) : (type t).visits = [.type t] := rfl

@[simp] theorem visits_span (s : Span) : (span s).visits = [.span s] := rfl

end Part

/-- An expression is visited before its parts, which follow in order. -/
theorem Expr.visits_eq (e : Expr) : e.visits = .expr e :: e.parts.flatMap Part.visits := by
  rw [visits]
  cases e <;> simp [relabel, parts, List.flatMap_map]

namespace Relabeler

/-- The fields, entries and signatures below record the parts they have, as this one does. -/
theorem written_structField (f : StructField) :
    written (record.structField f) = [.type f.type] := by
  simp [structField]

theorem written_interfaceVariable (v : InterfaceVariable) :
    written (record.interfaceVariable v) = v.parts.flatMap Part.visits := by
  simp [interfaceVariable, InterfaceVariable.parts]

theorem written_externalVariable (v : ExternalVariable) :
    written (record.externalVariable v) = v.parts.flatMap Part.visits := by
  simp [externalVariable, ExternalVariable.parts]

theorem written_optionDeclaration (d : OptionDeclaration) :
    written (record.optionDeclaration d) = d.parts.flatMap Part.visits := by
  simp [optionDeclaration, OptionDeclaration.parts, List.flatMap_map]

theorem written_constDeclaration (d : ConstDeclaration) :
    written (record.constDeclaration d) = d.parts.flatMap Part.visits := by
  simp [constDeclaration, ConstDeclaration.parts]

theorem written_parameter (p : Parameter) :
    written (record.parameter p) = p.parts.flatMap Part.visits := by
  simp [parameter, Parameter.parts]

theorem written_signature (f : Signature) :
    written (record.signature f) = f.parts.flatMap Part.visits := by
  simp [signature, Signature.parts, written_mapM written_parameter, List.flatMap_assoc]

end Relabeler

open Relabeler in
/-- A statement is visited before its parts, which follow in order. -/
theorem Stmt.visits_eq (s : Stmt) : s.visits = .stmt s :: s.parts.flatMap Part.visits := by
  rw [visits]
  cases s with
  | struct p d => simp [relabel, parts, written_mapM written_structField, List.flatMap_map]
  | inputs p vs | outputs p vs =>
      simp [relabel, parts, written_mapM written_interfaceVariable, List.flatMap_assoc]
  | externals p vs =>
      simp [relabel, parts, written_mapM written_externalVariable, List.flatMap_assoc]
  | options p ds =>
      simp [relabel, parts, written_mapM written_optionDeclaration, List.flatMap_assoc]
  | consts p ds =>
      simp [relabel, parts, written_mapM written_constDeclaration, List.flatMap_assoc]
  | branch p arms otherwise =>
      simp [relabel, parts, List.flatMap_map, List.flatMap_assoc]
  | _ => simp [relabel, parts, List.flatMap_map]

namespace Part

/-- The walk comes to a part before the parts in it. -/
theorem visits_eq (p : Part) : p.visits = p :: p.parts.flatMap visits := by
  cases p with
  | span s => rfl
  | node n =>
      cases n with
      | stmt s => exact s.visits_eq
      | expr e => exact e.visits_eq
      | function f => exact congrArg _ (Relabeler.written_signature f)
      | type t => rfl

/-- The nodes in a part. -/
def nodes : Part → List Node
  | .node (.stmt s) => s.nodes
  | .node (.expr e) => e.nodes
  | .node (.function f) => .function f :: (f.parameters.map (.type ·.type) ++ [.type f.returnType])
  | .node (.type t) => [.type t]
  | .span _ => []

end Part

theorem Expr.nodesList_eq_flatMap (es : List Expr) : nodesList es = es.flatMap nodes := by
  induction es with
  | nil => rfl
  | cons e es ih => rw [nodesList, ih, List.flatMap_cons]

theorem Expr.nodesOption_eq_flatMap (e : Option Expr) :
    nodesOption e = e.toList.flatMap nodes := by
  cases e <;> simp [nodesOption]

theorem Expr.nodes_eq (e : Expr) : e.nodes = .expr e :: e.parts.flatMap Part.nodes := by
  cases e <;> simp [nodes, parts, Part.nodes, nodesList_eq_flatMap, List.flatMap_map]

namespace Stmt

theorem nodesList_eq_flatMap (ss : List Stmt) : nodesList ss = ss.flatMap nodes := by
  induction ss with
  | nil => rfl
  | cons s ss ih => rw [nodesList, ih, List.flatMap_cons]

theorem nodesArms_eq_flatMap (arms : List (Expr × Stmt)) :
    nodesArms arms = arms.flatMap fun arm => arm.1.nodes ++ arm.2.nodes := by
  induction arms with
  | nil => rfl
  | cons arm arms ih => rw [nodesArms, ih, List.flatMap_cons]

theorem nodesOption_eq_flatMap (s : Option Stmt) : nodesOption s = s.toList.flatMap nodes := by
  cases s <;> simp [nodesOption]

/-- The nodes of a statement are itself and those of its parts. -/
theorem nodes_eq (s : Stmt) : s.nodes = .stmt s :: s.parts.flatMap Part.nodes := by
  cases s with
  | struct p d => simp [nodes, parts, Part.nodes, List.map_eq_flatMap, List.flatMap_assoc]
  | inputs p vs | outputs p vs =>
      simp [nodes, parts, Part.nodes, InterfaceVariable.parts, List.map_eq_flatMap,
        List.flatMap_assoc]
  | externals p vs =>
      simp [nodes, parts, Part.nodes, ExternalVariable.parts, List.map_eq_flatMap,
        List.flatMap_assoc]
  | options p ds =>
      simp [nodes, parts, Part.nodes, OptionDeclaration.parts, Expr.nodesOption_eq_flatMap,
        List.flatMap_map, List.flatMap_assoc]
  | consts p ds => simp [nodes, parts, Part.nodes, ConstDeclaration.parts, List.flatMap_assoc]
  | branch p arms otherwise =>
      simp [nodes, parts, Part.nodes, nodesArms_eq_flatMap, nodesOption_eq_flatMap,
        List.flatMap_map, List.flatMap_assoc]
  | function p f body =>
      simp [nodes, parts, Part.nodes, nodesList_eq_flatMap, List.flatMap_map]
  | _ =>
      simp [nodes, parts, Part.nodes, nodesList_eq_flatMap, nodesOption_eq_flatMap,
        Expr.nodesOption_eq_flatMap, List.flatMap_map]

end Stmt

namespace Part

/-- The nodes of a part are its own node, where it is one, and then those of its parts. -/
theorem nodes_eq (p : Part) : p.nodes = p.node?.toList ++ p.parts.flatMap nodes := by
  cases p with
  | span s => rfl
  | node n =>
      cases n with
      | stmt s => exact s.nodes_eq
      | expr e => exact e.nodes_eq
      | function f =>
          simp [nodes, node?, parts, Signature.parts, Parameter.parts, List.map_eq_flatMap,
            List.flatMap_assoc]
      | type t => rfl

/-- The reading walk and the recording walk come to the same nodes in the same order. -/
theorem filterMap_visits (p : Part) : p.visits.filterMap node? = p.nodes := by
  induction p using induction_of_visits visits_eq with
  | step p ih =>
      rw [visits_eq, nodes_eq, List.filterMap_cons, List.filterMap_flatMap, List.flatMap_congr ih]
      cases p <;> rfl

end Part

end Shading
