import Shading.Proofs.Glsl.Declarations
import Shading.Syntax.Node

/-!
# The types that a text spells

What the writers of expressions, statements and declarations spell of types, form by form.
The analysis that looks for structs walks the nodes of a tree instead, and meets all of them.
-/

namespace Shading

namespace Expr

mutual

/-- The types that the text of an expression spells: those of its conversions. -/
def writtenTypes : Expr → List Ty
  | .constant .. | .ref .. => []
  | .index _ base place => base.writtenTypes ++ place.writtenTypes
  | .field _ base _ | .swizzle _ base _ => base.writtenTypes
  | .assign _ _ target value => target.writtenTypes ++ value.writtenTypes
  | .unary _ _ operand => operand.writtenTypes
  | .binary _ _ left right => left.writtenTypes ++ right.writtenTypes
  | .call _ _ args | .builtin _ _ args => writtenTypesList args
  | .cast _ target args => target :: writtenTypesList args
  | .ternary _ c t f => c.writtenTypes ++ t.writtenTypes ++ f.writtenTypes

def writtenTypesList : List Expr → List Ty
  | [] => []
  | e :: es => e.writtenTypes ++ writtenTypesList es

end

def writtenTypesOption : Option Expr → List Ty
  | none => []
  | some e => e.writtenTypes

mutual

/-- A type that is written in an expression is one of its nodes. -/
theorem type_mem_nodes {t : Ty} (e : Expr) (h : t ∈ e.writtenTypes) : .type t ∈ e.nodes := by
  cases e with
  | constant | ref => cases h
  | index s a b | assign s op a b | binary s op a b =>
      rw [nodes]
      apply List.mem_cons_of_mem
      apply List.mem_append.mpr
      exact (List.mem_append.mp h).imp (type_mem_nodes a) (type_mem_nodes b)
  | field s a n | swizzle s a n | unary s op a =>
      rw [nodes]
      exact List.mem_cons_of_mem _ (type_mem_nodes a h)
  | call s n es | builtin s f es =>
      rw [nodes]
      exact List.mem_cons_of_mem _ (type_mem_nodesList es h)
  | cast s target es =>
      rw [nodes]
      apply List.mem_cons_of_mem
      rcases List.mem_cons.mp h with rfl | h
      · exact List.mem_cons_self
      · exact List.mem_cons_of_mem _ (type_mem_nodesList es h)
  | ternary s a b c =>
      rw [nodes]
      apply List.mem_cons_of_mem
      simp only [writtenTypes, List.mem_append] at h ⊢
      exact h.imp (Or.imp (type_mem_nodes a) (type_mem_nodes b)) (type_mem_nodes c)

theorem type_mem_nodesList {t : Ty} (es : List Expr) (h : t ∈ writtenTypesList es) :
    .type t ∈ nodesList es := by
  cases es with
  | nil => cases h
  | cons e es =>
      rw [nodesList]
      apply List.mem_append.mpr
      exact (List.mem_append.mp h).imp (type_mem_nodes e) (type_mem_nodesList es)

end

theorem type_mem_nodesOption {t : Ty} (e : Option Expr) (h : t ∈ writtenTypesOption e) :
    .type t ∈ nodesOption e := by
  cases e with
  | none => cases h
  | some e => exact type_mem_nodes e h

end Expr

namespace Stmt

mutual

/-- The types that the text of a statement of a function spells. The target has no form for
the other declarations and for optional blocks there. -/
def writtenTypes : Stmt → List Ty
  | .branch _ arms otherwise => writtenTypesArms arms ++ writtenTypesOption otherwise
  | .forLoop _ init condition step body =>
    writtenTypesOption init ++ Expr.writtenTypesOption condition ++
      Expr.writtenTypesOption step ++ body.writtenTypes
  | .whileLoop _ condition body => condition.writtenTypes ++ body.writtenTypes
  | .doWhile _ body condition => body.writtenTypes ++ condition.writtenTypes
  | .var _ d => d.type :: Expr.writtenTypesOption d.initializer
  | .expr _ e => e.writtenTypes
  | .ret _ value => Expr.writtenTypesOption value
  | .block _ items => writtenTypesList items
  | .leaveLoop _ | .nextRound _ | .discard _ => []
  | .struct .. | .inputs .. | .outputs .. | .externals .. | .options .. | .consts ..
  | .function .. | .optional .. | .library .. => []

def writtenTypesList : List Stmt → List Ty
  | [] => []
  | s :: ss => s.writtenTypes ++ writtenTypesList ss

def writtenTypesArms : List (Expr × Stmt) → List Ty
  | [] => []
  | (c, s) :: rest => c.writtenTypes ++ s.writtenTypes ++ writtenTypesArms rest

def writtenTypesOption : Option Stmt → List Ty
  | none => []
  | some s => s.writtenTypes

end

mutual

/-- A type that is written in a statement is one of its nodes. -/
theorem type_mem_nodes {t : Ty} (s : Stmt) (h : t ∈ s.writtenTypes) : .type t ∈ s.nodes := by
  cases s with
  | branch b arms otherwise =>
      rw [nodes]
      apply List.mem_cons_of_mem
      apply List.mem_append.mpr
      exact (List.mem_append.mp h).imp (type_mem_nodesArms arms) (type_mem_nodesOption otherwise)
  | forLoop b init condition step body =>
      rw [nodes]
      apply List.mem_cons_of_mem
      simp only [writtenTypes, List.mem_append] at h ⊢
      exact h.imp (Or.imp (Or.imp (type_mem_nodesOption init)
        (Expr.type_mem_nodesOption condition)) (Expr.type_mem_nodesOption step))
        (type_mem_nodes body)
  | whileLoop b condition body =>
      rw [nodes]
      apply List.mem_cons_of_mem
      apply List.mem_append.mpr
      exact (List.mem_append.mp h).imp (Expr.type_mem_nodes condition) (type_mem_nodes body)
  | doWhile b body condition =>
      rw [nodes]
      apply List.mem_cons_of_mem
      apply List.mem_append.mpr
      exact (List.mem_append.mp h).symm.imp (Expr.type_mem_nodes condition) (type_mem_nodes body)
  | var b d =>
      rw [nodes]
      apply List.mem_cons_of_mem
      rcases List.mem_cons.mp h with rfl | h
      · exact List.mem_cons_self
      · exact List.mem_cons_of_mem _ (Expr.type_mem_nodesOption d.initializer h)
  | expr b e =>
      rw [nodes]
      exact List.mem_cons_of_mem _ (Expr.type_mem_nodes e h)
  | ret b value =>
      rw [nodes]
      exact List.mem_cons_of_mem _ (Expr.type_mem_nodesOption value h)
  | block b items =>
      rw [nodes]
      exact List.mem_cons_of_mem _ (type_mem_nodesList items h)
  | leaveLoop | nextRound | discard => cases h
  | struct | inputs | outputs | externals | options | consts | function | optional | library =>
      cases h

theorem type_mem_nodesList {t : Ty} (ss : List Stmt) (h : t ∈ writtenTypesList ss) :
    .type t ∈ nodesList ss := by
  cases ss with
  | nil => cases h
  | cons s ss =>
      rw [nodesList]
      apply List.mem_append.mpr
      exact (List.mem_append.mp h).imp (type_mem_nodes s) (type_mem_nodesList ss)

theorem type_mem_nodesArms {t : Ty} (arms : List (Expr × Stmt)) (h : t ∈ writtenTypesArms arms) :
    .type t ∈ nodesArms arms := by
  match arms with
  | [] => cases h
  | (c, s) :: rest =>
      simp only [writtenTypesArms, nodesArms, List.mem_append] at h ⊢
      exact h.imp (Or.imp (Expr.type_mem_nodes c) (type_mem_nodes s)) (type_mem_nodesArms rest)

theorem type_mem_nodesOption {t : Ty} (s : Option Stmt) (h : t ∈ writtenTypesOption s) :
    .type t ∈ nodesOption s := by
  cases s with
  | none => cases h
  | some s => exact type_mem_nodes s h

end

end Stmt

namespace Glsl

namespace Global

/-- The name that a constant or variable declares. -/
def name : Global → String
  | .const c => c.name
  | .var v => v.name

/-- The type that a constant or variable is declared with. -/
def type : Global → Ty
  | .const c => c.type
  | .var v => v.type

/-- What a constant or variable is set to; a variable may be left without. -/
def initializer : Global → Option Expr
  | .const c => some c.value
  | .var v => v.initializer

end Global

/-- The types that the text of a declaration spells. Of a buffer the fields are written and
not the struct itself. -/
def Declaration.writtenTypes (p : Program) : Declaration → List Ty
  | .struct s => s.fields.map (·.type)
  | .external v =>
    match v.type.structName?.bind p.struct? with
    | some body => body.fields.map (·.type)
    | none => [v.type]
  | .interface v _ _ => [v.type]
  | .global g => g.type :: Expr.writtenTypesOption g.initializer
  | .function f =>
    (f.1.parameters.map (·.type) ++ [f.1.returnType]) ++ Stmt.writtenTypesList f.2

end Glsl

end Shading
