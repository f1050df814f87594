import Mathlib.Tactic.Common
import Shading.Proofs.Except
import Shading.Syntax.Edit

/-!
# The editor that changes nothing

Editing with `Editor.copy` succeeds with the tree that it was given, so a copy of a
tree is the tree.
-/

namespace Shading

variable {ε : Type}

/-- A walk that returns every element as it is returns the list as it is. -/
theorem List.mapM_ok_self {α : Type} {f : α → Except ε α} (h : ∀ a, f a = .ok a)
    (l : List α) : l.mapM f = .ok l := by
  induction l with
  | nil => rfl
  | cons a rest ih =>
      rw [List.mapM_cons, h a, Except.ok_bind, ih]
      rfl

namespace Expr

mutual

/-- Editing an expression without changing anything gives that expression, and never fails. -/
theorem edit_copy (e : Expr) : e.edit (Editor.copy : Editor ε) = .ok e := by
  cases e with
  | constant s v => rfl
  | ref s n => rfl
  | index s base place =>
      rw [edit, edit_copy base, edit_copy place]
      rfl
  | field s base n =>
      rw [edit, edit_copy base]
      rfl
  | assign s op target value =>
      rw [edit, edit_copy target, edit_copy value]
      rfl
  | unary s op operand =>
      rw [edit, edit_copy operand]
      rfl
  | binary s op left right =>
      rw [edit, edit_copy left, edit_copy right]
      rfl
  | call s n args =>
      rw [edit, editList_copy args]
      rfl
  | builtin s f args =>
      rw [edit, editList_copy args]
      rfl
  | cast s target args =>
      rw [edit, editList_copy args]
      rfl
  | swizzle s base selection =>
      rw [edit, edit_copy base]
      rfl
  | ternary s c t f =>
      rw [edit, edit_copy c, edit_copy t, edit_copy f]
      rfl

theorem editList_copy (es : List Expr) :
    editList (Editor.copy : Editor ε) es = .ok es := by
  cases es with
  | nil => rfl
  | cons e rest =>
      rw [editList, edit_copy e, editList_copy rest]
      rfl

end

theorem editOption_copy (e : Option Expr) :
    editOption (Editor.copy : Editor ε) e = .ok e := by
  cases e with
  | none => rfl
  | some e =>
      rw [editOption, edit_copy e]
      rfl

end Expr

namespace Editor

/-- The default of an option is copied as any expression. -/
theorem optionDeclaration_copy (d : OptionDeclaration) :
    (copy : Editor ε).optionDeclaration d = .ok d := by
  rw [optionDeclaration, Expr.editOption_copy]
  rfl

theorem constDeclaration_copy (d : ConstDeclaration) :
    (copy : Editor ε).constDeclaration d = .ok d := by
  rw [constDeclaration, Expr.edit_copy]
  rfl

theorem structField_copy (f : StructField) :
    (copy : Editor ε).structField f = .ok f := rfl

theorem interfaceVariable_copy (v : InterfaceVariable) :
    (copy : Editor ε).interfaceVariable v = .ok v := rfl

theorem externalVariable_copy (v : ExternalVariable) :
    (copy : Editor ε).externalVariable v = .ok v := rfl

theorem parameter_copy (p : Parameter) : (copy : Editor ε).parameter p = .ok p := rfl

/-- A signature is copied with its parameters and its entry point. -/
theorem signature_copy (f : Signature) : (copy : Editor ε).signature f = .ok f := by
  rw [signature, List.mapM_ok_self parameter_copy]
  rfl

end Editor

namespace Stmt

mutual

/-- Editing a statement without changing anything gives that statement, and never fails. The
induction is over the statement, with its lists beside it. -/
theorem edit_copy (s : Stmt) : s.edit (Editor.copy : Editor ε) = .ok s := by
  cases s with
  | branch s arms otherwise =>
      rw [edit, editArms_copy arms, editOption_copy otherwise]
      rfl
  | forLoop s init condition step body =>
      rw [edit, editOption_copy init, Expr.editOption_copy, Expr.editOption_copy,
        edit_copy body]
      rfl
  | whileLoop s condition body =>
      rw [edit, Expr.edit_copy, edit_copy body]
      rfl
  | doWhile s body condition =>
      rw [edit, Expr.edit_copy, edit_copy body]
      rfl
  | var s d =>
      rw [edit, Expr.editOption_copy]
      rfl
  | struct s d =>
      rw [edit, List.mapM_ok_self Editor.structField_copy]
      rfl
  | inputs s entries =>
      rw [edit, List.mapM_ok_self Editor.interfaceVariable_copy]
      rfl
  | outputs s entries =>
      rw [edit, List.mapM_ok_self Editor.interfaceVariable_copy]
      rfl
  | externals s entries =>
      rw [edit, List.mapM_ok_self Editor.externalVariable_copy]
      rfl
  | options s entries =>
      rw [edit, List.mapM_ok_self Editor.optionDeclaration_copy]
      rfl
  | consts s entries =>
      rw [edit, List.mapM_ok_self Editor.constDeclaration_copy]
      rfl
  | function s f body =>
      rw [edit, Editor.signature_copy, editList_copy body]
      rfl
  | expr s e =>
      rw [edit, Expr.edit_copy]
      rfl
  | leaveLoop s => rfl
  | nextRound s => rfl
  | ret s value =>
      rw [edit, Expr.editOption_copy]
      rfl
  | discard s => rfl
  | block s items =>
      rw [edit, editList_copy items]
      rfl
  | optional s condition body otherwise =>
      rw [edit, Expr.edit_copy, edit_copy body, editOption_copy otherwise]
      rfl
  | library s path => rfl

theorem editList_copy (ss : List Stmt) :
    editList (Editor.copy : Editor ε) ss = .ok ss := by
  cases ss with
  | nil => rfl
  | cons s rest =>
      rw [editList, edit_copy s, editList_copy rest]
      rfl

theorem editArms_copy (arms : List (Expr × Stmt)) :
    editArms (Editor.copy : Editor ε) arms = .ok arms := by
  match arms with
  | [] => rfl
  | (c, s) :: rest =>
      rw [editArms, Expr.edit_copy, edit_copy s, editArms_copy rest]
      rfl

theorem editOption_copy (s : Option Stmt) :
    editOption (Editor.copy : Editor ε) s = .ok s := by
  cases s with
  | none => rfl
  | some s =>
      rw [editOption, edit_copy s]
      rfl

end

/-- A copy is the statement it was made of. -/
@[simp] theorem copy_eq (s : Stmt) : s.copy = s := by
  rw [copy, edit_copy]

end Stmt

end Shading
