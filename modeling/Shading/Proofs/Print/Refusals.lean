import Shading.Print.Stmt
import Shading.Proofs.Except
import Shading.Proofs.Parse.Placed

/-!
# What a dialect refuses

A dialect has a form for every expression and for every statement of a function. Only the
built-in functions that it does not have make it fail there.
-/

namespace Shading

variable {d : Dialect} {E : CodegenError → Prop}

namespace Expr

mutual

/-- The text of an expression fails with the errors of built-in functions only. -/
theorem failsWithin_text (h : ∀ f b, Except.FailsWithin E (d.builtin f b)) (e : Expr) :
    Except.FailsWithin E (e.text d) := by
  cases e with
  | constant s v => exact .ok trivial
  | ref s n => exact .ok trivial
  | index s base place =>
      rw [text]
      exact (failsWithin_text h base).andThen fun _ =>
        (failsWithin_text h place).andThen fun _ => .ok trivial
  | field s base n =>
      rw [text]
      exact (failsWithin_text h base).andThen fun _ => .ok trivial
  | swizzle s base w =>
      rw [text]
      exact (failsWithin_text h base).andThen fun _ => .ok trivial
  | assign s op target value =>
      rw [text]
      exact (failsWithin_text h target).andThen fun _ =>
        (failsWithin_text h value).andThen fun _ => .ok trivial
  | unary s op operand =>
      rw [text]
      exact (failsWithin_text h operand).andThen fun _ => .ok trivial
  | binary s op left right =>
      rw [text]
      exact (failsWithin_text h left).andThen fun _ =>
        (failsWithin_text h right).andThen fun _ => .ok trivial
  | call s n args =>
      rw [text]
      exact (failsWithin_textList h args).andThen fun _ => .ok trivial
  | builtin s f args =>
      rw [text]
      exact (h f s).andThen fun _ => (failsWithin_textList h args).andThen fun _ => .ok trivial
  | cast s t args =>
      rw [text]
      exact (failsWithin_textList h args).andThen fun _ => .ok trivial
  | ternary s c t f =>
      rw [text]
      exact (failsWithin_text h c).andThen fun _ => (failsWithin_text h t).andThen fun _ =>
        (failsWithin_text h f).andThen fun _ => .ok trivial

theorem failsWithin_textList (h : ∀ f b, Except.FailsWithin E (d.builtin f b)) (es : List Expr) :
    Except.FailsWithin E (textList d es) := by
  cases es with
  | nil => exact .ok trivial
  | cons e rest =>
      rw [textList]
      exact (failsWithin_text h e).andThen fun _ =>
        (failsWithin_textList h rest).andThen fun _ => .ok trivial

end

end Expr

namespace Dialect

open Stmt (Placed Place)

section Statements

variable (h : ∀ f b, Except.FailsWithin E (d.builtin f b))

include h

theorem failsWithin_expr (e : Expr) (w : Writer) : Except.FailsWithin E (d.expr e w) :=
  (e.failsWithin_text h).andThen fun _ => .ok trivial

theorem failsWithin_exprAfter (lead : String) (e : Option Expr) (w : Writer) :
    Except.FailsWithin E (d.exprAfter lead e w) := by
  cases e with
  | none => exact .ok trivial
  | some e => exact failsWithin_expr h e _

theorem failsWithin_variableDeclaration (v : VariableDeclaration) (w : Writer) :
    Except.FailsWithin E (d.variableDeclaration v w) :=
  failsWithin_exprAfter h _ v.initializer _

theorem failsWithin_arms {arms : List (Expr × Stmt)}
    (harms : ∀ a ∈ arms, ∀ w, Except.FailsWithin E (d.openStmt a.2 w)) (lead : String)
    (w : Writer) :
    Except.FailsWithin E (d.arms lead arms w) := by
  induction arms generalizing lead w with
  | nil => exact .ok trivial
  | cons a rest ih =>
      rw [Dialect.arms]
      exact (failsWithin_expr h a.1 _).andThen fun _ =>
        (harms a List.mem_cons_self _).andThen fun _ =>
          ih (fun b hb => harms b (List.mem_cons_of_mem _ hb)) _ _

theorem failsWithin_clause {s : Option Stmt}
    (hs : ∀ t ∈ s, ∀ w, Except.FailsWithin E (d.openStmt t w)) (w : Writer) :
    Except.FailsWithin E (d.clause s w) := by
  cases s with
  | none => exact .ok trivial
  | some s =>
      cases s with
      | var b v => exact failsWithin_variableDeclaration h v w
      | expr b e => exact failsWithin_expr h e w
      | _ => exact (hs _ rfl w).andThen fun _ => .ok trivial

omit h

theorem failsWithin_stmts {ss : List Stmt}
    (hss : ∀ s ∈ ss, ∀ w, Except.FailsWithin E (d.openStmt s w)) (w : Writer) :
    Except.FailsWithin E (d.stmts ss w) := by
  induction ss generalizing w with
  | nil => exact .ok trivial
  | cons s rest ih =>
      rw [stmts]
      exact (hss s List.mem_cons_self w).andThen fun _ =>
        ih (fun t ht => hss t (List.mem_cons_of_mem _ ht)) _

theorem failsWithin_alternative {s : Option Stmt}
    (hs : ∀ t ∈ s, ∀ w, Except.FailsWithin E (d.openStmt t w)) (w : Writer) :
    Except.FailsWithin E (d.alternative s w) := by
  cases s with
  | none => exact .ok trivial
  | some s => exact (hs s rfl _).andThen fun _ => .ok trivial

include h

/-- A statement of a function is written, unless a built-in function in it is refused: the
declarations that a dialect may not have stand in the file only. -/
theorem failsWithin_openStmt {place : Place} {s : Stmt} (hs : s.Placed true place) :
    place = .body → ∀ w, Except.FailsWithin E (d.openStmt s w) := by
  induction hs with
  | var =>
      rintro - w
      exact (failsWithin_variableDeclaration h _ w).andThen fun _ => .ok trivial
  | block _ ih =>
      rintro rfl w
      rw [openStmt]
      exact (failsWithin_stmts (fun s hs => ih s hs rfl) _).andThen fun _ => .ok trivial
  | optional hopen => cases hopen
  | branch _ _ iharms ihother =>
      rintro - w
      rw [openStmt]
      exact (failsWithin_arms h (fun a ha => iharms a ha rfl) _ w).andThen fun _ =>
        failsWithin_alternative (fun s hs => ihother s hs rfl) _
  | forLoop _ _ ihinit ihbody =>
      rintro - w
      rw [openStmt]
      exact (failsWithin_clause h (fun s hs => ihinit s hs rfl) _).andThen fun _ =>
        (failsWithin_exprAfter h _ _ _).andThen fun _ =>
          (failsWithin_exprAfter h _ _ _).andThen fun _ =>
            (ihbody rfl _).andThen fun _ => .ok trivial
  | whileLoop _ ih =>
      rintro - w
      rw [openStmt]
      exact (failsWithin_expr h _ _).andThen fun _ => (ih rfl _).andThen fun _ => .ok trivial
  | doWhile _ ih =>
      rintro - w
      rw [openStmt]
      exact (ih rfl _).andThen fun _ => (failsWithin_expr h _ _).andThen fun _ => .ok trivial
  | expr =>
      rintro - w
      exact (failsWithin_expr h _ w).andThen fun _ => .ok trivial
  | @ret _ value =>
      rintro - w
      cases value with
      | none => exact .ok trivial
      | some e => exact (failsWithin_expr h e _).andThen fun _ => .ok trivial
  | leaveLoop | nextRound | discard =>
      rintro - w
      exact .ok trivial
  | struct | inputs | outputs | externals | options | consts | function | library => nofun

end Statements

end Dialect

end Shading
