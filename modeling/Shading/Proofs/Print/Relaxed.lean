import Shading.Print.Stmt
import Shading.Proofs.Except

/-!
# Printing in a dialect with fewer demands

Of two dialects one has the built-in functions and the items that the other one has. It writes
what the other one writes, whatever the two spell differently and wherever their lines begin.
-/

namespace Shading

instance : Nonempty Writer := ⟨.empty⟩

/-- The second dialect demands less than the first one. -/
structure Dialect.Relaxed (E C : CodegenError → Prop) (d d' : Dialect) : Prop where
  builtin (f : BuiltinFunction) (s : Span) :
    Except.Relaxed E C (d.builtin f s) (d'.builtin f s)
  admits (s : Stmt) : Except.Relaxed E C (d.admits s) (d'.admits s)

variable {E C : CodegenError → Prop} {d d' : Dialect}

namespace Expr

mutual

/-- Where an expression has a text in the first dialect, it has one in the second or meets an error
that is granted there. -/
theorem relaxed_text (h : d.Relaxed E C d') (e : Expr) :
    Except.Relaxed E C (e.text d) (e.text d') := by
  cases e with
  | constant s v => exact .ok
  | ref s n => exact .ok
  | index s base place =>
      rw [text, text]
      exact (relaxed_text h base).bind fun _ _ => (relaxed_text h place).bind fun _ _ => .ok
  | field s base n =>
      rw [text, text]
      exact (relaxed_text h base).bind fun _ _ => .ok
  | swizzle s base w =>
      rw [text, text]
      exact (relaxed_text h base).bind fun _ _ => .ok
  | assign s op target value =>
      rw [text, text]
      exact (relaxed_text h target).bind fun _ _ => (relaxed_text h value).bind fun _ _ => .ok
  | unary s op operand =>
      rw [text, text]
      exact (relaxed_text h operand).bind fun _ _ => .ok
  | binary s op left right =>
      rw [text, text]
      exact (relaxed_text h left).bind fun _ _ => (relaxed_text h right).bind fun _ _ => .ok
  | call s n args =>
      rw [text, text]
      exact (relaxed_textList h args).bind fun _ _ => .ok
  | builtin s f args =>
      rw [text, text]
      exact (h.builtin f s).bind fun _ _ => (relaxed_textList h args).bind fun _ _ => .ok
  | cast s t args =>
      rw [text, text]
      exact (relaxed_textList h args).bind fun _ _ => .ok
  | ternary s c t f =>
      rw [text, text]
      exact (relaxed_text h c).bind fun _ _ => (relaxed_text h t).bind fun _ _ =>
        (relaxed_text h f).bind fun _ _ => .ok

theorem relaxed_textList (h : d.Relaxed E C d') (es : List Expr) :
    Except.Relaxed E C (textList d es) (textList d' es) := by
  cases es with
  | nil => exact .ok
  | cons e rest =>
      rw [textList, textList]
      exact (relaxed_text h e).bind fun _ _ => (relaxed_textList h rest).bind fun _ _ => .ok

end

end Expr

namespace Dialect

section Parts

variable (h : d.Relaxed E C d') (w w' : Writer)

include h

theorem relaxed_expr (e : Expr) : Except.Relaxed E C (d.expr e w) (d'.expr e w') :=
  (e.relaxed_text h).bind fun _ _ => .ok

theorem relaxed_exprAfter (lead : String) (e : Option Expr) :
    Except.Relaxed E C (d.exprAfter lead e w) (d'.exprAfter lead e w') := by
  cases e with
  | none => exact .ok
  | some e => exact relaxed_expr h _ _ e

theorem relaxed_variableDeclaration (v : VariableDeclaration) :
    Except.Relaxed E C (d.variableDeclaration v w) (d'.variableDeclaration v w') :=
  relaxed_exprAfter h _ _ _ v.initializer

theorem relaxed_optionEntries (os : List OptionDeclaration) :
    Except.Relaxed E C (d.optionEntries os w) (d'.optionEntries os w') := by
  induction os generalizing w w' with
  | nil => exact .ok
  | cons o rest ih => exact (relaxed_exprAfter h _ _ _ o.default).bind fun _ _ => ih _ _

theorem relaxed_constEntries (cs : List ConstDeclaration) :
    Except.Relaxed E C (d.constEntries cs w) (d'.constEntries cs w') := by
  induction cs generalizing w w' with
  | nil => exact .ok
  | cons c rest ih => exact (relaxed_expr h _ _ c.value).bind fun _ _ => ih _ _

end Parts

mutual

/-- What the first dialect writes of a statement the second one writes as well. -/
theorem relaxed_openStmt (h : d.Relaxed E C d') (s : Stmt) (w w' : Writer) :
    Except.Relaxed E C (d.openStmt s w) (d'.openStmt s w') := by
  match s with
  | .branch p arms otherwise =>
      rw [openStmt, openStmt]
      exact (relaxed_arms h _ arms w w').bind fun w w' => relaxed_alternative h otherwise w w'
  | .forLoop p init condition step body =>
      rw [openStmt, openStmt]
      exact (relaxed_clause h init _ _).bind fun _ _ =>
        (relaxed_exprAfter h _ _ _ condition).bind fun _ _ =>
          (relaxed_exprAfter h _ _ _ step).bind fun _ _ =>
            (relaxed_openStmt h body _ _).bind fun _ _ => .ok
  | .whileLoop p condition body =>
      rw [openStmt, openStmt]
      exact (relaxed_expr h _ _ condition).bind fun _ _ =>
        (relaxed_openStmt h body _ _).bind fun _ _ => .ok
  | .doWhile p body condition =>
      rw [openStmt, openStmt]
      exact (relaxed_openStmt h body _ _).bind fun _ _ =>
        (relaxed_expr h _ _ condition).bind fun _ _ => .ok
  | .var p v =>
      rw [openStmt, openStmt]
      exact (relaxed_variableDeclaration h w w' v).bind fun _ _ => .ok
  | .expr p e => exact (relaxed_expr h w w' e).bind fun _ _ => .ok
  | .leaveLoop p | .nextRound p | .discard p | .ret p none => exact .ok
  | .ret p (some e) => exact (relaxed_expr h _ _ e).bind fun _ _ => .ok
  | .block p items =>
      rw [openStmt, openStmt]
      exact (relaxed_stmts h items _ _).bind fun _ _ => .ok
  | .struct p s => exact (h.admits _).bind fun _ _ => .ok
  | .inputs p vs | .outputs p vs | .externals p vs => exact (h.admits _).bind fun _ _ => .ok
  | .library p path => exact (h.admits _).bind fun _ _ => .ok
  | .options p os =>
      rw [openStmt, openStmt]
      exact (h.admits _).bind fun _ _ => (relaxed_optionEntries h _ _ os).bind fun _ _ => .ok
  | .consts p cs =>
      rw [openStmt, openStmt]
      exact (h.admits _).bind fun _ _ => (relaxed_constEntries h _ _ cs).bind fun _ _ => .ok
  | .function p f items =>
      rw [openStmt, openStmt]
      exact (h.admits _).bind fun _ _ => (relaxed_stmts h items _ _).bind fun _ _ => .ok
  | .optional p condition body otherwise =>
      rw [openStmt, openStmt]
      exact (h.admits _).bind fun _ _ => (relaxed_expr h _ _ condition).bind fun _ _ =>
        (relaxed_openStmt h body _ _).bind fun _ _ =>
          relaxed_optionalAlternative h otherwise _ _

theorem relaxed_stmts (h : d.Relaxed E C d') (ss : List Stmt) (w w' : Writer) :
    Except.Relaxed E C (d.stmts ss w) (d'.stmts ss w') := by
  match ss with
  | [] => exact .ok
  | s :: rest =>
      rw [stmts, stmts]
      exact (relaxed_openStmt h s w w').bind fun _ _ => relaxed_stmts h rest _ _

theorem relaxed_arms (h : d.Relaxed E C d') (lead : String) (as : List (Expr × Stmt))
    (w w' : Writer) : Except.Relaxed E C (d.arms lead as w) (d'.arms lead as w') := by
  match as with
  | [] => exact .ok
  | (c, s) :: rest =>
      rw [arms, arms]
      exact (relaxed_expr h _ _ c).bind fun _ _ => (relaxed_openStmt h s _ _).bind fun _ _ =>
        relaxed_arms h _ rest _ _

theorem relaxed_alternative (h : d.Relaxed E C d') (s : Option Stmt) (w w' : Writer) :
    Except.Relaxed E C (d.alternative s w) (d'.alternative s w') := by
  match s with
  | none => exact .ok
  | some s => exact (relaxed_openStmt h s _ _).bind fun _ _ => .ok

theorem relaxed_optionalAlternative (h : d.Relaxed E C d') (s : Option Stmt) (w w' : Writer) :
    Except.Relaxed E C (d.optionalAlternative s w) (d'.optionalAlternative s w') := by
  match s with
  | none => exact .ok
  | some s =>
      have hopen := relaxed_openStmt h s
      cases s with
      | optional p c b o => exact hopen _ _
      | _ => exact (hopen _ _).bind fun _ _ => .ok

theorem relaxed_clause (h : d.Relaxed E C d') (s : Option Stmt) (w w' : Writer) :
    Except.Relaxed E C (d.clause s w) (d'.clause s w') := by
  match s with
  | none => exact .ok
  | some s =>
      have hopen := relaxed_openStmt h s
      cases s with
      | var p v => exact relaxed_variableDeclaration h w w' v
      | expr p e => exact relaxed_expr h w w' e
      | _ => exact (hopen w w').bind fun _ _ => .ok

end

end Dialect

end Shading
