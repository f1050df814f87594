import Shading.Proofs.Parse.Grammar
import Shading.Proofs.Parse.Holds

/-!
# Expressions and statements over a source text

Each production of expressions and of statements gives its tree a span that covers what it has
taken, with the parts one after the other in it, and fails at a place in the source.
-/

namespace Shading

open Cursor (Start Taken Since)

namespace Parse

variable {source : List Char} {t : Token} {os : List Outline}

/-- The production lays out the expression that it reads. -/
abbrev LaysExpr (source : List Char) (m : Parse Expr) : Prop := Lays source m fun e => [e.outline]

/-- The production lays out the statement that it reads. -/
abbrev LaysStmt (source : List Char) (m : Parse Stmt) : Prop := Lays source m fun s => [s.outline]

section Expressions

variable {names : Names} {inner : Parse Expr} (hinner : LaysExpr source inner)
include hinner

/-- The arguments of a call are laid out in order. -/
theorem holds_arguments (fuel : Nat) : Holds source (Taken source t os) (arguments inner fuel)
    fun es => Taken source t (os ++ Expr.outlines es) := by
  refine .expect (.eat (.pure fun c hc => ?_) ?_)
  · simpa [Expr.outlines] using hc
  · refine (hinner.separated _ t os).bind fun es => .expect (.pure fun c hc => ?_)
    rwa [Expr.outlines_eq_flatMap]

/-- A name with its arguments is one part. -/
theorem holds_named (fuel : Nat) (name : String) (hk : t.kind ≠ .eof) :
    Holds source (Start source t) (named names inner fuel t name)
      fun e => Taken source t [e.outline] := by
  unfold named
  split
  · rename_i base htype
    refine .takeStart hk ((holds_arraySuffix base).bind fun target => .kind fun k => .left ?_)
    refine .ite (fun _ => ?_) fun _ => .unexpected fun _ hc => hc.sound
    exact (holds_arguments hinner fuel).bind fun es => .finish fun _ => rfl
  · refine .takeStart hk (.kind fun k => .left (.ite (fun _ => ?_) fun _ => .pure fun c hc => ?_))
    · refine (holds_arguments hinner fuel).bind fun es => .spanFrom fun s => ?_
      split
      · exact .pure fun _ hc => hc
      · exact .pure fun _ hc => hc
    · exact hc.wrap (Nat.le_refl _) (.nil hc.start.start_le_stop) hc.stop_le

/-- An operand is one part, and its own parts lie in it. -/
theorem lays_primary (fuel : Nat) : LaysExpr source (primary names inner fuel) := by
  intro t
  refine .lookStart ?_
  split
  · rename_i constant hliteral
    refine .takeStart (ne_eof_of_literal? hliteral) (.pure fun c hc => ?_)
    exact hc.wrap (Nat.le_refl _) (.nil hc.start.start_le_stop) hc.stop_le
  · split
    · exact .failAt fun _ hc => hc.inSource
    -- Parentheses are taken and leave the span of what is in them as it is.
    · rename_i heq
      refine .takeStart (by simp [heq]) (hinner.andThen fun e => .expect (.pure fun _ hc => hc))
    · rename_i name heq
      exact holds_named hinner fuel name (by simp [heq])
    · exact .failAt fun _ hc => hc.inSource

/-- The suffixes stretch the expression that they follow. -/
theorem holds_suffixes (fuel : Nat) (e : Expr) :
    Holds source (Taken source t [e.outline]) (suffixes inner fuel e)
      fun e' => Taken source t [e'.outline] := by
  induction fuel generalizing e with
  | zero => exact .spent fun _ hc => hc.sound
  | succ fuel ih =>
      refine .eat ?_ (.eat ?_ (.pure fun _ hc => hc))
      · refine hinner.andThen fun place => .expect ?_
        rw [← e.span_outline]
        exact .spanFromFirst fun s => ih (.index s e place)
      · refine .identifier fun name span => ?_
        have hmember {c : Cursor} (hc : Taken source t [e.outline] c ∧ span = c.previous) :
            Taken source t [.node (e.span.merge span) [e.outline]] c := by
          rw [hc.2, ← e.span_outline]
          exact hc.1.spanFromFirst
        dsimp only
        split
        · rename_i selection hname
          exact (ih (.swizzle (e.span.merge span) e selection)).imp (fun _ => hmember)
            fun _ _ h => h
        · exact (ih (.field (e.span.merge span) e name)).imp (fun _ => hmember) fun _ _ h => h

end Expressions

theorem lays_unary {operand : Parse Expr} (hoperand : LaysExpr source operand) (fuel : Nat) :
    LaysExpr source (unary operand fuel) := by
  induction fuel with
  | zero => exact fun _ => .spent fun _ hc => hc.sound
  | succ fuel ih =>
      intro t
      refine .lookStart ?_
      split
      · rename_i op hop
        have hk : t.kind ≠ .eof := by
          intro heof
          rw [heof] at hop
          cases hop
        refine .takeStart hk (.look fun u => .ite (fun hmin => ?_) fun _ => .left ?_)
        -- A negated minimum is one constant, which spans its sign and its digits.
        · refine .takeLooked (by simp [hmin.2]) (.pure fun c hc => ?_)
          exact hc.2 ▸ hc.1.spanFrom
        · refine ih.andThen fun e => .pure fun c hc => ?_
          have hspan := hc.spanTo
          rwa [e.span_outline] at hspan
      · refine .ite (fun hplus => ?_) fun _ => hoperand t
        refine .takeStart (by simp [hplus]) ?_
        exact (ih.after t [])

/-- Climbing extends the expression on the left, one operator at a time. -/
theorem holds_climb {operand : Parse Expr} (hoperand : LaysExpr source operand) (fuel : Nat)
    (min : Precedence) (left : Expr) :
    Holds source (Taken source t [left.outline]) (climb operand fuel min left)
      fun e => Taken source t [e.outline] := by
  induction fuel generalizing t min left with
  | zero => exact .spent fun _ hc => hc.sound
  | succ fuel ih =>
      refine .kind fun k => ?_
      split
      · rename_i op hop
        refine .ite (fun _ => .left (.pure fun _ hc => hc)) fun _ => ?_
        refine .take (ne_eof_of_binaryOp? hop) ?_
        have hright : LaysExpr source (do climb operand fuel op.precedence.next (← operand)) :=
          fun u => hoperand.bind fun r => ih op.precedence.next r
        refine hright.andThen fun r => (ih min _).imp (fun c hc => ?_) fun _ _ h => h
        have hspan := Taken.merge [] hc
        rwa [left.span_outline, r.span_outline] at hspan
      · exact .left (.pure fun _ hc => hc)

theorem lays_binary {operand : Parse Expr} (hoperand : LaysExpr source operand) (fuel : Nat)
    (min : Precedence) : LaysExpr source (binary operand fuel min) :=
  fun _ => hoperand.bind fun left => holds_climb hoperand fuel min left

theorem lays_ternary {condition inner : Parse Expr} (hcondition : LaysExpr source condition)
    (hinner : LaysExpr source inner) (fuel : Nat) :
    LaysExpr source (ternary condition inner fuel) := by
  induction fuel with
  | zero => exact fun _ => .spent fun _ hc => hc.sound
  | succ fuel ih =>
      refine fun t => hcondition.bind fun e => .eat ?_ (.pure fun _ hc => hc)
      refine hinner.andThen fun whenTrue => .expect (ih.andThen fun whenFalse => ?_)
      refine .pure fun c hc => ?_
      have hspan := Taken.merge [whenTrue.outline] hc
      rwa [e.span_outline, whenFalse.span_outline] at hspan

theorem lays_assignment {target : Parse Expr} (htarget : LaysExpr source target) (fuel : Nat) :
    LaysExpr source (assignment target fuel) := by
  induction fuel with
  | zero => exact fun _ => .spent fun _ hc => hc.sound
  | succ fuel ih =>
      refine fun t => htarget.bind fun e => .kind fun k => ?_
      split
      · rename_i op hop
        refine .take (ne_eof_of_assignOp? hop) (ih.andThen fun value => .pure fun c hc => ?_)
        have hspan := Taken.merge [] hc
        rwa [e.span_outline, value.span_outline] at hspan
      · exact .left (.pure fun _ hc => hc)

/-- An expression is one part. -/
theorem lays_expression (names : Names) (fuel : Nat) : LaysExpr source (expression names fuel) := by
  induction fuel with
  | zero => exact fun _ => .spent fun _ hc => hc.sound
  | succ fuel ih =>
      have hsuffixed : LaysExpr source (do
          suffixes (expression names fuel) (fuel + 1)
            (← primary names (expression names fuel) fuel)) :=
        fun t => (lays_primary ih fuel).bind fun e => holds_suffixes ih _ e
      have hoperand := lays_unary hsuffixed (fuel + 1)
      have hcondition := lays_binary hoperand (fuel + 1) .or
      exact lays_assignment (lays_ternary hcondition ih _) _

section Statements

variable {names : Names} {fuel : Nat}

theorem holds_condition : Holds source (Taken source t os) (condition names fuel)
    fun e => Taken source t (os ++ [e.outline]) :=
  .expect ((lays_expression names fuel).andThen fun _ => .expect (.pure fun _ hc => hc))

/-- A declaration of a variable is finished where its semicolon stands. -/
theorem holds_finishVariable (isConst : Bool) (ty : Ty) (name : String) :
    Holds source (Taken source t []) (finishVariable names fuel t.span isConst ty name)
      fun s => Taken source t [s.outline] := by
  have hend (initializer : Option Expr) :
      Holds source (Taken source t (Expr.outlineOption initializer))
        (do
          expect .semicolon
          return Stmt.var (← spanFrom t.span) ⟨name, ty, isConst, initializer⟩)
        fun s => Taken source t [s.outline] :=
    .expect (.finish fun _ => rfl)
  exact .eat ((lays_expression names fuel).andThen fun e => hend (some e)) (hend none)

theorem lays_variableDeclaration : LaysStmt source (variableDeclaration names fuel) := by
  intro t
  have hend (isConst : Bool) : Holds source (Since source t)
      (do
        let ty ← type names
        let name ← identifier
        finishVariable names fuel t.span isConst ty name.1)
      fun s => Taken source t [s.outline] :=
    (lays_type names).since.bind fun ty => lays_identifier.skip fun name =>
      holds_finishVariable isConst ty name.1
  have hconst := (hend true).imp (fun _ hc => .inr hc) fun _ _ h => h
  exact .lookStart (.start (.eatKeywordSince hconst (hend false)))

theorem holds_expressionUnless (close : Symbol) :
    Holds source (Taken source t os) (expressionUnless names fuel close)
      fun e => Taken source t (os ++ Expr.outlineOption e) := by
  refine .kind fun k => .left (.ite (fun _ => .pure fun c hc => ?_) fun _ => ?_)
  · simpa [Expr.outlineOption] using hc
  · exact (lays_expression names fuel).andThen fun e => .pure fun _ hc => hc

/-- The head of a loop is laid out behind what was there. -/
theorem holds_forInit : Holds source (Taken source t os) (forInit names fuel)
    fun s => Taken source t (os ++ Stmt.outlineOption s) := by
  have hexpression : Lays source
      (do
        let start ← look
        let e ← expression names fuel
        expect .semicolon
        return some (Stmt.expr (← spanFrom start.span) e))
      Stmt.outlineOption :=
    fun _ => .lookStart ((lays_expression names fuel).bind fun _ => .expect
      (.finish fun _ => rfl))
  refine .eat (.pure fun c hc => ?_) (.kind fun k => .left (.atDeclaration fun b => ?_))
  · rwa [Stmt.outlineOption, List.append_nil]
  · refine .ite (fun _ => ?_) fun _ => hexpression.after t os
    exact lays_variableDeclaration.andThen fun s => .pure fun _ hc => hc

end Statements

section Bodies

variable {names : Names} {inner : Parse Stmt} (hinner : LaysStmt source inner) {fuel : Nat}
include hinner

/-- Statements or items between braces. -/
theorem lays_braced : Lays source (braced inner fuel) Stmt.outlines := by
  refine fun t => .start (.expectSince ?_)
  refine (hinner.upTo (.symbol .rbrace) _ t []).bind fun ss => ?_
  rw [← Stmt.outlines_eq_flatMap]
  exact .expect (.pure fun _ hc => hc)

theorem holds_arm : Holds source (Taken source t os) (arm names inner fuel)
    fun a => Taken source t (os ++ [a.1.outline, a.2.outline]) := by
  refine holds_condition.bind fun condition => hinner.andThen fun body => .pure fun c hc => ?_
  rwa [List.append_assoc, List.singleton_append] at hc

theorem holds_moreArms (n : Nat) : Holds source (Taken source t os) (moreArms names inner fuel n)
    fun r => Taken source t (os ++ (Stmt.outlinesArms r.1 ++ Stmt.outlineOption r.2)) := by
  induction n generalizing os with
  | zero => exact .spent fun _ hc => hc.sound
  | succ n ih =>
      refine .eatKeyword (.eatKeyword ?_ ?_) (.pure fun c hc => ?_)
      · refine (holds_arm hinner).bind fun a => ih.bind fun r => .pure fun c hc => ?_
        simpa [Stmt.outlinesArms] using hc
      · exact hinner.andThen fun s => .pure fun _ hc => hc
      · rwa [← List.append_nil os] at hc

/-- A loop is one part that begins at its keyword. -/
theorem holds_forLoop (hk : t.kind ≠ .eof) :
    Holds source (Start source t) (forLoop names inner fuel)
      fun s => Taken source t [s.outline] := by
  refine .lookStart (.takeStart hk (.expect (holds_forInit.bind fun init => ?_)))
  refine (holds_expressionUnless _).bind fun test => .expect ?_
  refine (holds_expressionUnless _).bind fun step => .expect (hinner.andThen fun body => ?_)
  exact .finish fun _ => rfl

end Bodies

section Optional

variable {names : Names} {items : Parse (List Stmt)} (hitems : Lays source items Stmt.outlines)
include hitems

theorem lays_optionalBody : LaysStmt source (optionalBody items) :=
  fun _ => .lookStart (hitems.bind fun _ => .finish fun _ => rfl)

theorem lays_optional (fuel n : Nat) : LaysStmt source (optional names items fuel n) := by
  induction n with
  | zero => exact fun _ => .spent fun _ hc => hc.sound
  | succ n ih =>
      have hbody := lays_optionalBody hitems
      refine fun t => .lookStart (.start (.expectKeywordSince (holds_condition.bind fun c => ?_)))
      refine hbody.andThen fun body => ?_
      have hend (otherwise : Option Stmt) :
          Holds source
            (Taken source t ([c.outline] ++ [body.outline] ++ Stmt.outlineOption otherwise))
            (do return Stmt.optional (← spanFrom t.span) c body otherwise)
            fun s => Taken source t [s.outline] :=
        .finish fun _ => rfl
      refine .eatKeyword (.kind fun k => .left (.ite (fun _ => ?_) fun _ => ?_)) (hend none)
      · exact ih.andThen fun s => hend (some s)
      · exact hbody.andThen fun s => hend (some s)

end Optional

/-- A statement is laid out from its first token to its last one. -/
theorem lays_statement (names : Names) (fuel : Nat) : LaysStmt source (statement names fuel) := by
  induction fuel with
  | zero => exact fun _ => .spent fun _ hc => hc.sound
  | succ fuel ih =>
      intro t
      refine .lookStart ?_
      split
      · exact (lays_braced ih).bind fun ss => .finish fun _ => rfl
      · rename_i hk
        refine .takeStart (by simp [hk]) ((holds_arm ih).bind fun first => ?_)
        exact (holds_moreArms ih _).bind fun r => .finish fun _ => rfl
      · rename_i hk
        exact holds_forLoop ih (by simp [hk])
      · rename_i hk
        refine .takeStart (by simp [hk]) (holds_condition.bind fun c => ?_)
        exact ih.andThen fun body => .finish fun _ => rfl
      · rename_i hk
        refine .takeStart (by simp [hk]) (ih.andThen fun body => .expectKeyword ?_)
        exact holds_condition.bind fun c => .expect (.finish fun _ => rfl)
      · rename_i hk
        exact .takeStart (by simp [hk]) (.expect (.finish fun _ => rfl))
      · rename_i hk
        exact .takeStart (by simp [hk]) (.expect (.finish fun _ => rfl))
      · rename_i hk
        exact .takeStart (by simp [hk]) (.expect (.finish fun _ => rfl))
      · rename_i hk
        refine .takeStart (by simp [hk]) ((holds_expressionUnless _).bind fun value => ?_)
        exact .expect (.finish fun _ => rfl)
      · exact lays_optional (lays_braced ih) fuel fuel t
      · exact lays_variableDeclaration t
      · refine .atDeclaration fun b => .ite (fun _ => lays_variableDeclaration t) fun _ => ?_
        exact (lays_expression names fuel).bind fun e => .expect (.finish fun _ => rfl)

end Parse

end Shading
