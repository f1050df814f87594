import Shading.Proofs.Parse.Advances
import Shading.Proofs.Parse.Complete
import Shading.Proofs.Parse.Derived

/-!
# Productions that take a token

A type, an expression, a statement, a declaration and an entry of a block have a token each.
An expression has one since its tokens derive it; the others have a symbol that every way of
reading them expects.
-/

namespace Shading

namespace Parse

variable {names : Names}

/-- A name takes a token. -/
theorem progresses_identifier : Progresses identifier := by
  apply Progresses.look
  intro t
  split
  · rename_i name hname
    rw [hname]
    exact .take (by simp) (Local.pure _).advances
  · exact (Progresses.unexpected _).at_ _

/-- A test for a kind of token that fails where it finds another one. -/
theorem progresses_test {test : Parse Bool} {k : Kind} (expected : Expected) (hk : k ≠ .eof)
    (htaken : ∀ {c : Cursor}, c.current.kind = k → test c = .ok (true, c.advance))
    (hleft : ∀ {c : Cursor}, c.current.kind ≠ k → test c = .ok (false, c)) :
    Progresses (do if ← test then return () else unexpected expected) := by
  intro c _ c' hrun
  by_cases hc : c.current.kind = k
  · have htake : ProgressesAt k (take >>= fun _ => pure ()) := .take hk (Local.pure _).advances
    refine htake c () c' hc ?_
    rw [← hrun, StateT.bind_of_ok (htaken hc)]
    rfl
  · rw [StateT.bind_of_ok (hleft hc)] at hrun
    cases hrun

theorem progresses_expect (s : Symbol) : Progresses (expect s) :=
  progresses_test (.symbol s) (by simp) eat_of_kind eat_of_kind_ne

theorem progresses_expectKeyword (k : Keyword) : Progresses (expectKeyword k) :=
  progresses_test (.keyword k) (by simp) eatKeyword_of_kind eatKeyword_of_kind_ne

theorem progresses_type (names : Names) : Progresses (type names) := by
  apply Progresses.look
  intro t
  split
  · rename_i name hname
    rw [hname]
    split
    · exact .take (by simp) (Local.arraySuffix _).advances
    · exact (Progresses.failAt _ _).at_ _
  · exact (Progresses.unexpected _).at_ _

/-- The tokens that derive an expression are not none. -/
theorem Sound.progresses {level : Precedence} {m : Parse Expr} (h : Sound names level m)
    (hadvances : Advances m) : Progresses m := by
  intro c e c' hrun
  obtain ⟨taken, hrest, hnot⟩ := hadvances c e c' hrun
  obtain ⟨ks, hks, -, hderives⟩ := h c e c' hrun
  cases taken with
  | cons t taken => exact ⟨t, taken, hrest, hnot⟩
  | nil =>
      have hlength := congrArg List.length hks
      have hpos := hderives.length_pos
      simp only [Cursor.kinds, hrest, List.nil_append, List.length_append, List.length_map]
        at hlength
      omega

theorem progresses_expression (names : Names) (fuel : Nat) : Progresses (expression names fuel) :=
  (sound_expression names fuel).progresses (Production.expression fuel).advances

theorem advances_finish {α : Type} (start : Span) (make : Span → α) :
    Advances (do return make (← spanFrom start)) := (still_finish start make).isLocal.advances

theorem progresses_semicolon {α : Type} (start : Span) (make : Span → α) :
    Progresses (do
      expect .semicolon
      return make (← spanFrom start)) := (closes_semicolon start make).progresses

/-- A condition takes its parentheses. -/
theorem progresses_condition (fuel : Nat) : Progresses (condition names fuel) := by
  refine (progresses_expect _).bind fun _ => ?_
  refine (progresses_expression names fuel).advances.bind fun e => ?_
  exact (progresses_expect _).advances.bind fun _ => (Local.pure e).advances

section Statements

/-- An arm takes its condition, whatever the body does. -/
theorem progresses_arm {inner : Parse Stmt} (hinner : Advances inner) (fuel : Nat) :
    Progresses (arm names inner fuel) := by
  refine (progresses_condition fuel).bind fun c => ?_
  exact hinner.bind fun s => (Local.pure _).advances

theorem progresses_forLoop {inner : Parse Stmt} (hinner : Advances inner) (fuel : Nat) :
    Progresses (forLoop names inner fuel) := by
  have hinit : Advances (forInit names fuel) := (Production.forInit fuel).advances
  have hunless (close : Symbol) : Advances (expressionUnless names fuel close) :=
    (Production.expressionUnless fuel close).advances
  refine .bindRight Local.look.advances fun start => ?_
  refine .bindRight Local.take.advances fun _ => ?_
  refine (progresses_expect _).bind fun _ => ?_
  refine hinit.bind fun init => ?_
  refine (hunless _).bind fun test => ?_
  refine (progresses_expect _).advances.bind fun _ => ?_
  refine (hunless _).bind fun step => ?_
  refine (progresses_expect _).advances.bind fun _ => ?_
  exact hinner.bind fun body => advances_finish _ _

/-- Every statement has a closing symbol, a condition or an expression. -/
theorem progresses_statement (names : Names) (fuel : Nat) : Progresses (statement names fuel) := by
  cases fuel with
  | zero => exact .spent
  | succ fuel =>
      have halike := alike_refl names
      have hinner : Local (statement names fuel) (statement names fuel) :=
        local_statement halike fuel
      have htake := Local.take.advances
      unfold statement
      dsimp only
      apply Progresses.bindRight Local.look.advances
      intro start
      split
      · exact (closes_braced hinner fuel).progresses.bind fun items => advances_finish _ _
      · refine .bindRight htake fun _ => ?_
        refine (progresses_arm hinner.advances fuel).bind fun first => ?_
        exact (local_moreArms halike hinner fuel _).advances.bind fun r => advances_finish _ _
      · exact progresses_forLoop hinner.advances fuel
      · refine .bindRight htake fun _ => ?_
        refine (progresses_condition fuel).bind fun c => ?_
        exact hinner.advances.bind fun body => advances_finish _ _
      · refine .bindRight htake fun _ => ?_
        refine .bindRight hinner.advances fun body => ?_
        refine .bindRight (Local.expectKeyword _).advances fun _ => ?_
        exact .bindRight (progresses_condition fuel).advances fun c => progresses_semicolon _ _
      · exact .bindRight htake fun _ => progresses_semicolon _ _
      · exact .bindRight htake fun _ => progresses_semicolon _ _
      · exact .bindRight htake fun _ => progresses_semicolon _ _
      · refine .bindRight htake fun _ => ?_
        exact .bindRight (local_expressionUnless halike fuel _).advances fun value =>
          progresses_semicolon _ _
      · exact (closes_optional halike (closes_braced hinner fuel) fuel fuel).progresses
      · exact (closes_variableDeclaration halike fuel).progresses
      · refine .bindRight (Local.atDeclaration halike).advances fun declared => .ite ?_ ?_
        · exact fun _ => (closes_variableDeclaration halike fuel).progresses
        · exact fun _ => .bindRight (progresses_expression names fuel).advances fun e =>
            progresses_semicolon _ _

end Statements

section Items

/-- An entry of a block takes a token; hence the loop over the block ends. -/
theorem progresses_structField (names : Names) : Progresses (structField names) := by
  refine progresses_identifier.bind fun p => ?_
  refine (progresses_expect _).advances.bind fun _ => ?_
  refine (progresses_type names).advances.bind fun t => ?_
  exact (progresses_expect _).advances.bind fun _ => (Local.pure _).advances

variable (names : Names) (fuel : Nat)

theorem progresses_interfaceEntry : Progresses (interfaceEntry names fuel) := by
  refine .bindRight (Production.entryHead fuel).advances fun head => ?_
  refine (progresses_expect _).bind fun _ => ?_
  exact (Local.checked _).advances.bind fun slot => advances_finish _ _

theorem progresses_externalEntry : Progresses (externalEntry names fuel) := by
  refine .bindRight (Production.entryHead fuel).advances fun head => ?_
  refine (progresses_expect _).bind fun _ => ?_
  exact (Local.checked _).advances.bind fun place => advances_finish _ _

theorem progresses_optionEntry : Progresses (optionEntry names fuel) := by
  refine .bindRight (Production.entryHead fuel).advances fun head => ?_
  refine .bindRight (Local.checked _).advances fun _ => ?_
  refine .bindRight (Local.eat _).advances fun eq => .ite ?_ ?_
  · intro _
    refine .bindRight (progresses_expression names fuel).advances fun e => ?_
    exact .bindRight (Local.pure _).advances fun value => progresses_semicolon _ _
  · intro _
    exact .bindRight (Local.pure _).advances fun value => progresses_semicolon _ _

theorem progresses_constEntry : Progresses (constEntry names fuel) := by
  refine .bindRight (Production.entryHead fuel).advances fun head => ?_
  refine .bindRight (Local.checked _).advances fun _ => ?_
  refine (progresses_expect _).bind fun _ => ?_
  refine (progresses_expression names fuel).advances.bind fun value => ?_
  exact (progresses_semicolon _ _).advances

theorem progresses_item : Progresses (item names fuel) :=
  (closes_item (alike_refl names) fuel).progresses

end Items

end Parse

end Shading
