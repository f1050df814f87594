import Shading.Options.Specialize
import Shading.Proofs.Except

/-!
# Runs of the specializer

What a statement is specialized to: which parts are, in which order, and in which scopes.
-/

namespace Shading

namespace Scopes

/-- The scopes inside of a block; outside of functions there are none. -/
def enter (scopes : Scopes) : Scopes :=
  match scopes with
  | [] => []
  | _ => [] :: scopes

/-- The scopes after a block that was entered from some and ends with others. -/
def leave (before after : Scopes) : Scopes :=
  match before with
  | [] => after
  | _ => after.tail

end Scopes

namespace Permutation

variable {p : Permutation} {scopes scopes' : Scopes} {t : Stmt}

/-- Work in a scope of its own leaves the scopes that it found. -/
theorem of_inScope {α : Type} {names : List String} {work : Scoped α} {a : α}
    (h : inScope names work scopes = .ok (a, scopes')) :
    ∃ after, work (names :: scopes) = .ok (a, after) ∧ scopes' = after.tail := by
  obtain ⟨_, mid, hpush, h⟩ := StateT.bind_eq_ok_iff.mp h
  obtain ⟨b, after, hwork, h⟩ := StateT.bind_eq_ok_iff.mp h
  obtain ⟨_, last, hpop, h⟩ := StateT.bind_eq_ok_iff.mp h
  cases hpush
  cases hpop
  cases h
  exact ⟨after, hwork, rfl⟩

theorem of_inBlockScope {α : Type} {work : Scoped α} {a : α}
    (h : inBlockScope work scopes = .ok (a, scopes')) :
    ∃ after, work scopes.enter = .ok (a, after) ∧ scopes' = scopes.leave after := by
  obtain ⟨_, mid, hget, h⟩ := StateT.bind_eq_ok_iff.mp h
  cases hget
  cases scopes with
  | nil => exact ⟨scopes', h, rfl⟩
  | cons scope rest => exact of_inScope h

/-- An expression is specialized and changes no scope. -/
theorem of_expr {e e' : Expr} (h : p.expr e scopes = .ok (e', scopes')) :
    e.specialize p scopes = .ok e' ∧ scopes' = scopes := by
  obtain ⟨a, ha, h⟩ := Except.bind_eq_ok_iff.mp h
  cases h
  exact ⟨ha, rfl⟩

theorem of_optionExpr {e e' : Option Expr} (h : p.optionExpr e scopes = .ok (e', scopes')) :
    (e = none ∧ e' = none ∨
      ∃ a a', e = some a ∧ e' = some a' ∧ a.specialize p scopes = .ok a') ∧
      scopes' = scopes := by
  cases e with
  | none =>
      cases h
      exact ⟨.inl ⟨rfl, rfl⟩, rfl⟩
  | some a =>
      obtain ⟨a', mid, ha, h⟩ := StateT.bind_eq_ok_iff.mp h
      cases h
      obtain ⟨hspecialize, rfl⟩ := of_expr ha
      exact ⟨.inr ⟨a, a', rfl, rfl, hspecialize⟩, rfl⟩

/-- The arms of a branch run before its alternative. The lemmas below say the same of every form of
statement: what ran, in which order, and what it gave. -/
theorem of_stmt_branch {s : Span} {arms : List (Expr × Stmt)} {otherwise : Option Stmt}
    (h : p.stmt (.branch s arms otherwise) scopes = .ok (t, scopes')) :
    ∃ arms' mid otherwise', p.arms arms scopes = .ok (arms', mid) ∧
      p.optionStmt otherwise mid = .ok (otherwise', scopes') ∧
      t = .branch s arms' otherwise' := by
  obtain ⟨arms', mid, harms, h⟩ := StateT.bind_eq_ok_iff.mp h
  obtain ⟨otherwise', last, hother, h⟩ := StateT.bind_eq_ok_iff.mp h
  cases h
  exact ⟨arms', mid, otherwise', harms, hother, rfl⟩

/-- The head of a loop, its condition, its step and its body run in the scope of the loop. -/
theorem of_stmt_forLoop {s : Span} {init : Option Stmt} {condition step : Option Expr}
    {body : Stmt}
    (h : p.stmt (.forLoop s init condition step body) scopes = .ok (t, scopes')) :
    ∃ init' mid condition' step' body' after,
      p.optionStmt init scopes.enter = .ok (init', mid) ∧
      p.optionExpr condition mid = .ok (condition', mid) ∧
      p.optionExpr step mid = .ok (step', mid) ∧
      p.stmt body mid = .ok (body', after) ∧ scopes' = scopes.leave after ∧
      t = .forLoop s init' condition' step' body' := by
  obtain ⟨after, hwork, rfl⟩ := of_inBlockScope h
  obtain ⟨init', mid, hinit, h⟩ := StateT.bind_eq_ok_iff.mp hwork
  obtain ⟨condition', mid', hcondition, h⟩ := StateT.bind_eq_ok_iff.mp h
  obtain ⟨step', mid'', hstep, h⟩ := StateT.bind_eq_ok_iff.mp h
  obtain ⟨body', last, hbody, h⟩ := StateT.bind_eq_ok_iff.mp h
  cases h
  obtain ⟨_, rfl⟩ := of_optionExpr hcondition
  obtain ⟨_, rfl⟩ := of_optionExpr hstep
  exact ⟨init', _, condition', step', body', after, hinit, hcondition, hstep, hbody, rfl, rfl⟩

theorem of_stmt_whileLoop {s : Span} {condition : Expr} {body : Stmt}
    (h : p.stmt (.whileLoop s condition body) scopes = .ok (t, scopes')) :
    ∃ condition' body', condition.specialize p scopes = .ok condition' ∧
      p.stmt body scopes = .ok (body', scopes') ∧ t = .whileLoop s condition' body' := by
  obtain ⟨condition', mid, hcondition, h⟩ := StateT.bind_eq_ok_iff.mp h
  obtain ⟨body', last, hbody, h⟩ := StateT.bind_eq_ok_iff.mp h
  cases h
  obtain ⟨hspecialize, rfl⟩ := of_expr hcondition
  exact ⟨condition', body', hspecialize, hbody, rfl⟩

theorem of_stmt_doWhile {s : Span} {condition : Expr} {body : Stmt}
    (h : p.stmt (.doWhile s body condition) scopes = .ok (t, scopes')) :
    ∃ body' condition', p.stmt body scopes = .ok (body', scopes') ∧
      condition.specialize p scopes' = .ok condition' ∧ t = .doWhile s body' condition' := by
  obtain ⟨body', mid, hbody, h⟩ := StateT.bind_eq_ok_iff.mp h
  obtain ⟨condition', last, hcondition, h⟩ := StateT.bind_eq_ok_iff.mp h
  cases h
  obtain ⟨hspecialize, rfl⟩ := of_expr hcondition
  exact ⟨body', condition', hbody, hspecialize, rfl⟩

/-- A variable is declared after its initializer ran. -/
theorem of_stmt_var {s : Span} {d : VariableDeclaration}
    (h : p.stmt (.var s d) scopes = .ok (t, scopes')) :
    ∃ initializer, p.optionExpr d.initializer scopes = .ok (initializer, scopes) ∧
      scopes' = scopes.declare d.name ∧ t = .var s { d with initializer } := by
  obtain ⟨initializer, mid, hinit, h⟩ := StateT.bind_eq_ok_iff.mp h
  obtain ⟨_, last, hdeclare, h⟩ := StateT.bind_eq_ok_iff.mp h
  cases hdeclare
  cases h
  obtain ⟨_, rfl⟩ := of_optionExpr hinit
  exact ⟨initializer, hinit, rfl, rfl⟩

theorem of_optionDeclaration {d d' : OptionDeclaration}
    (h : p.optionDeclaration d scopes = .ok (d', scopes')) :
    ∃ default, p.optionExpr d.default scopes = .ok (default, scopes) ∧ scopes' = scopes ∧
      d' = { d with default } := by
  obtain ⟨default, mid, hdefault, h⟩ := StateT.bind_eq_ok_iff.mp h
  cases h
  obtain ⟨_, rfl⟩ := of_optionExpr hdefault
  exact ⟨default, hdefault, rfl, rfl⟩

theorem of_constDeclaration {d d' : ConstDeclaration}
    (h : p.constDeclaration d scopes = .ok (d', scopes')) :
    ∃ value, d.value.specialize p scopes = .ok value ∧ scopes' = scopes ∧
      d' = { d with value } := by
  obtain ⟨value, mid, hvalue, h⟩ := StateT.bind_eq_ok_iff.mp h
  cases h
  obtain ⟨hspecialize, rfl⟩ := of_expr hvalue
  exact ⟨value, hspecialize, rfl, rfl⟩

theorem of_stmt_options {s : Span} {ds : List OptionDeclaration}
    (h : p.stmt (.options s ds) scopes = .ok (t, scopes')) :
    ∃ ds', ds.mapM p.optionDeclaration scopes = .ok (ds', scopes') ∧ t = .options s ds' := by
  obtain ⟨ds', mid, hds, h⟩ := StateT.bind_eq_ok_iff.mp h
  cases h
  exact ⟨ds', hds, rfl⟩

theorem of_stmt_consts {s : Span} {ds : List ConstDeclaration}
    (h : p.stmt (.consts s ds) scopes = .ok (t, scopes')) :
    ∃ ds', ds.mapM p.constDeclaration scopes = .ok (ds', scopes') ∧ t = .consts s ds' := by
  obtain ⟨ds', mid, hds, h⟩ := StateT.bind_eq_ok_iff.mp h
  cases h
  exact ⟨ds', hds, rfl⟩

/-- A run on a list is the run on its first element and then that on the others. -/
theorem of_mapM_cons {α β : Type} {f : α → Scoped β} {a : α} {rest : List α} {out : List β}
    (h : (a :: rest).mapM f scopes = .ok (out, scopes')) :
    ∃ b mid out', f a scopes = .ok (b, mid) ∧ rest.mapM f mid = .ok (out', scopes') ∧
      out = b :: out' := by
  rw [List.mapM_cons] at h
  obtain ⟨b, mid, hb, h⟩ := StateT.bind_eq_ok_iff.mp h
  obtain ⟨out', last, hrest, h⟩ := StateT.bind_eq_ok_iff.mp h
  cases h
  exact ⟨b, mid, out', hb, hrest, rfl⟩

/-- The body of a function runs in the scope of its parameters. -/
theorem of_stmt_function {s : Span} {f : Signature} {body : List Stmt}
    (h : p.stmt (.function s f body) scopes = .ok (t, scopes')) :
    ∃ body' after, p.stmts body (f.parameters.map (·.name) :: scopes) = .ok (body', after) ∧
      scopes' = after.tail ∧ t = .function s f body' := by
  obtain ⟨body', mid, hbody, h⟩ := StateT.bind_eq_ok_iff.mp h
  obtain ⟨after, hwork, rfl⟩ := of_inScope hbody
  cases h
  exact ⟨body', after, hwork, rfl, rfl⟩

theorem of_stmt_expr {s : Span} {e : Expr} (h : p.stmt (.expr s e) scopes = .ok (t, scopes')) :
    ∃ e', e.specialize p scopes = .ok e' ∧ scopes' = scopes ∧ t = .expr s e' := by
  obtain ⟨e', mid, he, h⟩ := StateT.bind_eq_ok_iff.mp h
  cases h
  obtain ⟨hspecialize, rfl⟩ := of_expr he
  exact ⟨e', hspecialize, rfl, rfl⟩

theorem of_stmt_ret {s : Span} {value : Option Expr}
    (h : p.stmt (.ret s value) scopes = .ok (t, scopes')) :
    ∃ value', p.optionExpr value scopes = .ok (value', scopes) ∧ scopes' = scopes ∧
      t = .ret s value' := by
  obtain ⟨value', mid, hvalue, h⟩ := StateT.bind_eq_ok_iff.mp h
  cases h
  obtain ⟨_, rfl⟩ := of_optionExpr hvalue
  exact ⟨value', hvalue, rfl, rfl⟩

/-- The items of a block run in a scope of their own. -/
theorem of_stmt_block {s : Span} {items : List Stmt}
    (h : p.stmt (.block s items) scopes = .ok (t, scopes')) :
    ∃ items' after, p.stmts items scopes.enter = .ok (items', after) ∧
      scopes' = scopes.leave after ∧ t = .block s items' := by
  obtain ⟨items', mid, hitems, h⟩ := StateT.bind_eq_ok_iff.mp h
  obtain ⟨after, hwork, rfl⟩ := of_inBlockScope hitems
  cases h
  exact ⟨items', after, hwork, rfl, rfl⟩

/-- The statements that a selected branch of an optional block contributes. -/
def branchStmts (p : Permutation) (body : Stmt) : Scoped (List Stmt) :=
  match body with
  | .block _ items => p.stmts items
  | other => do
    if p.drops other then return []
    else return contribution other (← p.stmt other)

theorem branchStmts_block (s : Span) (items : List Stmt) :
    p.branchStmts (.block s items) = p.stmts items := rfl

theorem branchStmts_of_ne_block {body : Stmt} (hbody : ∀ s items, body ≠ .block s items) :
    p.branchStmts body =
      if p.drops body then return [] else return contribution body (← p.stmt body) := by
  cases body with
  | block s items => exact absurd rfl (hbody s items)
  | _ => rfl

/-- The branch of an optional block is dropped, or runs and contributes what it gave. -/
theorem of_branchStmts {body : Stmt} (hbody : ∀ s items, body ≠ .block s items)
    {items : List Stmt} (h : p.branchStmts body scopes = .ok (items, scopes')) :
    p.drops body = true ∧ items = [] ∧ scopes' = scopes ∨
      p.drops body = false ∧ ∃ t, p.stmt body scopes = .ok (t, scopes') ∧
        items = contribution body t := by
  rw [branchStmts_of_ne_block hbody] at h
  cases hdrops : p.drops body with
  | true =>
      rw [hdrops] at h
      cases h
      exact .inl ⟨rfl, rfl, rfl⟩
  | false =>
      rw [hdrops] at h
      obtain ⟨t, mid, ht, h⟩ := StateT.bind_eq_ok_iff.mp h
      cases h
      exact .inr ⟨rfl, t, ht, rfl⟩

theorem alternative_some (s : Stmt) : p.alternative (some s) = p.branchStmts s := by
  cases s <;> simp only [alternative, branchStmts]

/-- An optional block runs one of its branches, and becomes a block of what that gave. -/
theorem stmt_optional (s : Span) (condition : Expr) (body : Stmt) (otherwise : Option Stmt) :
    p.stmt (.optional s condition body otherwise) = (do
      if ← condition.evaluateCondition p.lookup then return .block s (← p.branchStmts body)
      else return .block s (← p.alternative otherwise)) := by
  have hother (hbody : ∀ b items, body ≠ .block b items) :
      (if p.drops body then return .block s []
        else return .block s (contribution body (← p.stmt body)) : Scoped Stmt) =
        (do return .block s (← p.branchStmts body)) := by
    rw [branchStmts_of_ne_block hbody]
    cases p.drops body <;>
      simp only [Bool.false_eq_true, if_false, if_true, bind_assoc, pure_bind]
  cases body with
  | block b items => rfl
  | _ =>
      rw [stmt, ← hother (by simp)]
      simp

/-- An optional block becomes the block of the statements that are selected, which are
specialized in the scopes that the optional block stands in. -/
theorem of_stmt_optional {s : Span} {condition : Expr} {body : Stmt} {otherwise : Option Stmt}
    (h : p.stmt (.optional s condition body otherwise) scopes = .ok (t, scopes')) :
    ∃ taken items, condition.evaluateCondition p.lookup = .ok taken ∧ t = .block s items ∧
      (if taken then p.branchStmts body else p.alternative otherwise) scopes =
        .ok (items, scopes') := by
  rw [stmt_optional] at h
  obtain ⟨taken, mid, htaken, h⟩ := StateT.bind_eq_ok_iff.mp h
  obtain ⟨taken, hcondition, htaken⟩ := Except.bind_eq_ok_iff.mp htaken
  cases htaken
  cases taken with
  | false =>
      obtain ⟨items, last, hitems, h⟩ := StateT.bind_eq_ok_iff.mp h
      cases h
      exact ⟨false, items, hcondition, rfl, hitems⟩
  | true =>
      obtain ⟨items, last, hitems, h⟩ := StateT.bind_eq_ok_iff.mp h
      cases h
      exact ⟨true, items, hcondition, rfl, hitems⟩

/-- The first statement of a list is dropped, or runs and contributes what it gave. -/
theorem of_stmts_cons {s : Stmt} {ss out : List Stmt}
    (h : p.stmts (s :: ss) scopes = .ok (out, scopes')) :
    p.drops s = true ∧ p.stmts ss scopes = .ok (out, scopes') ∨
      p.drops s = false ∧ ∃ t mid rest, p.stmt s scopes = .ok (t, mid) ∧
        p.stmts ss mid = .ok (rest, scopes') ∧ out = contribution s t ++ rest := by
  rw [stmts] at h
  cases hdrops : p.drops s with
  | true =>
      rw [hdrops] at h
      exact .inl ⟨rfl, h⟩
  | false =>
      rw [hdrops] at h
      obtain ⟨t, mid, ht, h⟩ := StateT.bind_eq_ok_iff.mp h
      obtain ⟨rest, last, hrest, h⟩ := StateT.bind_eq_ok_iff.mp h
      cases h
      exact .inr ⟨rfl, t, mid, rest, ht, hrest, rfl⟩

/-- The condition of an arm runs before its body, and the arm before those that follow it. -/
theorem of_arms_cons {c : Expr} {s : Stmt} {rest out : List (Expr × Stmt)}
    (h : p.arms ((c, s) :: rest) scopes = .ok (out, scopes')) :
    ∃ c' s' mid rest', c.specialize p scopes = .ok c' ∧ p.stmt s scopes = .ok (s', mid) ∧
      p.arms rest mid = .ok (rest', scopes') ∧ out = (c', s') :: rest' := by
  rw [arms] at h
  obtain ⟨c', first, hc, h⟩ := StateT.bind_eq_ok_iff.mp h
  obtain ⟨s', mid, hs, h⟩ := StateT.bind_eq_ok_iff.mp h
  obtain ⟨rest', last, hrest, h⟩ := StateT.bind_eq_ok_iff.mp h
  cases h
  obtain ⟨hspecialize, rfl⟩ := of_expr hc
  exact ⟨c', s', mid, rest', hspecialize, hs, hrest, rfl⟩

theorem of_optionStmt_some {s : Stmt} {out : Option Stmt}
    (h : p.optionStmt (some s) scopes = .ok (out, scopes')) :
    ∃ t, p.stmt s scopes = .ok (t, scopes') ∧ out = some t := by
  rw [optionStmt] at h
  obtain ⟨t, mid, ht, h⟩ := StateT.bind_eq_ok_iff.mp h
  cases h
  exact ⟨t, ht, rfl⟩

end Permutation

end Shading
