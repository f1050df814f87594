import Shading.Proofs.Options.Survivors

/-!
# Files without strays

The scopes of the specializer are those of its result as long as optional blocks stand in
lists and the body of every `do` loop is a block. Then no reference to an option with a
value survives.
-/

namespace Shading

namespace Stmt

mutual

/-- Optional blocks stand in lists, as the statement itself does if it is `listed`, and the
body of every `do` loop is a block. -/
def ScopesKept (listed : Bool) : Stmt → Prop
  | .branch _ arms otherwise => armsKept arms ∧ optionKept otherwise
  | .forLoop _ init _ _ body => optionKept init ∧ body.ScopesKept false
  | .whileLoop _ _ body => body.ScopesKept false
  | .doWhile _ body _ => (∃ b items, body = .block b items) ∧ body.ScopesKept false
  | .function _ _ items | .block _ items => listKept items
  | .optional _ _ body otherwise =>
    listed = true ∧ body.ScopesKept true ∧ alternativeKept otherwise
  | _ => True

def listKept : List Stmt → Prop
  | [] => True
  | s :: ss => s.ScopesKept true ∧ listKept ss

def armsKept : List (Expr × Stmt) → Prop
  | [] => True
  | (_, s) :: rest => s.ScopesKept false ∧ armsKept rest

def optionKept : Option Stmt → Prop
  | none => True
  | some s => s.ScopesKept false

def alternativeKept : Option Stmt → Prop
  | none => True
  | some s => s.ScopesKept true

end

end Stmt

/-- Both kinds of scopes agree, and no name was a stray so far. -/
structure Tracker.Level (t : Tracker) : Prop where
  scopes : t.writer = t.reader
  strays : t.strays = []

/-- From one state to another one the scopes stay level, and only the innermost one grows. -/
structure Tracker.Steady (t t' : Tracker) : Prop where
  level : t'.Level
  outer : t'.writer.tail = t.writer.tail
  none : t.writer = [] → t'.writer = []

/-- A block that only grows its own scope gives back the scopes before it. -/
theorem Scopes.leave_eq {before after : Scopes} (houter : after.tail = before.enter.tail)
    (hnil : before.enter = [] → after = []) : before.leave after = before := by
  cases before with
  | nil => exact hnil rfl
  | cons scope rest => exact houter

namespace Tracker

variable {p : Permutation} {t t' t'' : Tracker}

theorem Level.steady (h : t.Level) : t.Steady t := ⟨h, rfl, id⟩

theorem Steady.trans (h : t.Steady t') (h' : t'.Steady t'') : t.Steady t'' :=
  ⟨h'.level, h'.outer.trans h.outer, fun hnil => h'.none (h.none hnil)⟩

/-- Where both sides see the same scopes, an expression adds no stray. -/
theorem Level.exprAt (h : t.Level) {reader : Scopes} (hreader : t.writer = reader) (e : Expr) :
    t.Steady (t.exprAt reader e) := by
  have hnone : e.references.filter (fun n => t.writer.isLocal n && !reader.isLocal n) = [] := by
    rw [List.filter_eq_nil_iff]
    intro n _
    rw [hreader]
    simp
  refine ⟨⟨h.scopes, ?_⟩, rfl, id⟩
  change t.strays ++ _ = []
  rw [h.strays, List.nil_append]
  exact hnone

theorem Level.expr (h : t.Level) (e : Expr) : t.Steady (t.expr e) := by
  have hat := h.exprAt h.scopes e
  exact hat

theorem Level.optionExpr (h : t.Level) (e : Option Expr) : t.Steady (t.optionExpr e) := by
  cases e with
  | none => exact h.steady
  | some e => exact h.expr e

theorem Level.foldl {α : Type} {f : Tracker → α → Tracker}
    (hf : ∀ t a, Level t → t.Steady (f t a)) (h : t.Level) (as : List α) :
    t.Steady (as.foldl f t) := by
  induction as generalizing t with
  | nil => exact h.steady
  | cons a rest ih => exact (hf t a h).trans (ih (hf t a h).level)

/-- A declaration grows the innermost scope on both sides. -/
theorem Level.declare (h : t.Level) (name : String) : t.Steady (t.declare name) := by
  refine ⟨⟨?_, h.strays⟩, ?_, ?_⟩
  · change t.writer.declare name = t.reader.declare name
    rw [h.scopes]
  · change (t.writer.declare name).tail = t.writer.tail
    cases t.writer <;> rfl
  · intro hnil
    change t.writer.declare name = []
    rw [hnil]
    rfl

/-- After a block the scopes are those before it. -/
theorem Level.inBlock (h : t.Level) {work : Tracker → Tracker}
    (hwork : ∀ t, Level t → t.Steady (work t)) :
    t.Steady (t.inBlock work) ∧ (t.inBlock work).writer = t.writer := by
  have hinner := hwork { t with writer := t.writer.enter, reader := t.reader.enter }
    ⟨by rw [h.scopes], h.strays⟩
  have hwriter : (t.inBlock work).writer = t.writer :=
    Scopes.leave_eq hinner.outer hinner.none
  have hreader : (t.inBlock work).reader = (t.inBlock work).writer :=
    congrArg₂ Scopes.leave h.scopes.symm hinner.level.scopes.symm
  exact ⟨⟨⟨hreader.symm, hinner.level.strays⟩, by rw [hwriter], fun hnil => by
    rw [hwriter, hnil]⟩, hwriter⟩

/-- A function is steady where the work on its body is. -/
theorem Level.inFunction (h : t.Level) (names : List String) {work : Tracker → Tracker}
    (hwork : ∀ t, Level t → t.Steady (work t)) : t.Steady (t.inFunction names work) := by
  have hinner := hwork { t with writer := names :: t.writer, reader := names :: t.reader }
    ⟨by rw [h.scopes], h.strays⟩
  have hwriter : (t.inFunction names work).writer = t.writer := hinner.outer
  have hreader : (t.inFunction names work).reader = t.reader := by
    change List.tail _ = t.reader
    rw [← hinner.level.scopes, hinner.outer, ← h.scopes]
    rfl
  exact ⟨⟨by rw [hwriter, hreader, h.scopes], hinner.level.strays⟩, by rw [hwriter],
    fun hnil => by rw [hwriter, hnil]⟩

mutual

/-- A statement whose scopes are kept adds no stray, by itself or in a list. -/
theorem steady_stmt (listed : Bool) (s : Stmt) {t : Tracker} (h : t.Level)
    (hs : s.ScopesKept listed) :
    t.Steady (t.stmt p listed s) := by
  cases s with
  | branch b arms otherwise =>
      have harms := steady_arms arms h hs.1
      exact harms.trans (steady_optionStmt otherwise harms.level hs.2)
  | forLoop b init condition step body =>
      refine (h.inBlock fun t ht => ?_).1
      have hinit := steady_optionStmt init ht hs.1
      have hcondition := hinit.trans (hinit.level.optionExpr condition)
      have hstep := hcondition.trans (hcondition.level.optionExpr step)
      exact hstep.trans (steady_stmt false body hstep.level hs.2)
  | whileLoop b condition body =>
      have hcondition := h.expr condition
      exact hcondition.trans (steady_stmt false body hcondition.level hs)
  | doWhile b body condition =>
      obtain ⟨⟨_, items, rfl⟩, hitems⟩ := hs
      obtain ⟨hbody, hwriter⟩ := h.inBlock fun t ht => steady_stmts items ht hitems
      exact hbody.trans (hbody.level.exprAt (hwriter.trans h.scopes) condition)
  | var b d =>
      have hinit := h.optionExpr d.initializer
      exact hinit.trans (hinit.level.declare d.name)
  | options b ds => exact h.foldl (fun t d ht => ht.optionExpr d.default) ds
  | consts b ds => exact h.foldl (fun t d ht => ht.expr d.value) ds
  | function b f body => exact h.inFunction _ fun t ht => steady_stmts body ht hs
  | expr b e => exact h.expr e
  | ret b value => exact h.optionExpr value
  | block b items => exact (h.inBlock fun t ht => steady_stmts items ht hs).1
  | optional b condition body otherwise =>
      obtain ⟨rfl, hbody, hother⟩ := hs
      rw [stmt_optional_listed]
      split
      · exact steady_branch body h hbody
      · cases otherwise with
        | none => exact h.steady
        | some s =>
            rw [alternative_some]
            exact steady_branch s h hother
      · exact h.steady
  | _ => exact h.steady
termination_by 4 * sizeOf s
decreasing_by
  all_goals subst_vars; simp +arith

/-- The branch of an optional block adds no stray. -/
theorem steady_branch (s : Stmt) {t : Tracker} (h : t.Level) (hs : s.ScopesKept true) :
    t.Steady (t.branch p s) := by
  by_cases hblock : ∃ b items, s = .block b items
  · obtain ⟨b, items, rfl⟩ := hblock
    exact steady_stmts items h hs
  · have hbranch : t.branch p s = if p.drops s then t else t.stmt p true s := by
      cases s with
      | block b items => exact absurd ⟨b, items, rfl⟩ hblock
      | _ => rfl
    rw [hbranch]
    split
    · exact h.steady
    · exact steady_stmt true s h hs
termination_by 4 * sizeOf s + 1
decreasing_by
  all_goals subst_vars; simp +arith

theorem steady_stmts (ss : List Stmt) {t : Tracker} (h : t.Level) (hs : Stmt.listKept ss) :
    t.Steady (t.stmts p ss) := by
  cases ss with
  | nil => exact h.steady
  | cons s rest =>
      rw [stmts]
      split
      · exact steady_stmts rest h hs.2
      · have hhead := steady_stmt true s h hs.1
        exact hhead.trans (steady_stmts rest hhead.level hs.2)
termination_by 4 * sizeOf ss
decreasing_by
  all_goals subst_vars; simp +arith

theorem steady_arms (arms : List (Expr × Stmt)) {t : Tracker} (h : t.Level)
    (hs : Stmt.armsKept arms) :
    t.Steady (t.arms p arms) := by
  match arms with
  | [] => exact h.steady
  | (c, s) :: rest =>
      have hcondition := h.expr c
      have hbody := hcondition.trans (steady_stmt false s hcondition.level hs.1)
      exact hbody.trans (steady_arms rest hbody.level hs.2)
termination_by 4 * sizeOf arms
decreasing_by
  all_goals simp +arith

theorem steady_optionStmt (s : Option Stmt) {t : Tracker} (h : t.Level) (hs : Stmt.optionKept s) :
    t.Steady (t.optionStmt p s) := by
  cases s with
  | none => exact h.steady
  | some s => exact steady_stmt false s h hs
termination_by 4 * sizeOf s
decreasing_by
  all_goals subst_vars; simp +arith

end

end Tracker

/-- Where the scopes are kept no name is a stray. -/
theorem Permutation.strays_eq_nil (p : Permutation) {tree : Stmt} (h : tree.ScopesKept false) :
    p.strays tree = [] :=
  (Tracker.steady_stmt false tree ⟨rfl, rfl⟩ h).level.strays

end Shading
