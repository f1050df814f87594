import Shading.Proofs.Options.Chosen
import Shading.Proofs.Options.Survivors
import Shading.Proofs.Options.TwoPass

/-!
# One pass does the work of two

The specializer resolves optional blocks and puts values in the place of references in one
traversal with a stack of scopes. Where optional blocks stand in lists only, this gives
what the two passes give, and succeeds when they do.
-/

namespace Shading

namespace Scopes

/-- Adds names to the innermost scope, one after another. -/
def declareAll (scopes : Scopes) (names : List String) : Scopes := names.foldl declare scopes

@[simp] theorem declareAll_nil (scopes : Scopes) : scopes.declareAll [] = scopes := rfl

theorem declareAll_append (scopes : Scopes) (ns ms : List String) :
    scopes.declareAll (ns ++ ms) = (scopes.declareAll ns).declareAll ms :=
  List.foldl_append

@[simp] theorem declareAll_empty (names : List String) : declareAll [] names = [] := by
  induction names with
  | nil => rfl
  | cons n rest ih => exact ih

/-- Names are declared in the innermost scope, the last one first. -/
theorem declareAll_cons (scope : List String) (rest : Scopes) (names : List String) :
    declareAll (scope :: rest) names = (names.reverse ++ scope) :: rest := by
  induction names generalizing scope with
  | nil => rfl
  | cons n ns ih =>
      change declareAll ((n :: scope) :: rest) ns = _
      rw [ih, List.reverse_cons, List.append_assoc, List.singleton_append]

/-- Names that are declared in a block are gone after it. -/
theorem leave_declareAll (scopes : Scopes) (names : List String) :
    scopes.leave (scopes.enter.declareAll names) = scopes := by
  cases scopes with
  | nil => exact declareAll_empty names
  | cons scope rest =>
      change List.tail (declareAll ([] :: scope :: rest) names) = _
      rw [declareAll_cons, List.tail_cons]

end Scopes

/-- The names that are visible at a place are those of the scopes there. -/
structure Sees (v : Visible) (scopes : Scopes) : Prop where
  none_iff : v = none ↔ scopes = []
  binds : ∀ n, v.binds n = scopes.isLocal n

namespace Sees

variable {v : Visible} {scopes : Scopes}

theorem nil : Sees none [] := ⟨Iff.intro (fun _ => rfl) fun _ => rfl, fun _ => rfl⟩

/-- Entering a block opens a scope and leaves what is visible as it is. -/
theorem enter (h : Sees v scopes) : Sees v scopes.enter := by
  cases scopes with
  | nil => exact h
  | cons scope rest =>
      refine ⟨by simpa [Scopes.enter] using h.none_iff, fun n => ?_⟩
      rw [h.binds]
      simp [Scopes.enter, Scopes.isLocal]

/-- A function sees its parameters as names of its own. -/
theorem inFunction (h : Sees v scopes) (names : List String) :
    Sees (v.inFunction names) (names :: scopes) := by
  refine ⟨by simp [Visible.inFunction], fun n => ?_⟩
  have hn := h.binds n
  cases v with
  | none =>
      obtain rfl := h.none_iff.mp rfl
      simp [Visible.inFunction, Visible.binds, Scopes.isLocal]
  | some outer =>
      simp only [Visible.binds, Option.any_some] at hn
      simp only [Visible.inFunction, Visible.binds, Option.getD_some, Option.any_some,
        List.contains_append, Scopes.isLocal, List.any_cons] at hn ⊢
      rw [hn, Bool.or_comm]

/-- Declaring names makes the same ones visible in both passes. -/
theorem declareAll (h : Sees v scopes) (names : List String) :
    Sees (v.add names) (scopes.declareAll names) := by
  cases scopes with
  | nil =>
      obtain rfl := h.none_iff.mpr rfl
      rw [Scopes.declareAll_empty]
      exact h
  | cons scope rest =>
      cases v with
      | none => exact absurd (h.none_iff.mp rfl) (by simp)
      | some outer =>
          rw [Scopes.declareAll_cons]
          refine ⟨by simp [Visible.add], fun n => ?_⟩
          have hn := h.binds n
          simp only [Visible.binds, Visible.add, Option.map_some, Option.any_some,
            List.contains_append, Scopes.isLocal, List.any_cons, List.contains_reverse] at hn ⊢
          rw [hn, Bool.or_comm, ← Bool.or_assoc]

end Sees

namespace Expr

variable {p : Permutation} {v : Visible} {scopes : Scopes}

mutual

/-- Putting literals in the place of free references is what the specializer does to an
expression. -/
theorem edit_literals (h : Sees v scopes) (e : Expr) :
    e.edit (p.literals v) = e.specialize p scopes := by
  cases e with
  | constant s value => rfl
  | ref s n =>
      simp only [edit, specialize, Permutation.literals, h.binds n]
      cases scopes.isLocal n with
      | true => rfl
      | false =>
          cases p.value? n with
          | error e => rfl
          | ok value => cases value <;> rfl
  | index s base place =>
      rw [specialize, ← edit_literals h base, ← edit_literals h place]
      rfl
  | field s base name =>
      rw [specialize, ← edit_literals h base]
      rfl
  | assign s op target value =>
      rw [specialize, ← edit_literals h target, ← edit_literals h value]
      rfl
  | unary s op operand =>
      rw [specialize, ← edit_literals h operand]
      rfl
  | binary s op left right =>
      rw [specialize, ← edit_literals h left, ← edit_literals h right]
      rfl
  | call s name args =>
      rw [specialize, ← editList_literals h args]
      rfl
  | builtin s f args =>
      rw [specialize, ← editList_literals h args]
      rfl
  | cast s target args =>
      rw [specialize, ← editList_literals h args]
      rfl
  | swizzle s base selection =>
      rw [specialize, ← edit_literals h base]
      rfl
  | ternary s c t f =>
      rw [specialize, ← edit_literals h c, ← edit_literals h t, ← edit_literals h f]
      rfl

theorem editList_literals (h : Sees v scopes) (es : List Expr) :
    editList (p.literals v) es = specializeList p scopes es := by
  cases es with
  | nil => rfl
  | cons e rest =>
      rw [specializeList, ← edit_literals h e, ← editList_literals h rest]
      rfl

end

end Expr

namespace Stmt

theorem isOptional_eq_false {s : Stmt}
    (h : ¬∃ b condition body otherwise, s = .optional b condition body otherwise) :
    s.isOptional = false := by
  cases s with
  | optional b condition body otherwise => exact absurd ⟨b, condition, body, otherwise, rfl⟩ h
  | _ => rfl

/-- A statement that is no optional block may stand where it stands in a list. -/
theorem inLists_of_plain {s : Stmt} (hplain : s.isOptional = false) (h : s.InLists true) :
    s.InLists false := by
  cases s with
  | optional _ _ _ _ => cases hplain
  | _ => exact h

end Stmt

namespace Permutation

variable {p : Permutation} {v : Visible} {scopes : Scopes}

section Parts

/-- The second pass substitutes in an expression what the fused pass does, where the same names are
visible. -/
theorem expr_eq_substitute (h : Sees v scopes) (e : Expr) :
    p.expr e scopes = p.substitute v e >>= fun e' => .ok (e', scopes) := by
  rw [substitute, Expr.edit_literals h]
  rfl

theorem optionExpr_eq_substitute (h : Sees v scopes) (e : Option Expr) :
    p.optionExpr e scopes = e.mapM (p.substitute v) >>= fun e' => .ok (e', scopes) := by
  cases e with
  | none => rfl
  | some e =>
      rw [optionExpr, StateT.bind_apply, expr_eq_substitute h]
      simp only [Option.mapM_some, map_eq_pure_bind, bind_assoc, Except.ok_bind]
      rfl

/-- Work on the entries of a block that leaves the scopes alone. -/
theorem mapM_eq {α β : Type} (scopes : Scopes) {f : α → Scoped β}
    {g : α → Except SpecializeError β}
    (h : ∀ a, f a scopes = g a >>= fun b => .ok (b, scopes)) (as : List α) :
    as.mapM f scopes = as.mapM g >>= fun bs => .ok (bs, scopes) := by
  induction as with
  | nil => rfl
  | cons a rest ih =>
      rw [List.mapM_cons, List.mapM_cons, StateT.bind_apply, h]
      simp only [bind_assoc, Except.ok_bind, StateT.bind_apply, ih]
      rfl

theorem inBlockScope_apply {α : Type} (work : Scoped α) (scopes : Scopes) :
    inBlockScope work scopes =
      work scopes.enter >>= fun out => .ok (out.1, scopes.leave out.2) := by
  cases scopes with
  | nil => exact (bind_pure _).symm
  | cons scope rest => rfl

theorem inScope_apply {α : Type} (names : List String) (work : Scoped α) (scopes : Scopes) :
    inScope names work scopes =
      work (names :: scopes) >>= fun out => .ok (out.1, out.2.tail) := rfl

end Parts

/-- What a statement contributes to a list. -/
def item (p : Permutation) (s : Stmt) : Scoped (List Stmt) := do
  if p.drops s then return [] else return contribution s (← p.stmt s)

theorem stmts_cons (s : Stmt) (ss : List Stmt) :
    p.stmts (s :: ss) = do return (← p.item s) ++ (← p.stmts ss) := by
  rw [stmts, item]
  cases p.drops s <;> simp

/-- The branch of an optional block runs as the list of its items. -/
theorem branchStmts_eq (s : Stmt) : p.branchStmts s = p.stmts s.items := by
  by_cases hblock : ∃ b inner, s = .block b inner
  · obtain ⟨b, inner, rfl⟩ := hblock
    rfl
  · have hne : ∀ b inner, s ≠ .block b inner := fun b inner hb => hblock ⟨b, inner, hb⟩
    have hitems : s.items = [s] := by
      cases s with
      | block b inner => exact absurd rfl (hne b inner)
      | _ => rfl
    rw [branchStmts_of_ne_block hne, hitems, stmts_cons, item]
    cases p.drops s <;> simp [stmts]

theorem alternative_eq (s : Option Stmt) : p.alternative s = p.stmts (Stmt.itemsOption s) := by
  cases s with
  | none => simp [alternative, Stmt.itemsOption, stmts]
  | some s => rw [alternative_some, branchStmts_eq, Stmt.itemsOption]

/-- An optional block contributes the statements of the selected branch. -/
theorem item_optional (b : Span) (condition : Expr) (body : Stmt) (otherwise : Option Stmt) :
    p.item (.optional b condition body otherwise) = (do
      if ← condition.evaluateCondition p.lookup then p.stmts body.items
      else p.stmts (Stmt.itemsOption otherwise)) := by
  have hdrops : p.drops (.optional b condition body otherwise) = false := rfl
  rw [item, hdrops, if_neg (by simp), stmt_optional, branchStmts_eq, alternative_eq]
  simp only [bind_assoc]
  refine bind_congr fun taken => ?_
  cases taken <;> simp [contribution, Stmt.items]

theorem item_of_drops {s : Stmt} (hdrops : p.drops s = true) : p.item s = pure [] := by
  rw [item, hdrops, if_pos rfl]

/-- A dropped statement gives no item in the first pass. -/
theorem resolveItem_of_drops {s : Stmt} (hdrops : p.drops s = true) : p.resolveItem s = .ok [] := by
  cases s with
  | options b ds =>
      have hkeep : p.config.keepOptions = false := by simpa [drops] using hdrops
      rw [resolveItem, hkeep]
      rfl
  | _ => cases hdrops

/-- A statement of a list that is neither resolved nor dropped stays one statement. -/
theorem item_of_plain {s : Stmt} (hplain : s.isOptional = false) (hdrops : p.drops s = false) :
    p.item s = do return [← p.stmt s] := by
  rw [item, hdrops, if_neg (by simp)]
  cases s with
  | optional _ _ _ _ => cases hplain
  | _ => rfl

/-- Outside the optional blocks the first pass resolves a statement by itself. -/
theorem resolveItem_of_plain {s : Stmt} (hplain : s.isOptional = false)
    (hdrops : p.drops s = false) : p.resolveItem s = do return [← p.resolve s] := by
  cases s with
  | optional _ _ _ _ => cases hplain
  | options b ds =>
      have hkeep : p.config.keepOptions = true := by simpa [drops] using hdrops
      simp only [resolveItem, hkeep, resolve, if_true, pure_bind]
  | _ => simp only [resolveItem]

section Fusion

/-- A statement that stays one statement of its list. -/
theorem item_of_plain_resolve {s : Stmt} {us : List Stmt} (hplain : s.isOptional = false)
    (hinner : ∀ {u}, p.resolve s = .ok u →
      p.stmt s scopes = u.inScopes p.substitute v >>= fun t => .ok (t, scopes.declareAll u.locals))
    (hu : p.resolveItem s = .ok us) :
    p.item s scopes =
      Stmt.inScopesList p.substitute v us >>= fun ts =>
        .ok (ts, scopes.declareAll (Stmt.localsList us)) := by
  cases hdrops : p.drops s with
  | true =>
      rw [resolveItem_of_drops hdrops] at hu
      cases hu
      rw [item_of_drops hdrops]
      rfl
  | false =>
      rw [resolveItem_of_plain hplain hdrops] at hu
      obtain ⟨u, hu', hu⟩ := Except.bind_eq_ok_iff.mp hu
      cases hu
      rw [item_of_plain hplain hdrops]
      simp only [StateT.bind_apply, hinner hu', Stmt.inScopesList, bind_assoc, Except.ok_bind,
        pure_bind, Stmt.localsList, List.flatMap_singleton]
      rfl

mutual

/-- On a statement whose optional blocks are resolved the specializer does what the second
pass does, and it leaves the names bound that the resolved statement binds. -/
theorem stmt_of_resolve (s : Stmt) {u : Stmt} {v : Visible} {scopes : Scopes}
    (hs : s.InLists false) (hv : Sees v scopes) (hu : p.resolve s = .ok u) :
    p.stmt s scopes =
      u.inScopes p.substitute v >>= fun t => .ok (t, scopes.declareAll u.locals) := by
  cases s with
  | branch b arms otherwise =>
      rw [resolve] at hu
      obtain ⟨arms', harms, hu⟩ := Except.bind_eq_ok_iff.mp hu
      obtain ⟨otherwise', hother, hu⟩ := Except.bind_eq_ok_iff.mp hu
      cases hu
      have hfirst := arms_of_resolve arms hs.1 hv harms
      have hsecond := optionStmt_of_resolve otherwise hs.2
        (hv.declareAll (Stmt.localsArms arms')) hother
      simp only [stmt, Stmt.inScopes, StateT.bind_apply, hfirst, hsecond, bind_assoc,
        Except.ok_bind, Stmt.locals, Scopes.declareAll_append]
      rfl
  | forLoop b init condition step body =>
      rw [resolve] at hu
      obtain ⟨init', hinit, hu⟩ := Except.bind_eq_ok_iff.mp hu
      obtain ⟨body', hbody, hu⟩ := Except.bind_eq_ok_iff.mp hu
      cases hu
      have hfirst := optionStmt_of_resolve init hs.1 hv.enter hinit
      have hinner := hv.enter.declareAll (Stmt.localsOption init')
      have hsecond := stmt_of_resolve body hs.2 hinner hbody
      simp only [stmt, Stmt.inScopes, inBlockScope_apply, StateT.bind_apply, hfirst,
        optionExpr_eq_substitute hinner, hsecond, bind_assoc, Except.ok_bind, Stmt.locals,
        StateT.pure_apply, ← Scopes.declareAll_append, Scopes.leave_declareAll]
      rfl
  | whileLoop b condition body =>
      rw [resolve] at hu
      obtain ⟨body', hbody, hu⟩ := Except.bind_eq_ok_iff.mp hu
      cases hu
      have hinner := stmt_of_resolve body hs hv hbody
      simp only [stmt, Stmt.inScopes, StateT.bind_apply, expr_eq_substitute hv, hinner, bind_assoc,
        Except.ok_bind, Stmt.locals]
      rfl
  | doWhile b body condition =>
      rw [resolve] at hu
      obtain ⟨body', hbody, hu⟩ := Except.bind_eq_ok_iff.mp hu
      cases hu
      have hinner := stmt_of_resolve body hs hv hbody
      simp only [stmt, Stmt.inScopes, StateT.bind_apply, hinner,
        expr_eq_substitute (hv.declareAll body'.locals), bind_assoc, Except.ok_bind, Stmt.locals]
      rfl
  | var b d =>
      simp only [resolve] at hu
      cases hu
      simp only [stmt, Stmt.inScopes, StateT.bind_apply, optionExpr_eq_substitute hv, bind_assoc,
        Except.ok_bind, Stmt.locals]
      rfl
  | options b ds =>
      simp only [resolve] at hu
      cases hu
      have hds := mapM_eq scopes (f := p.optionDeclaration)
        (g := fun d => return { d with default := ← d.default.mapM (p.substitute v) }) (fun d => by
          simp only [optionDeclaration, StateT.bind_apply, optionExpr_eq_substitute hv, bind_assoc,
            Except.ok_bind]
          rfl) ds
      simp only [stmt, Stmt.inScopes, StateT.bind_apply, hds, bind_assoc, Except.ok_bind,
        Stmt.locals]
      rfl
  | consts b ds =>
      simp only [resolve] at hu
      cases hu
      have hds := mapM_eq scopes (f := p.constDeclaration)
        (g := fun d => return { d with value := ← p.substitute v d.value }) (fun d => by
          simp only [constDeclaration, StateT.bind_apply, expr_eq_substitute hv, bind_assoc,
            Except.ok_bind]
          rfl) ds
      simp only [stmt, Stmt.inScopes, StateT.bind_apply, hds, bind_assoc, Except.ok_bind,
        Stmt.locals]
      rfl
  | function b f body =>
      rw [resolve] at hu
      obtain ⟨body', hbody, hu⟩ := Except.bind_eq_ok_iff.mp hu
      cases hu
      have hinner := stmts_of_resolve body hs (hv.inFunction (f.parameters.map (·.name))) hbody
      simp only [stmt, Stmt.inScopes, StateT.bind_apply, inScope_apply, hinner, bind_assoc,
        Except.ok_bind, Stmt.locals, Scopes.declareAll_cons, List.tail_cons]
      rfl
  | expr b e =>
      simp only [resolve] at hu
      cases hu
      simp only [stmt, Stmt.inScopes, StateT.bind_apply, expr_eq_substitute hv, bind_assoc,
        Except.ok_bind, Stmt.locals]
      rfl
  | ret b value =>
      simp only [resolve] at hu
      cases hu
      simp only [stmt, Stmt.inScopes, StateT.bind_apply, optionExpr_eq_substitute hv, bind_assoc,
        Except.ok_bind, Stmt.locals]
      rfl
  | block b items =>
      rw [resolve] at hu
      obtain ⟨items', hitems, hu⟩ := Except.bind_eq_ok_iff.mp hu
      cases hu
      have hinner := stmts_of_resolve items hs hv.enter hitems
      simp only [stmt, Stmt.inScopes, StateT.bind_apply, inBlockScope_apply, hinner, bind_assoc,
        Except.ok_bind, Stmt.locals, Scopes.leave_declareAll]
      rfl
  | optional b condition body otherwise => exact absurd hs.1 (by simp)
  | _ =>
      simp only [resolve] at hu
      cases hu
      rfl
termination_by 4 * sizeOf s
decreasing_by
  all_goals subst_vars; simp +arith

/-- If the first pass resolves an item, the fused pass gives what the second pass makes of that. -/
theorem item_of_resolveItem (s : Stmt) {us : List Stmt} {v : Visible} {scopes : Scopes}
    (hs : s.InLists true) (hv : Sees v scopes) (hu : p.resolveItem s = .ok us) :
    p.item s scopes =
      Stmt.inScopesList p.substitute v us >>= fun ts =>
        .ok (ts, scopes.declareAll (Stmt.localsList us)) := by
  by_cases hoptional : ∃ b condition body otherwise, s = .optional b condition body otherwise
  · obtain ⟨b, condition, body, otherwise, heq⟩ := hoptional
    rw [heq] at hs hu ⊢
    rw [resolveItem] at hu
    obtain ⟨taken, hcondition, hu⟩ := Except.bind_eq_ok_iff.mp hu
    have hlift : (condition.evaluateCondition p.lookup : Scoped Bool) scopes =
        .ok (taken, scopes) := by
      rw [hcondition]
      rfl
    rw [item_optional, StateT.bind_of_ok hlift]
    cases taken with
    | true => exact stmts_of_resolve body.items (Stmt.listInLists_items hs.2.1) hv hu
    | false =>
        exact stmts_of_resolve (Stmt.itemsOption otherwise)
          (Stmt.listInLists_itemsOption hs.2.2) hv hu
  · have hplain := Stmt.isOptional_eq_false hoptional
    exact item_of_plain_resolve hplain
      (fun hu' => stmt_of_resolve s (Stmt.inLists_of_plain hplain hs) hv hu') hu
termination_by 4 * sizeOf s + 1
decreasing_by
  · rw [heq]
    exact Stmt.sizeOf_otherwise_lt _ _ _ _
  · rw [heq]
    exact Stmt.sizeOf_body_lt _ _ _ _
  · omega

/-- If the first pass resolves a list, the fused pass gives what the second pass makes of that. -/
theorem stmts_of_resolve (ss : List Stmt) {us : List Stmt} {v : Visible} {scopes : Scopes}
    (hs : Stmt.listInLists ss) (hv : Sees v scopes) (hu : p.resolveList ss = .ok us) :
    p.stmts ss scopes =
      Stmt.inScopesList p.substitute v us >>= fun ts =>
        .ok (ts, scopes.declareAll (Stmt.localsList us)) := by
  cases ss with
  | nil =>
      rw [resolveList] at hu
      cases hu
      rfl
  | cons s rest =>
      rw [resolveList] at hu
      obtain ⟨first, hfirst, hu⟩ := Except.bind_eq_ok_iff.mp hu
      obtain ⟨others, hothers, hu⟩ := Except.bind_eq_ok_iff.mp hu
      cases hu
      have hhead := item_of_resolveItem s hs.1 hv hfirst
      have htail := stmts_of_resolve rest hs.2 (hv.declareAll (Stmt.localsList first)) hothers
      rw [stmts_cons, Stmt.inScopesList_append]
      simp only [StateT.bind_apply, hhead, htail, bind_assoc, Except.ok_bind,
        Stmt.localsList_append, Scopes.declareAll_append]
      rfl
termination_by 4 * sizeOf ss
decreasing_by
  all_goals subst_vars; simp +arith

theorem arms_of_resolve (arms : List (Expr × Stmt)) {us : List (Expr × Stmt)} {v : Visible}
    {scopes : Scopes} (hs : Stmt.armsInLists arms) (hv : Sees v scopes)
    (hu : p.resolveArms arms = .ok us) :
    p.arms arms scopes =
      Stmt.inScopesArms p.substitute v us >>= fun ts =>
        .ok (ts, scopes.declareAll (Stmt.localsArms us)) := by
  match arms with
  | [] =>
      rw [resolveArms] at hu
      cases hu
      rfl
  | (c, s) :: rest =>
      rw [resolveArms] at hu
      obtain ⟨first, hfirst, hu⟩ := Except.bind_eq_ok_iff.mp hu
      obtain ⟨others, hothers, hu⟩ := Except.bind_eq_ok_iff.mp hu
      cases hu
      have hhead := stmt_of_resolve s hs.1 hv hfirst
      have htail := arms_of_resolve rest hs.2 (hv.declareAll first.locals) hothers
      simp only [Permutation.arms, Stmt.inScopesArms, StateT.bind_apply, expr_eq_substitute hv,
        hhead, htail, bind_assoc, Except.ok_bind, Stmt.localsArms, Scopes.declareAll_append]
      rfl
termination_by 4 * sizeOf arms
decreasing_by
  all_goals subst_vars; simp +arith

theorem optionStmt_of_resolve (s : Option Stmt) {u : Option Stmt} {v : Visible}
    {scopes : Scopes} (hs : Stmt.optionInLists s) (hv : Sees v scopes)
    (hu : p.resolveOption s = .ok u) :
    p.optionStmt s scopes =
      Stmt.inScopesOption p.substitute v u >>= fun t =>
        .ok (t, scopes.declareAll (Stmt.localsOption u)) := by
  cases s with
  | none =>
      rw [resolveOption] at hu
      cases hu
      rfl
  | some s =>
      rw [resolveOption] at hu
      obtain ⟨u', hu', hu⟩ := Except.bind_eq_ok_iff.mp hu
      cases hu
      have hinner := stmt_of_resolve s hs hv hu'
      simp only [optionStmt, Stmt.inScopesOption, StateT.bind_apply, hinner, bind_assoc,
        Except.ok_bind, Stmt.localsOption]
      rfl
termination_by 4 * sizeOf s
decreasing_by
  all_goals subst_vars; simp +arith

end

end Fusion

section Resolving

mutual

/-- What the specializer succeeds on the first pass succeeds on. -/
theorem resolve_of_stmt (s : Stmt) {t : Stmt} {scopes scopes' : Scopes}
    (h : p.stmt s scopes = .ok (t, scopes')) : ∃ u, p.resolve s = .ok u := by
  cases s with
  | branch b arms otherwise =>
      obtain ⟨_, _, _, harms, hother, _⟩ := of_stmt_branch h
      obtain ⟨arms', harms⟩ := resolveArms_of_arms arms harms
      obtain ⟨otherwise', hother⟩ := resolveOption_of_optionStmt otherwise hother
      exact ⟨.branch b arms' otherwise', by simp only [resolve, harms, hother, Except.ok_bind]; rfl⟩
  | forLoop b init condition step body =>
      obtain ⟨_, _, _, _, _, _, hinit, _, _, hbody, _, _⟩ := of_stmt_forLoop h
      obtain ⟨init', hinit⟩ := resolveOption_of_optionStmt init hinit
      obtain ⟨body', hbody⟩ := resolve_of_stmt body hbody
      exact ⟨.forLoop b init' condition step body',
        by simp only [resolve, hinit, hbody, Except.ok_bind]; rfl⟩
  | whileLoop b condition body =>
      obtain ⟨_, _, _, hbody, _⟩ := of_stmt_whileLoop h
      obtain ⟨body', hbody⟩ := resolve_of_stmt body hbody
      exact ⟨.whileLoop b condition body', by simp only [resolve, hbody, Except.ok_bind]; rfl⟩
  | doWhile b body condition =>
      obtain ⟨_, _, hbody, _, _⟩ := of_stmt_doWhile h
      obtain ⟨body', hbody⟩ := resolve_of_stmt body hbody
      exact ⟨.doWhile b body' condition, by simp only [resolve, hbody, Except.ok_bind]; rfl⟩
  | function b f body =>
      obtain ⟨_, _, hbody, _, _⟩ := of_stmt_function h
      obtain ⟨body', hbody⟩ := resolveList_of_stmts body hbody
      exact ⟨.function b f body', by simp only [resolve, hbody, Except.ok_bind]; rfl⟩
  | block b items =>
      obtain ⟨_, _, hitems, _, _⟩ := of_stmt_block h
      obtain ⟨items', hitems⟩ := resolveList_of_stmts items hitems
      exact ⟨.block b items', by simp only [resolve, hitems, Except.ok_bind]; rfl⟩
  | _ => exact ⟨_, by simp only [resolve]; rfl⟩
termination_by 4 * sizeOf s
decreasing_by
  all_goals subst_vars; simp +arith

/-- Where the fused pass succeeds on an item, so does the first pass. -/
theorem resolveItem_of_item (s : Stmt) {ts : List Stmt} {scopes scopes' : Scopes}
    (h : p.item s scopes = .ok (ts, scopes')) : ∃ us, p.resolveItem s = .ok us := by
  by_cases hoptional : ∃ b condition body otherwise, s = .optional b condition body otherwise
  · obtain ⟨b, condition, body, otherwise, heq⟩ := hoptional
    rw [heq, item_optional] at h
    obtain ⟨taken, mid, htaken, h⟩ := StateT.bind_eq_ok_iff.mp h
    obtain ⟨taken, hcondition, htaken⟩ := Except.bind_eq_ok_iff.mp htaken
    cases htaken
    replace hcondition : condition.evaluateCondition p.lookup = .ok taken := hcondition
    rw [heq, resolveItem, hcondition]
    cases taken with
    | true => exact resolveList_of_stmts body.items h
    | false => exact resolveList_of_stmts (Stmt.itemsOption otherwise) h
  · have hplain := Stmt.isOptional_eq_false hoptional
    cases hdrops : p.drops s with
    | true => exact ⟨[], resolveItem_of_drops hdrops⟩
    | false =>
        rw [item_of_plain hplain hdrops] at h
        obtain ⟨t, mid, ht, _⟩ := StateT.bind_eq_ok_iff.mp h
        obtain ⟨u, hu⟩ := resolve_of_stmt s ht
        rw [resolveItem_of_plain hplain hdrops, hu]
        exact ⟨[u], rfl⟩
termination_by 4 * sizeOf s + 1
decreasing_by
  · rw [heq]
    exact Stmt.sizeOf_otherwise_lt _ _ _ _
  · rw [heq]
    exact Stmt.sizeOf_body_lt _ _ _ _
  · omega

theorem resolveList_of_stmts (ss : List Stmt) {ts : List Stmt} {scopes scopes' : Scopes}
    (h : p.stmts ss scopes = .ok (ts, scopes')) : ∃ us, p.resolveList ss = .ok us := by
  cases ss with
  | nil => exact ⟨[], by rw [resolveList]; rfl⟩
  | cons s rest =>
      rw [stmts_cons] at h
      obtain ⟨first, mid, hfirst, h⟩ := StateT.bind_eq_ok_iff.mp h
      obtain ⟨others, last, hothers, _⟩ := StateT.bind_eq_ok_iff.mp h
      obtain ⟨us, hus⟩ := resolveItem_of_item s hfirst
      obtain ⟨ws, hws⟩ := resolveList_of_stmts rest hothers
      exact ⟨us ++ ws, by simp only [resolveList, hus, hws, Except.ok_bind]; rfl⟩
termination_by 4 * sizeOf ss
decreasing_by
  all_goals subst_vars; simp +arith

theorem resolveArms_of_arms (arms : List (Expr × Stmt)) {ts : List (Expr × Stmt)}
    {scopes scopes' : Scopes} (h : p.arms arms scopes = .ok (ts, scopes')) :
    ∃ us, p.resolveArms arms = .ok us := by
  match arms with
  | [] => exact ⟨[], by rw [resolveArms]; rfl⟩
  | (c, s) :: rest =>
      obtain ⟨_, _, _, _, _, hs, hrest, _⟩ := of_arms_cons h
      obtain ⟨u, hu⟩ := resolve_of_stmt s hs
      obtain ⟨us, hus⟩ := resolveArms_of_arms rest hrest
      exact ⟨(c, u) :: us, by simp only [resolveArms, hu, hus, Except.ok_bind]; rfl⟩
termination_by 4 * sizeOf arms
decreasing_by
  all_goals subst_vars; simp +arith

theorem resolveOption_of_optionStmt (s : Option Stmt) {t : Option Stmt}
    {scopes scopes' : Scopes} (h : p.optionStmt s scopes = .ok (t, scopes')) :
    ∃ u, p.resolveOption s = .ok u := by
  cases s with
  | none => exact ⟨none, by rw [resolveOption]; rfl⟩
  | some s =>
      obtain ⟨_, hs, _⟩ := of_optionStmt_some h
      obtain ⟨u, hu⟩ := resolve_of_stmt s hs
      exact ⟨some u, by simp only [resolveOption, hu, Except.ok_bind]; rfl⟩
termination_by 4 * sizeOf s
decreasing_by
  all_goals subst_vars; simp +arith

end

end Resolving

/-- At file level one traversal gives what both passes give. -/
theorem stmt_eq_ok_iff_twoPass {tree out : Stmt} (h : tree.InLists false) :
    (∃ scopes, p.stmt tree [] = .ok (out, scopes)) ↔ p.twoPass tree = .ok out := by
  constructor
  · rintro ⟨scopes, hrun⟩
    obtain ⟨u, hu⟩ := resolve_of_stmt tree hrun
    rw [stmt_of_resolve tree h Sees.nil hu] at hrun
    obtain ⟨t, ht, hrun⟩ := Except.bind_eq_ok_iff.mp hrun
    cases hrun
    rw [twoPass, hu]
    exact ht
  · intro hpasses
    obtain ⟨u, hu, ht⟩ := Except.bind_eq_ok_iff.mp hpasses
    rw [stmt_of_resolve tree h Sees.nil hu, ht]
    exact ⟨_, rfl⟩

end Permutation

namespace Specializer

/-- Where optional blocks stand in lists only, the specializer succeeds exactly when both
passes do, and gives the same tree. -/
theorem process_eq_ok_iff_twoPass {s : Specializer} {tree out : Stmt} {p : Permutation}
    (hlists : tree.InLists false) (hp : Permutation.of s tree = .ok p) :
    s.process tree = .ok out ↔ p.twoPass tree = .ok out := by
  rw [← Permutation.stmt_eq_ok_iff_twoPass hlists, process, hp, Except.ok_bind]
  constructor
  · intro h
    obtain ⟨⟨t, scopes⟩, hrun, h⟩ := Except.bind_eq_ok_iff.mp h
    cases h
    exact ⟨scopes, hrun⟩
  · rintro ⟨scopes, hrun⟩
    exact Except.bind_eq_ok_iff.mpr ⟨(out, scopes), hrun, rfl⟩

/-- `option { bool S; int K; } void f() { optional (S) { int K = K; } int b = K; } int c = K;` -/
def shadowTokens : List Token :=
  [.keyword .option, .symbol .lbrace, .ident "bool", .ident "S", .symbol .semicolon,
    .ident "int", .ident "K", .symbol .semicolon, .symbol .rbrace, .ident "void", .ident "f",
    .symbol .lparen, .symbol .rparen, .symbol .lbrace, .keyword .optional, .symbol .lparen,
    .ident "S", .symbol .rparen, .symbol .lbrace, .ident "int", .ident "K", .symbol .eq,
    .ident "K", .symbol .semicolon, .symbol .rbrace, .ident "int", .ident "b", .symbol .eq,
    .ident "K", .symbol .semicolon, .symbol .rbrace, .ident "int", .ident "c", .symbol .eq,
    .ident "K", .symbol .semicolon, .eof].map fun k => ⟨k, Span.dummy, Position.nowhere⟩

/-- The two passes agree on a file whose option is shadowed by a local. -/
theorem shadow_twoPass :
    ∃ tree p out, parseTokens shadowTokens Registry.standard = .ok tree ∧
      tree.InLists false ∧
      Permutation.of ⟨[("S", .bool true), ("K", .int 2)], ⟨false, false⟩, .newest⟩ tree = .ok p ∧
      Specializer.process ⟨[("S", .bool true), ("K", .int 2)], ⟨false, false⟩, .newest⟩ tree =
        .ok out ∧
      p.twoPass tree = .ok out := by
  obtain ⟨tree, p, out, hparse, hlists, hp, hrun⟩ :
      ∃ tree p out, parseTokens shadowTokens Registry.standard = .ok tree ∧
        tree.InLists false ∧
        Permutation.of ⟨[("S", .bool true), ("K", .int 2)], ⟨false, false⟩, .newest⟩ tree = .ok p ∧
        Specializer.process ⟨[("S", .bool true), ("K", .int 2)], ⟨false, false⟩, .newest⟩ tree =
          .ok out :=
    ⟨_, _, _, rfl, by simp [Stmt.InLists, Stmt.listInLists, Stmt.alternativeInLists], rfl,
      rfl⟩
  exact ⟨tree, p, out, hparse, hlists, hp, hrun, (process_eq_ok_iff_twoPass hlists hp).mp hrun⟩

end Specializer

end Shading
