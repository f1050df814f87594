import Shading.Proofs.Options.Placement

/-!
# What a statement can tell of the options

Two permutations that agree on the names that a statement mentions specialize it alike, in
all scopes: both fail with the same error, or both give the same statement.
-/

namespace Shading

/-- A name is referred to among the nodes. -/
def Mentions (ns : List Node) (n : String) : Prop :=
  ∃ span, Node.expr (.ref span n) ∈ ns

namespace Permutation

variable {p q : Permutation}

/-- Two permutations give the same values to all names that are mentioned. -/
def AgreesOn (p q : Permutation) (ns : List Node) : Prop :=
  ∀ n, Mentions ns n → p.value? n = q.value? n

theorem AgreesOn.mono {ns ms : List Node} (h : p.AgreesOn q ms) (hsub : ns ⊆ ms) :
    p.AgreesOn q ns := by
  rintro n ⟨span, hmem⟩
  exact h n ⟨span, hsub hmem⟩

@[simp] theorem agreesOn_nil : p.AgreesOn q [] := by
  rintro n ⟨_, hmem⟩
  cases hmem

@[simp] theorem agreesOn_cons (node : Node) (ns : List Node) :
    p.AgreesOn q (node :: ns) ↔
      (∀ span n, node = .expr (.ref span n) → p.value? n = q.value? n) ∧ p.AgreesOn q ns := by
  constructor
  · intro h
    exact ⟨fun span n hnode => h n ⟨span, by simp [hnode]⟩, h.mono (List.subset_cons_self _ _)⟩
  · rintro ⟨hhead, htail⟩ n ⟨span, hmem⟩
    rcases List.mem_cons.mp hmem with hnode | hmem
    · exact hhead span n hnode.symm
    · exact htail n ⟨span, hmem⟩

@[simp] theorem agreesOn_append (ns ms : List Node) :
    p.AgreesOn q (ns ++ ms) ↔ p.AgreesOn q ns ∧ p.AgreesOn q ms := by
  constructor
  · intro h
    exact ⟨h.mono (List.subset_append_left _ _), h.mono (List.subset_append_right _ _)⟩
  · rintro ⟨hfirst, hsecond⟩ n ⟨span, hmem⟩
    rcases List.mem_append.mp hmem with hmem | hmem
    · exact hfirst n ⟨span, hmem⟩
    · exact hsecond n ⟨span, hmem⟩

theorem AgreesOn.flatMap {α : Type} {f : α → List Node} {as : List α}
    (h : p.AgreesOn q (as.flatMap f)) {a : α} (ha : a ∈ as) : p.AgreesOn q (f a) :=
  h.mono fun _ hmem => List.mem_flatMap.mpr ⟨a, ha, hmem⟩

theorem lookup_congr {n : String} (h : p.value? n = q.value? n) (span : Span) :
    p.lookup n span = q.lookup n span := by
  rw [lookup, lookup, h]

end Permutation

namespace Expr

variable {p q : Permutation}

/-- The value of a condition depends on the options it mentions. -/
theorem evaluate_congr (e : Expr) (h : p.AgreesOn q e.nodes) :
    e.evaluate p.lookup = e.evaluate q.lookup := by
  cases e with
  | constant s v => rfl
  | ref s n =>
      simp only [nodes, Permutation.agreesOn_cons] at h
      exact Permutation.lookup_congr (h.1 s n rfl) s
  | unary s op operand =>
      simp only [nodes, Permutation.agreesOn_cons] at h
      simp only [evaluate, evaluate_congr operand h.2]
  | binary s op left right =>
      simp only [nodes, Permutation.agreesOn_cons, Permutation.agreesOn_append] at h
      simp only [evaluate, evaluate_congr left h.2.1, evaluate_congr right h.2.2]
  | ternary s c t f =>
      simp only [nodes, Permutation.agreesOn_cons, Permutation.agreesOn_append] at h
      simp only [evaluate, evaluate_congr c h.2.1.1, evaluate_congr t h.2.1.2,
        evaluate_congr f h.2.2]
  | _ => rfl

theorem evaluateCondition_congr (e : Expr) (h : p.AgreesOn q e.nodes) :
    e.evaluateCondition p.lookup = e.evaluateCondition q.lookup := by
  rw [evaluateCondition, evaluateCondition, e.evaluate_congr h]

mutual

/-- The literals put into an expression depend on the options it mentions. -/
theorem specialize_congr (e : Expr) (h : p.AgreesOn q e.nodes) (scopes : Scopes) :
    e.specialize p scopes = e.specialize q scopes := by
  cases e with
  | constant s v => rfl
  | ref s n =>
      simp only [nodes, Permutation.agreesOn_cons] at h
      simp only [specialize, h.1 s n rfl]
  | index s base place =>
      simp only [nodes, Permutation.agreesOn_cons, Permutation.agreesOn_append] at h
      simp only [specialize, specialize_congr base h.2.1, specialize_congr place h.2.2]
  | field s base name =>
      simp only [nodes, Permutation.agreesOn_cons] at h
      simp only [specialize, specialize_congr base h.2]
  | assign s op target value =>
      simp only [nodes, Permutation.agreesOn_cons, Permutation.agreesOn_append] at h
      simp only [specialize, specialize_congr target h.2.1, specialize_congr value h.2.2]
  | unary s op operand =>
      simp only [nodes, Permutation.agreesOn_cons] at h
      simp only [specialize, specialize_congr operand h.2]
  | binary s op left right =>
      simp only [nodes, Permutation.agreesOn_cons, Permutation.agreesOn_append] at h
      simp only [specialize, specialize_congr left h.2.1, specialize_congr right h.2.2]
  | call s name args =>
      simp only [nodes, Permutation.agreesOn_cons] at h
      simp only [specialize, specializeList_congr args h.2]
  | builtin s f args =>
      simp only [nodes, Permutation.agreesOn_cons] at h
      simp only [specialize, specializeList_congr args h.2]
  | cast s target args =>
      simp only [nodes, Permutation.agreesOn_cons] at h
      simp only [specialize, specializeList_congr args h.2.2]
  | swizzle s base selection =>
      simp only [nodes, Permutation.agreesOn_cons] at h
      simp only [specialize, specialize_congr base h.2]
  | ternary s c t f =>
      simp only [nodes, Permutation.agreesOn_cons, Permutation.agreesOn_append] at h
      simp only [specialize, specialize_congr c h.2.1.1, specialize_congr t h.2.1.2,
        specialize_congr f h.2.2]

theorem specializeList_congr (es : List Expr) (h : p.AgreesOn q (nodesList es))
    (scopes : Scopes) : specializeList p scopes es = specializeList q scopes es := by
  cases es with
  | nil => rfl
  | cons e rest =>
      simp only [nodesList, Permutation.agreesOn_append] at h
      simp only [specializeList, specialize_congr e h.1, specializeList_congr rest h.2]

end

end Expr

namespace Permutation

variable {p q : Permutation}

/-- A run on an expression depends on the options it mentions. -/
theorem expr_congr {e : Expr} (h : p.AgreesOn q e.nodes) : p.expr e = q.expr e := by
  funext scopes
  simp only [expr, e.specialize_congr h scopes]

theorem optionExpr_congr {e : Option Expr} (h : p.AgreesOn q (Expr.nodesOption e)) :
    p.optionExpr e = q.optionExpr e := by
  cases e with
  | none => rfl
  | some e => simp only [optionExpr, expr_congr h]

theorem mapM_congr {α β : Type} {f g : α → Scoped β} {as : List α} (h : ∀ a ∈ as, f a = g a) :
    as.mapM f = as.mapM g := by
  induction as with
  | nil => rfl
  | cons a rest ih =>
      rw [List.mapM_cons, List.mapM_cons, h a List.mem_cons_self,
        ih fun b hb => h b (List.mem_cons_of_mem _ hb)]

/-- Whether a statement is dropped depends on the configuration only. -/
theorem drops_congr (hkeep : p.config.keepOptions = q.config.keepOptions) (s : Stmt) :
    p.drops s = q.drops s := by
  cases s with
  | options _ _ => simp only [drops, hkeep]
  | _ => rfl

mutual

/-- What a permutation makes of a statement depends on the options that it mentions only. -/
theorem stmt_congr (hkeep : p.config.keepOptions = q.config.keepOptions) (s : Stmt)
    (h : p.AgreesOn q s.nodes) : p.stmt s = q.stmt s := by
  cases s with
  | branch b arms otherwise =>
      simp only [Stmt.nodes, agreesOn_cons, agreesOn_append] at h
      simp only [stmt, arms_congr hkeep arms h.2.1, optionStmt_congr hkeep otherwise h.2.2]
  | forLoop b init condition step body =>
      simp only [Stmt.nodes, agreesOn_cons, agreesOn_append] at h
      simp only [stmt, optionStmt_congr hkeep init h.2.1.1.1, optionExpr_congr h.2.1.1.2,
        optionExpr_congr h.2.1.2, stmt_congr hkeep body h.2.2]
  | whileLoop b condition body =>
      simp only [Stmt.nodes, agreesOn_cons, agreesOn_append] at h
      simp only [stmt, expr_congr h.2.1, stmt_congr hkeep body h.2.2]
  | doWhile b body condition =>
      simp only [Stmt.nodes, agreesOn_cons, agreesOn_append] at h
      simp only [stmt, expr_congr h.2.1, stmt_congr hkeep body h.2.2]
  | var b d =>
      simp only [Stmt.nodes, agreesOn_cons] at h
      simp only [stmt, optionExpr_congr h.2.2]
  | options b ds =>
      simp only [Stmt.nodes, agreesOn_cons] at h
      have hds : ds.mapM p.optionDeclaration = ds.mapM q.optionDeclaration := by
        refine mapM_congr fun d hd => ?_
        have hentry := h.2.flatMap hd
        simp only [agreesOn_cons] at hentry
        simp only [optionDeclaration, optionExpr_congr hentry.2]
      simp only [stmt, hds]
  | consts b ds =>
      simp only [Stmt.nodes, agreesOn_cons] at h
      have hds : ds.mapM p.constDeclaration = ds.mapM q.constDeclaration := by
        refine mapM_congr fun d hd => ?_
        have hentry := h.2.flatMap hd
        simp only [agreesOn_cons] at hentry
        simp only [constDeclaration, expr_congr hentry.2]
      simp only [stmt, hds]
  | function b f body =>
      simp only [Stmt.nodes, agreesOn_cons, agreesOn_append] at h
      simp only [stmt, stmts_congr hkeep body h.2.2.2.2]
  | expr b e =>
      simp only [Stmt.nodes, agreesOn_cons] at h
      simp only [stmt, expr_congr h.2]
  | ret b value =>
      simp only [Stmt.nodes, agreesOn_cons] at h
      simp only [stmt, optionExpr_congr h.2]
  | block b items =>
      simp only [Stmt.nodes, agreesOn_cons] at h
      simp only [stmt, stmts_congr hkeep items h.2]
  | optional b condition body otherwise =>
      simp only [Stmt.nodes, agreesOn_cons, agreesOn_append] at h
      rw [stmt_optional, stmt_optional, condition.evaluateCondition_congr h.2.1.1,
        branchStmts_congr hkeep body h.2.1.2]
      cases otherwise with
      | none => rfl
      | some s => rw [alternative_some, alternative_some, branchStmts_congr hkeep s h.2.2]
  | _ => simp only [stmt]
termination_by 4 * sizeOf s
decreasing_by
  all_goals subst_vars; simp +arith

/-- The run on a branch depends on the options mentioned in it. -/
theorem branchStmts_congr (hkeep : p.config.keepOptions = q.config.keepOptions) (s : Stmt)
    (h : p.AgreesOn q s.nodes) : p.branchStmts s = q.branchStmts s := by
  by_cases hblock : ∃ b items, s = .block b items
  · obtain ⟨b, items, rfl⟩ := hblock
    simp only [Stmt.nodes, agreesOn_cons] at h
    rw [branchStmts_block, branchStmts_block, stmts_congr hkeep items h.2]
  · have hne : ∀ b items, s ≠ .block b items := fun b items hb => hblock ⟨b, items, hb⟩
    rw [branchStmts_of_ne_block hne, branchStmts_of_ne_block hne, drops_congr hkeep,
      stmt_congr hkeep s h]
termination_by 4 * sizeOf s + 1
decreasing_by
  all_goals subst_vars; simp +arith

/-- The run on a list depends on the options mentioned in it. -/
theorem stmts_congr (hkeep : p.config.keepOptions = q.config.keepOptions) (ss : List Stmt)
    (h : p.AgreesOn q (Stmt.nodesList ss)) : p.stmts ss = q.stmts ss := by
  cases ss with
  | nil => simp only [stmts]
  | cons s rest =>
      simp only [Stmt.nodesList, agreesOn_append] at h
      simp only [stmts, drops_congr hkeep, stmt_congr hkeep s h.1, stmts_congr hkeep rest h.2]
termination_by 4 * sizeOf ss
decreasing_by
  all_goals subst_vars; simp +arith

theorem arms_congr (hkeep : p.config.keepOptions = q.config.keepOptions)
    (as : List (Expr × Stmt)) (h : p.AgreesOn q (Stmt.nodesArms as)) :
    p.arms as = q.arms as := by
  match as with
  | [] => simp only [arms]
  | (c, s) :: rest =>
      simp only [Stmt.nodesArms, agreesOn_append] at h
      simp only [arms, expr_congr h.1.1, stmt_congr hkeep s h.1.2, arms_congr hkeep rest h.2]
termination_by 4 * sizeOf as
decreasing_by
  all_goals simp +arith

theorem optionStmt_congr (hkeep : p.config.keepOptions = q.config.keepOptions)
    (s : Option Stmt) (h : p.AgreesOn q (Stmt.nodesOption s)) :
    p.optionStmt s = q.optionStmt s := by
  cases s with
  | none => simp only [optionStmt]
  | some s => simp only [optionStmt, stmt_congr hkeep s h]
termination_by 4 * sizeOf s
decreasing_by
  all_goals subst_vars; simp +arith

end

/-- Coercing a binding keeps its name. -/
theorem coerceBinding_fst {ds : List OptionDeclaration} {x y : String × Constant}
    (h : coerceBinding ds x = .ok y) : y.1 = x.1 := by
  unfold coerceBinding at h
  split at h
  · obtain ⟨_, _, h⟩ := Except.bind_eq_ok_iff.mp h
    cases h
    rfl
  · cases h
    rfl

/-- The coerced value of a name depends on the bound value of this name only. -/
theorem lookup_coerced {ds : List OptionDeclaration} {xs ys : List (String × Constant)}
    (h : xs.mapM (coerceBinding ds) = .ok ys) (n : String) :
    (xs.lookup n).mapM (fun v => Prod.snd <$> coerceBinding ds (n, v)) = .ok (ys.lookup n) := by
  induction xs generalizing ys with
  | nil =>
      cases h
      rfl
  | cons x rest ih =>
      rw [List.mapM_cons] at h
      obtain ⟨y, hy, h⟩ := Except.bind_eq_ok_iff.mp h
      obtain ⟨ys', hys, h⟩ := Except.bind_eq_ok_iff.mp h
      cases h
      obtain ⟨m, v⟩ := x
      obtain ⟨m', w⟩ := y
      obtain rfl : m' = m := coerceBinding_fst hy
      rw [List.lookup_cons, List.lookup_cons]
      cases heq : n == m' with
      | true =>
          obtain rfl : n = m' := eq_of_beq heq
          simp only [Option.mapM_some, hy]
          rfl
      | false => exact ih hys

/-- Permutations of one tree agree on the names that their specializers agree on. -/
theorem value?_congr {a b : Specializer} {tree : Stmt} (hconfig : a.config = b.config)
    (hp : Permutation.of a tree = .ok p) (hq : Permutation.of b tree = .ok q) {n : String}
    (h : a.value? n = b.value? n) : p.value? n = q.value? n := by
  obtain ⟨as, has, hp⟩ := Except.bind_eq_ok_iff.mp hp
  obtain ⟨bs, hbs, hq⟩ := Except.bind_eq_ok_iff.mp hq
  cases hp
  cases hq
  have hlookup : as.lookup n = bs.lookup n := by
    have ha := lookup_coerced has n
    have hb := lookup_coerced hbs n
    rw [VisitOrder.lookup_arrange] at ha hb
    rw [show a.bound.lookup n = b.bound.lookup n from h, hb] at ha
    exact (Except.ok.inj ha).symm
  simp only [value?, hlookup, hconfig]

end Permutation

end Shading
