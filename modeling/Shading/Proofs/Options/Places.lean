import Mathlib.Data.List.Basic
import Shading.Options.Specialize
import Shading.Proofs.Parallel
import Shading.Proofs.Syntax.ErasedNodes

/-!
# Specializing wherever the parts stand

Values are chosen by name. A tree and the tree without its places are specialized to trees
that are the same but for their places, or both are refused.
-/

namespace Shading

namespace OptionDeclaration

/-- A value is coerced alike, wherever the option is declared. -/
theorem parallel_coerce (d : OptionDeclaration) (value : Constant) :
    Except.Parallel Eq (d.coerce value) (d.erased.coerce value) := by
  obtain ⟨name, t, default, span⟩ := d
  unfold coerce erased
  dsimp only
  split
  · exact .ok rfl
  · split
    · exact .ok rfl
    · exact .error

end OptionDeclaration

theorem Stmt.exists_block_of_eraseSpans {s : Stmt} {b : Span} {items : List Stmt}
    (h : s.eraseSpans = .block b items) : ∃ b items, s = .block b items := by
  cases s with
  | block b items => exact ⟨b, items, rfl⟩
  | _ => simp at h

/-- The options that a tree declares are found in a tree without spans as well. -/
theorem Stmt.declaredOptions_eraseSpans (s : Stmt) :
    s.eraseSpans.declaredOptions = s.declaredOptions.map OptionDeclaration.erased := by
  rw [declaredOptions, declaredOptions, nodes_eraseSpans, List.flatMap_map, List.map_flatMap]
  refine List.flatMap_congr fun node _ => ?_
  cases node with
  | stmt s => cases s <;> simp [Node.erased]
  | _ => rfl

namespace Expr

variable {lookup lookup' : String → Span → Except SpecializeError Constant}

/-- Expressions are evaluated alike when their references are. -/
theorem parallel_evaluate (h : ∀ n s s', Except.Parallel Eq (lookup n s) (lookup' n s'))
    (e : Expr) : Except.Parallel Eq (e.evaluate lookup) (e.erased.evaluate lookup') := by
  match e with
  | .constant s v => exact .ok rfl
  | .ref s n => exact h n _ _
  | .unary s op operand =>
      refine (parallel_evaluate h operand).bindEq fun v => ?_
      split
      · exact .ok rfl
      · exact .error
  | .binary s op left right =>
      refine (parallel_evaluate h left).bindEq fun l => (parallel_evaluate h right).bindEq fun r =>
        ?_
      split
      · exact .ok rfl
      · exact .error
  | .ternary s c t f =>
      refine (parallel_evaluate h c).bindEq fun v => ?_
      split
      · exact parallel_evaluate h t
      · exact parallel_evaluate h f
      · exact .error
  | .index .. => exact .error
  | .field .. => exact .error
  | .assign .. => exact .error
  | .call .. =>
      rw [erased_call]
      exact .error
  | .builtin .. =>
      rw [erased_builtin]
      exact .error
  | .cast .. =>
      rw [erased_cast]
      exact .error
  | .swizzle .. => exact .error

/-- A condition has the same value, or fails alike, where the lookups do. -/
theorem parallel_evaluateCondition
    (h : ∀ n s s', Except.Parallel Eq (lookup n s) (lookup' n s')) (e : Expr) :
    Except.Parallel Eq (e.evaluateCondition lookup) (e.erased.evaluateCondition lookup') := by
  refine (e.parallel_evaluate h).bindEq fun v => ?_
  split
  · exact .ok rfl
  · exact .error

end Expr

namespace Permutation

/-- The permutation without the places of the declarations. -/
def erased (p : Permutation) : Permutation :=
  { p with declared := p.declared.map OptionDeclaration.erased }

theorem declaration?_erased (declared : List OptionDeclaration) (name : String) :
    declaration? (declared.map OptionDeclaration.erased) name =
      (declaration? declared name).map OptionDeclaration.erased :=
  List.find?_map

/-- A binding is coerced alike, wherever the options are declared. -/
theorem parallel_coerceBinding (declared : List OptionDeclaration) (binding : String × Constant) :
    Except.Parallel Eq (coerceBinding declared binding)
      (coerceBinding (declared.map OptionDeclaration.erased) binding) := by
  unfold coerceBinding
  rw [declaration?_erased]
  cases declaration? declared binding.1 with
  | none => exact .ok rfl
  | some d => exact (d.parallel_coerce _).bindEq fun _ => .ok rfl

/-- A permutation is made of a tree without spans as of the tree. -/
theorem parallel_of (s : Specializer) (tree : Stmt) :
    Except.Parallel (fun p p' => p' = p.erased) (of s tree) (of s tree.eraseSpans) := by
  unfold of
  rw [Stmt.declaredOptions_eraseSpans]
  exact (Except.Parallel.mapM (s.order.arrange s.bound)
    fun binding => parallel_coerceBinding _ binding).bindEq fun _ => .ok rfl

variable (p : Permutation)

theorem parallel_value? (name : String) :
    Except.Parallel Eq (p.value? name) (p.erased.value? name) := by
  have hnone : ∀ n s s', Except.Parallel Eq (noOptions n s) (noOptions n s') := fun _ _ _ => .error
  have hbound : p.erased.bound = p.bound := rfl
  unfold value?
  rw [hbound]
  cases p.bound.lookup name with
  | some v => exact .ok rfl
  | none =>
      refine .ite (fun _ => ?_) fun _ => .ok rfl
      have hfind : declaration? p.erased.declared name = _ := declaration?_erased p.declared name
      rw [hfind]
      cases declaration? p.declared name with
      | none => exact .ok rfl
      | some d =>
          obtain ⟨n, t, default, s⟩ := d
          cases default with
          | none => exact .ok rfl
          | some e =>
              exact (e.parallel_evaluate hnone).bindEq fun v =>
                (OptionDeclaration.parallel_coerce _ v).bindEq fun _ => .ok rfl

/-- An option is looked up alike, wherever it is mentioned. -/
theorem parallel_lookup (name : String) (s s' : Span) :
    Except.Parallel Eq (p.lookup name s) (p.erased.lookup name s') := by
  refine (p.parallel_value? name).bindEq fun v => ?_
  cases v with
  | none => exact .error
  | some v => exact .ok rfl

end Permutation

namespace Expr

variable (p : Permutation) (scopes : Scopes)

mutual

/-- References become the same values wherever they stand. -/
theorem parallel_specialize (e : Expr) :
    Except.Parallel Alike (e.specialize p scopes) (e.erased.specialize p.erased scopes) := by
  cases e with
  | constant s v => exact .ok rfl
  | ref s name =>
      refine .ite (fun _ => .ok rfl) fun _ => (p.parallel_value? name).bindEq fun v => ?_
      cases v with
      | none => exact .ok rfl
      | some v => exact .ok rfl
  | index s base place =>
      exact (parallel_specialize base).bind fun _ _ hb =>
        (parallel_specialize place).bind fun _ _ hp =>
        .ok (congrArg₂ (Expr.index .dummy) hb hp)
  | field s base name =>
      exact (parallel_specialize base).bind fun _ _ hb =>
        .ok (congrArg (Expr.field .dummy · name) hb)
  | assign s op target value =>
      exact (parallel_specialize target).bind fun _ _ ht =>
        (parallel_specialize value).bind fun _ _ hv =>
        .ok (congrArg₂ (Expr.assign .dummy op) ht hv)
  | unary s op operand =>
      exact (parallel_specialize operand).bind fun _ _ h => .ok (congrArg (Expr.unary .dummy op) h)
  | binary s op left right =>
      exact (parallel_specialize left).bind fun _ _ hl =>
        (parallel_specialize right).bind fun _ _ hr =>
        .ok (congrArg₂ (Expr.binary .dummy op) hl hr)
  | call s name args =>
      rw [erased_call]
      exact (parallel_specializeList args).bind fun _ _ h =>
        .ok (by rw [Alike, erased_call, erased_call, h])
  | builtin s f args =>
      rw [erased_builtin]
      exact (parallel_specializeList args).bind fun _ _ h =>
        .ok (by rw [Alike, erased_builtin, erased_builtin, h])
  | cast s target args =>
      rw [erased_cast]
      exact (parallel_specializeList args).bind fun _ _ h =>
        .ok (by rw [Alike, erased_cast, erased_cast, h])
  | swizzle s base selection =>
      exact (parallel_specialize base).bind fun _ _ hb =>
        .ok (congrArg (Expr.swizzle .dummy · selection) hb)
  | ternary s c t f =>
      exact (parallel_specialize c).bind fun _ _ hc => (parallel_specialize t).bind fun _ _ ht =>
        (parallel_specialize f).bind fun _ _ hf =>
          .ok (by rw [Alike, erased_ternary, erased_ternary, hc, ht, hf])

theorem parallel_specializeList (es : List Expr) :
    Except.Parallel (fun es es' => es.map erased = es'.map erased)
      (specializeList p scopes es) (specializeList p.erased scopes (es.map erased)) := by
  cases es with
  | nil => exact .ok rfl
  | cons e rest =>
      exact (parallel_specialize e).bind fun _ _ he =>
        (parallel_specializeList rest).bind fun _ _ h =>
        .ok (congrArg₂ List.cons he h)

end

end Expr

/-- Parallel from the same scopes. -/
abbrev Scoped.Parallel {α α' : Type} (R : α → α' → Prop) (m : Scoped α) (m' : Scoped α') : Prop :=
  StateT.Parallel Eq R m m'

namespace Permutation

section Scoped

variable {α : Type} {R : α → α → Prop} {work work' : Scoped α}

/-- Work in a scope is parallel where it is parallel inside. -/
theorem parallel_inScope (names : List String) (h : Scoped.Parallel R work work') :
    Scoped.Parallel R (inScope names work) (inScope names work') :=
  (StateT.Parallel.update fun _ _ hs => congrArg _ hs).bindEq fun _ => h.bind fun _ _ ha =>
    (StateT.Parallel.update fun _ _ hs => congrArg _ hs).bindEq fun _ => .pure ha

theorem parallel_inBlockScope (h : Scoped.Parallel R work work') :
    Scoped.Parallel R (inBlockScope work) (inBlockScope work') := by
  refine StateT.Parallel.state.bindEq fun scopes => ?_
  cases scopes with
  | nil => exact h
  | cons scope rest => exact parallel_inScope [] h

end Scoped

section Parts

variable (p : Permutation)

/-- An expression is specialized alike, up to its spans. -/
theorem parallel_expr (e : Expr) :
    Scoped.Parallel Expr.Alike (p.expr e) (p.erased.expr e.erased) := by
  rintro scopes _ rfl
  exact (e.parallel_specialize p scopes).bind fun _ _ h => .ok ⟨h, rfl⟩

theorem parallel_optionExpr (e : Option Expr) :
    Scoped.Parallel (fun e e' => e.map Expr.erased = e'.map Expr.erased) (p.optionExpr e)
      (p.erased.optionExpr (e.map Expr.erased)) := by
  cases e with
  | none => exact .pure rfl
  | some e => exact (p.parallel_expr e).bind fun _ _ h => .pure (congrArg some h)

theorem parallel_optionDeclaration (d : OptionDeclaration) :
    Scoped.Parallel (fun d d' => d.erased = d'.erased) (p.optionDeclaration d)
      (p.erased.optionDeclaration d.erased) :=
  (p.parallel_optionExpr d.default).bind fun _ _ h => .pure (by
    rw [OptionDeclaration.erased, OptionDeclaration.erased, h]
    rfl)

theorem parallel_constDeclaration (d : ConstDeclaration) :
    Scoped.Parallel (fun d d' => d.erased = d'.erased) (p.constDeclaration d)
      (p.erased.constDeclaration d.erased) :=
  (p.parallel_expr d.value).bind fun _ _ h => .pure (by
    rw [ConstDeclaration.erased, ConstDeclaration.erased, h]
    rfl)

theorem drops_eraseSpans (s : Stmt) : p.erased.drops s.eraseSpans = p.drops s := by
  cases s <;> simp [drops, erased]

/-- What a list takes from a statement is the same but for its places. -/
theorem contribution_alike (source : Stmt) {s s' : Stmt} (h : s.Alike s') :
    (contribution source s).map Stmt.eraseSpans =
      (contribution source.eraseSpans s').map Stmt.eraseSpans := by
  have hother (hsource : ∀ t, contribution source t = [t])
      (herased : ∀ t, contribution source.eraseSpans t = [t]) :
      (contribution source s).map Stmt.eraseSpans =
        (contribution source.eraseSpans s').map Stmt.eraseSpans := by
    rw [hsource, herased]
    exact congrArg (fun s => [s]) h
  cases source with
  | optional p c b o => rw [Stmt.erased_optional, contribution, contribution,
      ← s.items_eraseSpans, ← s'.items_eraseSpans, h]
  | _ => exact hother (fun _ => rfl) fun _ => rfl

end Parts

mutual

/-- A statement is specialized alike without its places. -/
theorem parallel_stmt (p : Permutation) (s : Stmt) :
    Scoped.Parallel Stmt.Alike (p.stmt s) (p.erased.stmt s.eraseSpans) := by
  match s with
  | .branch s arms otherwise =>
      rw [Stmt.erased_branch]
      exact (parallel_arms p arms).bind fun _ _ ha =>
        (parallel_optionStmt p otherwise).bind fun _ _ ho =>
        .pure (by rw [Stmt.Alike, Stmt.erased_branch, Stmt.erased_branch, ha, ho])
  | .forLoop s init condition step body =>
      rw [Stmt.erased_forLoop]
      refine parallel_inBlockScope ((parallel_optionStmt p init).bind fun _ _ hi =>
        (p.parallel_optionExpr condition).bind fun _ _ hc =>
          (p.parallel_optionExpr step).bind fun _ _ hs =>
        (parallel_stmt p body).bind fun _ _ hb => .pure ?_)
      rw [Stmt.Alike, Stmt.erased_forLoop, Stmt.erased_forLoop, hi, hc, hs, hb]
  | .whileLoop s condition body =>
      exact (p.parallel_expr condition).bind fun _ _ hc => (parallel_stmt p body).bind fun _ _ hb =>
        .pure (congrArg₂ (Stmt.whileLoop .dummy) hc hb)
  | .doWhile s body condition =>
      exact (parallel_stmt p body).bind fun _ _ hb => (p.parallel_expr condition).bind fun _ _ hc =>
        .pure (congrArg₂ (Stmt.doWhile .dummy) hb hc)
  | .var s d =>
      rw [Stmt.erased_var]
      refine (p.parallel_optionExpr d.initializer).bind fun _ _ h =>
        (StateT.Parallel.update fun _ _ hs => congrArg (Scopes.declare · d.name) hs).bindEq fun _ =>
          .pure ?_
      rw [Stmt.Alike, Stmt.erased_var, Stmt.erased_var, VariableDeclaration.erased,
        VariableDeclaration.erased, h]
      rfl
  | .struct s d =>
      rw [Stmt.erased_struct]
      exact .pure (by rw [Stmt.Alike, Stmt.erased_struct, Stmt.erased_struct])
  | .inputs s vs =>
      rw [Stmt.erased_inputs]
      refine .pure ?_
      rw [Stmt.Alike, Stmt.erased_inputs, Stmt.erased_inputs, List.map_map]
      rfl
  | .outputs s vs =>
      rw [Stmt.erased_outputs]
      refine .pure ?_
      rw [Stmt.Alike, Stmt.erased_outputs, Stmt.erased_outputs, List.map_map]
      rfl
  | .externals s vs =>
      rw [Stmt.erased_externals]
      refine .pure ?_
      rw [Stmt.Alike, Stmt.erased_externals, Stmt.erased_externals, List.map_map]
      rfl
  | .options s ds =>
      rw [Stmt.erased_options]
      exact (StateT.Parallel.mapM p.parallel_optionDeclaration ds).bind fun _ _ h =>
        .pure (by rw [Stmt.Alike, Stmt.erased_options, Stmt.erased_options, h])
  | .consts s ds =>
      rw [Stmt.erased_consts]
      exact (StateT.Parallel.mapM p.parallel_constDeclaration ds).bind fun _ _ h =>
        .pure (by rw [Stmt.Alike, Stmt.erased_consts, Stmt.erased_consts, h])
  | .function s f body =>
      rw [Stmt.erased_function]
      have hnames : f.erased.parameters.map (·.name) = f.parameters.map (·.name) := by
        rw [Signature.erased, List.map_map]
        rfl
      rw [stmt, stmt, hnames]
      refine (parallel_inScope _ (parallel_stmts p body)).bind fun _ _ hb => .pure ?_
      have hsignature : f.erased.erased = f.erased := by
        rw [Signature.erased, Signature.erased, List.map_map]
        rfl
      rw [Stmt.Alike, Stmt.erased_function, Stmt.erased_function, hb, hsignature]
  | .expr s e => exact (p.parallel_expr e).bind fun _ _ h => .pure (congrArg (Stmt.expr .dummy) h)
  | .ret s value =>
      rw [Stmt.erased_ret]
      exact (p.parallel_optionExpr value).bind fun _ _ h =>
        .pure (by rw [Stmt.Alike, Stmt.erased_ret, Stmt.erased_ret, h])
  | .leaveLoop s => exact .pure rfl
  | .nextRound s => exact .pure rfl
  | .discard s => exact .pure rfl
  | .library s path => exact .pure rfl
  | .block s items =>
      rw [Stmt.erased_block]
      exact (parallel_inBlockScope (parallel_stmts p items)).bind fun _ _ h =>
        .pure (by rw [Stmt.Alike, Stmt.erased_block, Stmt.erased_block, h])
  | .optional s condition body otherwise =>
      have hcondition : Scoped.Parallel Eq (liftM (condition.evaluateCondition p.lookup))
          (liftM (condition.erased.evaluateCondition p.erased.lookup)) :=
        .lift (condition.parallel_evaluateCondition p.parallel_lookup)
      have hfinish {ss ss' : List Stmt} (h : ss.map Stmt.eraseSpans = ss'.map Stmt.eraseSpans) :
          (Stmt.block s ss).Alike (.block .dummy ss') := by
        rw [Stmt.Alike, Stmt.erased_block, Stmt.erased_block, h]
      have hother := (parallel_alternative p otherwise).bind (S := Stmt.Alike)
        fun _ _ h => .pure (hfinish h)
      rw [Stmt.erased_optional]
      by_cases hblock : ∃ b items, body = .block b items
      · obtain ⟨b, items, rfl⟩ := hblock
        rw [Stmt.erased_block, stmt, stmt]
        exact hcondition.bindEq fun _ => .ite
          (fun _ => (parallel_stmts p items).bind fun _ _ h => .pure (hfinish h)) fun _ => hother
      · rw [stmt, stmt, drops_eraseSpans]
        · refine hcondition.bindEq fun _ => .ite (fun _ => .ite (fun _ => .pure (hfinish rfl))
            fun _ => ?_) fun _ => hother
          exact (parallel_stmt p body).bind fun _ _ h => .pure (hfinish (contribution_alike body h))
        · exact fun b items h => hblock (Stmt.exists_block_of_eraseSpans h)
        · exact fun b items h => hblock ⟨b, items, h⟩
termination_by sizeOf s
decreasing_by
  all_goals subst_vars; simp +arith

theorem parallel_stmts (p : Permutation) (ss : List Stmt) :
    Scoped.Parallel (fun ss ss' => ss.map Stmt.eraseSpans = ss'.map Stmt.eraseSpans)
      (p.stmts ss) (p.erased.stmts (ss.map Stmt.eraseSpans)) := by
  match ss with
  | [] => exact .pure rfl
  | s :: rest =>
      rw [List.map_cons, stmts, stmts, drops_eraseSpans]
      refine .ite (fun _ => parallel_stmts p rest) fun _ => ?_
      exact (parallel_stmt p s).bind fun _ _ h => (parallel_stmts p rest).bind fun _ _ hr =>
        .pure (by rw [List.map_append, List.map_append, contribution_alike s h, hr])
termination_by sizeOf ss
decreasing_by
  all_goals simp +arith

theorem parallel_arms (p : Permutation) (arms : List (Expr × Stmt)) :
    Scoped.Parallel (fun as as' => as.map Stmt.erasedArm = as'.map Stmt.erasedArm)
      (p.arms arms) (p.erased.arms (arms.map Stmt.erasedArm)) := by
  match arms with
  | [] => exact .pure rfl
  | (c, s) :: rest =>
      exact (p.parallel_expr c).bind fun _ _ hc => (parallel_stmt p s).bind fun _ _ hs =>
        (parallel_arms p rest).bind fun _ _ hr =>
          .pure (congrArg₂ List.cons (congrArg₂ Prod.mk hc hs) hr)
termination_by sizeOf arms
decreasing_by
  all_goals simp +arith

theorem parallel_optionStmt (p : Permutation) (s : Option Stmt) :
    Scoped.Parallel (fun s s' => s.map Stmt.eraseSpans = s'.map Stmt.eraseSpans)
      (p.optionStmt s) (p.erased.optionStmt (s.map Stmt.eraseSpans)) := by
  match s with
  | none => exact .pure rfl
  | some s => exact (parallel_stmt p s).bind fun _ _ h => .pure (congrArg some h)
termination_by sizeOf s
decreasing_by
  all_goals simp +arith

/-- The alternative of an optional block is specialized alike, up to spans. -/
theorem parallel_alternative (p : Permutation) (s : Option Stmt) :
    Scoped.Parallel (fun ss ss' => ss.map Stmt.eraseSpans = ss'.map Stmt.eraseSpans)
      (p.alternative s) (p.erased.alternative (s.map Stmt.eraseSpans)) := by
  match s with
  | none => exact .pure rfl
  | some s =>
      rw [Option.map_some]
      by_cases hblock : ∃ b items, s = .block b items
      · obtain ⟨b, items, rfl⟩ := hblock
        rw [Stmt.erased_block]
        exact parallel_stmts p items
      · rw [alternative, alternative, drops_eraseSpans]
        · refine .ite (fun _ => .pure rfl) fun _ => ?_
          exact (parallel_stmt p s).bind fun _ _ h => .pure (contribution_alike s h)
        · exact fun b items h => hblock (Stmt.exists_block_of_eraseSpans h)
        · exact fun b items h => hblock ⟨b, items, h⟩
termination_by sizeOf s
decreasing_by
  all_goals subst_vars; simp +arith

end

end Permutation

/-- A tree is specialized as it is without its places. -/
theorem Specializer.parallel_process_eraseSpans (s : Specializer) (tree : Stmt) :
    Except.Parallel Stmt.Alike (s.process tree) (s.process tree.eraseSpans) := by
  refine (Permutation.parallel_of s tree).bind fun p _ hp => ?_
  rw [hp]
  exact (p.parallel_stmt tree [] [] rfl).bind fun _ _ h => .ok h.1

/-- Trees that are the same but for their places give the same permutation but for its places. -/
theorem Specializer.parallel_process (s : Specializer) {tree tree' : Stmt} (h : tree.Alike tree') :
    Except.Parallel Stmt.Alike (s.process tree) (s.process tree') :=
  (s.parallel_process_eraseSpans tree).trans (h ▸ (s.parallel_process_eraseSpans tree').symm)
    fun _ _ _ ht ht' => ht.trans ht'.symm

end Shading
