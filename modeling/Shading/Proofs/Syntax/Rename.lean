import Shading.Proofs.Extract.Free
import Shading.Proofs.Syntax.Scopes
import Shading.Syntax.Relabel

/-!
# Renamed references

Renaming gives the references of an expression other names and keeps all else. In a
statement the new names may depend on what is bound where a reference stands; two such
renamings of a statement are equal when they agree on each of its references.
-/

namespace Shading

namespace Relabeler

/-- Renames references and keeps all else. -/
def references (r : String → String) : Relabeler Id where
  enter _ := ()
  span s := s
  type t := t
  name n := r n

end Relabeler

namespace Expr

/-- The expression with other names of its references. -/
def rename (r : String → String) (e : Expr) : Expr := (e.relabel (.references r)).run

section Forms

variable (r : String → String) (s : Span) (a b c : Expr)

theorem relabelList_references (es : List Expr) :
    (relabelList (.references r) es).run = es.map (rename r) := by
  induction es with
  | nil => rfl
  | cons e es ih =>
      change (e.rename r :: (relabelList (.references r) es).run) = _
      rw [ih, List.map_cons]

@[simp] theorem rename_constant (v : Constant) : (constant s v).rename r = .constant s v := rfl

@[simp] theorem rename_ref (n : String) : (ref s n).rename r = .ref s (r n) := rfl

@[simp] theorem rename_index : (index s a b).rename r = .index s (a.rename r) (b.rename r) := rfl

@[simp] theorem rename_field (n : String) : (field s a n).rename r = .field s (a.rename r) n := rfl

@[simp] theorem rename_swizzle (w : Swizzle) :
    (swizzle s a w).rename r = .swizzle s (a.rename r) w := rfl

@[simp] theorem rename_assign (op : AssignOp) :
    (assign s op a b).rename r = .assign s op (a.rename r) (b.rename r) := rfl

@[simp] theorem rename_unary (op : UnaryOp) : (unary s op a).rename r = .unary s op (a.rename r) :=
  rfl

@[simp] theorem rename_binary (op : BinaryOp) :
    (binary s op a b).rename r = .binary s op (a.rename r) (b.rename r) := rfl

@[simp] theorem rename_ternary :
    (ternary s a b c).rename r = .ternary s (a.rename r) (b.rename r) (c.rename r) := rfl

/-- The name of a called function is no reference, and stays. -/
@[simp] theorem rename_call (n : String) (es : List Expr) :
    (call s n es).rename r = .call s n (es.map (rename r)) := by
  rw [← relabelList_references]
  rfl

@[simp] theorem rename_builtin (f : BuiltinFunction) (es : List Expr) :
    (builtin s f es).rename r = .builtin s f (es.map (rename r)) := by
  rw [← relabelList_references]
  rfl

/-- The type of a cast is no reference, and stays. -/
@[simp] theorem rename_cast (t : Ty) (es : List Expr) :
    (cast s t es).rename r = .cast s t (es.map (rename r)) := by
  rw [← relabelList_references]
  rfl

end Forms

mutual

/-- Two renamings of an expression are equal when they agree on what it mentions. -/
theorem rename_eq_rename_iff (r t : String → String) (e : Expr) :
    e.rename r = e.rename t ↔ ∀ n ∈ e.references, r n = t n := by
  cases e with
  | constant s v => simp [references]
  | ref s n => simp [references]
  | index s a b | assign s op a b | binary s op a b =>
      simp [references, rename_eq_rename_iff r t a, rename_eq_rename_iff r t b, or_imp, forall_and]
  | field s a n | swizzle s a w | unary s op a =>
      simp [references, rename_eq_rename_iff r t a]
  | call s n es | builtin s f es | cast s u es =>
      simp only [rename_call, rename_builtin, rename_cast, references, ← map_rename_eq_iff r t es,
        call.injEq, builtin.injEq, cast.injEq, true_and]
  | ternary s a b c =>
      simp [references, rename_eq_rename_iff r t a, rename_eq_rename_iff r t b,
        rename_eq_rename_iff r t c, or_imp, forall_and]

/-- Two renamings agree on a list of expressions exactly where they agree on its references. -/
theorem map_rename_eq_iff (r t : String → String) (es : List Expr) :
    es.map (rename r) = es.map (rename t) ↔ ∀ n ∈ referencesList es, r n = t n := by
  cases es with
  | nil => simp [referencesList]
  | cons e es =>
      rw [List.map_cons, List.map_cons, List.cons.injEq, rename_eq_rename_iff r t e,
        map_rename_eq_iff r t es, referencesList]
      simp only [List.mem_append, or_imp, forall_and]

end

end Expr

namespace Stmt

section Maps

variable (f : Visible → Expr → Expr) (v : Visible)

/-- The statement with other expressions in the place of its own. -/
def mapExprs (s : Stmt) : Stmt := (s.inScopes (m := Id) f v).run

/-- Renames in the statements of a list, each in the names bound before it. -/
def mapExprsList (ss : List Stmt) : List Stmt := (inScopesList (m := Id) f v ss).run

def mapExprsArms (arms : List (Expr × Stmt)) : List (Expr × Stmt) :=
  (inScopesArms (m := Id) f v arms).run

def mapExprsOption (s : Option Stmt) : Option Stmt := (inScopesOption (m := Id) f v s).run

section Forms

variable (b : Span) (e : Expr) (s : Stmt) (o : Option Stmt)

/-- The arms of a branch are mapped in turn, each with the names that those before it declare. -/
theorem mapExprs_branch (arms : List (Expr × Stmt)) :
    (branch b arms o).mapExprs f v =
      .branch b (mapExprsArms f v arms) (mapExprsOption f (v.add (localsArms arms)) o) := rfl

theorem mapExprs_forLoop (condition step : Option Expr) :
    (forLoop b o condition step s).mapExprs f v =
      .forLoop b (mapExprsOption f v o) (condition.map (f (v.add (localsOption o))))
        (step.map (f (v.add (localsOption o)))) (s.mapExprs f (v.add (localsOption o))) := by
  cases condition <;> cases step <;> rfl

theorem mapExprs_whileLoop :
    (whileLoop b e s).mapExprs f v = .whileLoop b (f v e) (s.mapExprs f v) := rfl

theorem mapExprs_doWhile :
    (doWhile b s e).mapExprs f v = .doWhile b (s.mapExprs f v) (f (v.add s.locals) e) := rfl

theorem mapExprs_var (d : VariableDeclaration) :
    (var b d).mapExprs f v = .var b { d with initializer := d.initializer.map (f v) } := by
  obtain ⟨_, _, _, _ | _⟩ := d <;> rfl

theorem mapExprs_options (entries : List OptionDeclaration) :
    (options b entries).mapExprs f v =
      .options b (entries.map fun d => { d with default := d.default.map (f v) }) := by
  refine congrArg (options b) (List.idRun_mapM.trans (List.map_congr_left fun d _ => ?_))
  obtain ⟨name, type, default, span⟩ := d
  cases default <;> rfl

theorem mapExprs_consts (entries : List ConstDeclaration) :
    (consts b entries).mapExprs f v =
      .consts b (entries.map fun d => { d with value := f v d.value }) :=
  congrArg (consts b) List.idRun_mapM

theorem mapExprs_function (g : Signature) (body : List Stmt) :
    (function b g body).mapExprs f v =
      .function b g (mapExprsList f (v.inFunction (g.parameters.map (·.name))) body) := rfl

theorem mapExprs_optional :
    (optional b e s o).mapExprs f v =
      .optional b (f v e) (s.mapExprs f v) (mapExprsOption f v o) := rfl

theorem mapExprsList_cons (ss : List Stmt) :
    mapExprsList f v (s :: ss) = s.mapExprs f v :: mapExprsList f (v.add s.locals) ss := rfl

theorem mapExprsArms_cons (rest : List (Expr × Stmt)) :
    mapExprsArms f v ((e, s) :: rest) =
      (f v e, s.mapExprs f v) :: mapExprsArms f (v.add s.locals) rest := rfl

theorem mapExprsOption_some : mapExprsOption f v (some s) = some (s.mapExprs f v) := rfl

theorem mapExprs_expr : (expr b e).mapExprs f v = .expr b (f v e) := rfl

theorem mapExprs_ret (value : Option Expr) :
    (ret b value).mapExprs f v = .ret b (value.map (f v)) := by
  cases value <;> rfl

theorem mapExprs_block (items : List Stmt) :
    (block b items).mapExprs f v = .block b (mapExprsList f v items) := rfl

end Forms

end Maps

mutual

/-- The expressions of a statement, each with the names that are bound there. -/
def placed (v : Visible) : Stmt → List (Visible × Expr)
  | .branch _ arms otherwise =>
    placedArms v arms ++ placedOption (v.add (localsArms arms)) otherwise
  | .forLoop _ init condition step body =>
    let inner := v.add (localsOption init)
    placedOption v init ++ condition.toList.map (inner, ·) ++ step.toList.map (inner, ·) ++
      body.placed inner
  | .whileLoop _ condition body => (v, condition) :: body.placed v
  | .doWhile _ body condition => body.placed v ++ [(v.add body.locals, condition)]
  | .var _ d => d.initializer.toList.map (v, ·)
  | .options _ entries => entries.flatMap fun d => d.default.toList.map (v, ·)
  | .consts _ entries => entries.map fun d => (v, d.value)
  | .function _ g body => placedList (v.inFunction (g.parameters.map (·.name))) body
  | .expr _ e => [(v, e)]
  | .ret _ value => value.toList.map (v, ·)
  | .block _ items => placedList v items
  | .optional _ condition body otherwise =>
    (v, condition) :: body.placed v ++ placedOption v otherwise
  | _ => []

/-- The expressions of a list, each with the names bound before it. -/
def placedList (v : Visible) : List Stmt → List (Visible × Expr)
  | [] => []
  | s :: ss => s.placed v ++ placedList (v.add s.locals) ss

def placedArms (v : Visible) : List (Expr × Stmt) → List (Visible × Expr)
  | [] => []
  | (c, s) :: rest => (v, c) :: s.placed v ++ placedArms (v.add s.locals) rest

def placedOption (v : Visible) : Option Stmt → List (Visible × Expr)
  | none => []
  | some s => s.placed v

end

section Agreement

variable (f g : Visible → Expr → Expr)

/-- Two replacements do the same to expressions. -/
def Agree (es : List (Visible × Expr)) : Prop := ∀ q ∈ es, f q.1 q.2 = g q.1 q.2

variable {f g}

@[simp] theorem agree_nil : Agree f g [] ↔ True := by simp [Agree]

@[simp] theorem agree_cons (q : Visible × Expr) (es : List (Visible × Expr)) :
    Agree f g (q :: es) ↔ f q.1 q.2 = g q.1 q.2 ∧ Agree f g es := by simp [Agree]

@[simp] theorem agree_append (es fs : List (Visible × Expr)) :
    Agree f g (es ++ fs) ↔ Agree f g es ∧ Agree f g fs := by
  simp [Agree, or_imp, forall_and]

theorem agree_map {α : Type} (h : α → Visible × Expr) (as : List α) :
    Agree f g (as.map h) ↔ ∀ a ∈ as, f (h a).1 (h a).2 = g (h a).1 (h a).2 := by
  simp [Agree]

theorem agree_flatMap {α : Type} (h : α → List (Visible × Expr)) (as : List α) :
    Agree f g (as.flatMap h) ↔ ∀ a ∈ as, Agree f g (h a) := by
  simp only [Agree, List.forall_mem_flatMap]

theorem map_eq_map_iff_agree (v : Visible) (e : Option Expr) :
    e.map (f v) = e.map (g v) ↔ Agree f g (e.toList.map (v, ·)) := by
  cases e <;> simp

variable (f g)

mutual

/-- Mapping the expressions of a statement two ways gives the same tree exactly where the ways
agree on each expression, with the names visible there. -/
theorem mapExprs_eq_iff (v : Visible) (s : Stmt) :
    s.mapExprs f v = s.mapExprs g v ↔ Agree f g (s.placed v) := by
  cases s with
  | branch b arms otherwise =>
      rw [placed, agree_append, ← mapExprsArms_eq_iff, ← mapExprsOption_eq_iff]
      change Stmt.branch b (mapExprsArms f v arms) (mapExprsOption f _ otherwise) =
        .branch b (mapExprsArms g v arms) (mapExprsOption g _ otherwise) ↔ _
      simp
  | forLoop b init condition step body =>
      simp only [placed, agree_append, ← mapExprsOption_eq_iff, ← map_eq_map_iff_agree,
        ← mapExprs_eq_iff _ body, mapExprs_forLoop, forLoop.injEq, true_and, and_assoc]
  | whileLoop b condition body =>
      rw [placed, agree_cons, ← mapExprs_eq_iff v body, mapExprs_whileLoop, mapExprs_whileLoop]
      simp
  | doWhile b body condition =>
      rw [placed, agree_append, ← mapExprs_eq_iff v body, mapExprs_doWhile, mapExprs_doWhile]
      simp
  | var b d =>
      rw [placed, ← map_eq_map_iff_agree, mapExprs_var, mapExprs_var]
      simp
  | options b entries =>
      rw [placed, mapExprs_options, mapExprs_options, agree_flatMap]
      simp only [← map_eq_map_iff_agree]
      simp
  | consts b entries =>
      rw [placed, mapExprs_consts, mapExprs_consts, agree_map]
      simp
  | function b h body =>
      rw [placed, ← mapExprsList_eq_iff _ body, mapExprs_function, mapExprs_function]
      simp
  | expr b e => simp [placed, mapExprs_expr]
  | ret b value =>
      rw [placed, ← map_eq_map_iff_agree, mapExprs_ret, mapExprs_ret]
      simp
  | block b items =>
      rw [placed, ← mapExprsList_eq_iff v items, mapExprs_block, mapExprs_block]
      simp
  | optional b condition body otherwise =>
      rw [placed, List.cons_append, agree_cons, agree_append, ← mapExprs_eq_iff v body,
        ← mapExprsOption_eq_iff, mapExprs_optional, mapExprs_optional]
      simp
  | struct | inputs | outputs | externals | leaveLoop | nextRound | discard | library =>
      simp [placed, mapExprs, inScopes]

theorem mapExprsList_eq_iff (v : Visible) (ss : List Stmt) :
    mapExprsList f v ss = mapExprsList g v ss ↔ Agree f g (placedList v ss) := by
  cases ss with
  | nil => simp [mapExprsList, inScopesList, placedList]
  | cons s ss =>
      rw [placedList, agree_append, ← mapExprs_eq_iff v s, ← mapExprsList_eq_iff _ ss,
        mapExprsList_cons, mapExprsList_cons, List.cons_eq_cons]

theorem mapExprsArms_eq_iff (v : Visible) (arms : List (Expr × Stmt)) :
    mapExprsArms f v arms = mapExprsArms g v arms ↔ Agree f g (placedArms v arms) := by
  match arms with
  | [] => simp [mapExprsArms, inScopesArms, placedArms]
  | (c, s) :: rest =>
      rw [placedArms, List.cons_append, agree_cons, agree_append, ← mapExprs_eq_iff v s,
        ← mapExprsArms_eq_iff _ rest, mapExprsArms_cons, mapExprsArms_cons, List.cons_eq_cons,
        Prod.mk.injEq, and_assoc]

theorem mapExprsOption_eq_iff (v : Visible) (s : Option Stmt) :
    mapExprsOption f v s = mapExprsOption g v s ↔ Agree f g (placedOption v s) := by
  cases s with
  | none => simp [mapExprsOption, inScopesOption, placedOption]
  | some s =>
      rw [placedOption, ← mapExprs_eq_iff v s, mapExprsOption_some, mapExprsOption_some,
        Option.some_inj]

end

end Agreement

end Stmt

end Shading
