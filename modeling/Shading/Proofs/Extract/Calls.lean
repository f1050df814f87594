import Shading.Proofs.Extract.Free
import Shading.Proofs.Extract.Success
import Shading.Syntax.Node

/-!
# Calls that are collected

Collecting finds every call of a declaration. A stage therefore declares a function for
each name that a function of it calls.
-/

namespace Shading

/-- A function is called among the nodes. -/
def Calls (ns : List Node) (n : String) : Prop :=
  ∃ span args, Node.expr (.call span n args) ∈ ns

section Calls

@[simp] theorem calls_nil (n : String) : ¬Calls [] n := by
  rintro ⟨_, _, hmem⟩
  cases hmem

@[simp] theorem calls_cons (node : Node) (ns : List Node) (n : String) :
    Calls (node :: ns) n ↔ (∃ span args, node = .expr (.call span n args)) ∨ Calls ns n := by
  constructor
  · rintro ⟨span, args, hmem⟩
    rcases List.mem_cons.mp hmem with hnode | hmem
    · exact .inl ⟨span, args, hnode.symm⟩
    · exact .inr ⟨span, args, hmem⟩
  · rintro (⟨span, args, rfl⟩ | ⟨span, args, hmem⟩)
    · exact ⟨span, args, List.mem_cons_self⟩
    · exact ⟨span, args, List.mem_cons_of_mem _ hmem⟩

@[simp] theorem calls_append (ns ms : List Node) (n : String) :
    Calls (ns ++ ms) n ↔ Calls ns n ∨ Calls ms n := by
  constructor
  · rintro ⟨span, args, hmem⟩
    exact (List.mem_append.mp hmem).imp (⟨span, args, ·⟩) (⟨span, args, ·⟩)
  · rintro (⟨span, args, hmem⟩ | ⟨span, args, hmem⟩)
    · exact ⟨span, args, List.mem_append_left _ hmem⟩
    · exact ⟨span, args, List.mem_append_right _ hmem⟩

/-- Types call nothing. -/
@[simp] theorem calls_types {α : Type} (as : List α) (f : α → Ty) (n : String) :
    ¬Calls (as.map fun a => .type (f a)) n := by
  rintro ⟨span, args, hmem⟩
  simp at hmem

end Calls

namespace Collector

/-- The functions found so far. -/
def called (c : Collector) : List String := c.found.functions.names

variable (c : Collector)

@[simp] theorem called_call (name : String) (span : Span) (n : String) :
    n ∈ (c.call name span).called ↔ n ∈ c.called ∨ n = name :=
  mem_names_note c.found.functions name span n

/-- A reference is no call. -/
@[simp] theorem called_reference (name : String) (span : Span) :
    (c.reference name span).called = c.called := by
  unfold reference
  split
  · rfl
  · split <;> rfl

@[simp] theorem called_locateTypes (span : Span) : (c.locateTypes span).called = c.called := rfl

@[simp] theorem called_type (t : Ty) : (c.type t).called = c.called := by
  unfold type
  split <;> rfl

@[simp] theorem called_typeAt (t : Ty) (span : Span) : (c.typeAt t span).called = c.called := by
  rw [typeAt, called_type, called_locateTypes]

@[simp] theorem called_declare (n : String) : (c.declare n).called = c.called := by
  unfold declare
  split <;> rfl

@[simp] theorem called_pushScope (names : List String) : (c.pushScope names).called = c.called :=
  rfl

@[simp] theorem called_popScope : c.popScope.called = c.called := rfl

/-- A block collects the calls of the work in it. -/
theorem called_inBlock {n : String} {P : Prop} {work : Collector → Collector}
    (h : ∀ c, n ∈ (work c).called ↔ n ∈ c.called ∨ P) :
    n ∈ (c.inBlock work).called ↔ n ∈ c.called ∨ P := by
  unfold inBlock
  split
  · exact h c
  · rw [called_popScope, h, called_pushScope]

/-- A loop collects the calls of every round. -/
theorem called_foldl {α : Type} {f : Collector → α → Collector} {n : String} {P : α → Prop}
    (h : ∀ c a, n ∈ (f c a).called ↔ n ∈ c.called ∨ P a) (as : List α) :
    n ∈ (as.foldl f c).called ↔ n ∈ c.called ∨ ∃ a ∈ as, P a := by
  induction as generalizing c with
  | nil => simp
  | cons a rest ih =>
      rw [List.foldl_cons, ih, h]
      simp [or_assoc]

theorem called_foldl_eq {α : Type} {f : Collector → α → Collector}
    (h : ∀ c a, (f c a).called = c.called) (as : List α) :
    (as.foldl f c).called = c.called := by
  induction as generalizing c with
  | nil => rfl
  | cons a rest ih => rw [List.foldl_cons, ih, h]

theorem called_foldl_type {α : Type} (type : α → Ty) (as : List α) :
    (as.foldl (fun c a => c.type (type a)) c).called = c.called :=
  called_foldl_eq c (fun c a => called_type c (type a)) as

@[simp] theorem called_signature (f : Signature) : (c.signature f).called = c.called := by
  rw [signature, called_type]
  exact called_foldl_eq c (fun c p => called_typeAt c p.type p.span) f.parameters

mutual

/-- The calls collected from an expression are those among its nodes. -/
theorem mem_called_expr (c : Collector) (e : Expr) (n : String) :
    n ∈ (c.expr e).called ↔ n ∈ c.called ∨ Calls e.nodes n := by
  cases e with
  | constant s v => simp [expr, Expr.nodes]
  | ref s name => simp [expr, Expr.nodes]
  | index s base place =>
      simp [expr, Expr.nodes, mem_called_expr _ base, mem_called_expr _ place, or_assoc]
  | field s base name => simp [expr, Expr.nodes, mem_called_expr _ base]
  | swizzle s base selection => simp [expr, Expr.nodes, mem_called_expr _ base]
  | assign s op target value =>
      simp [expr, Expr.nodes, mem_called_expr _ target, mem_called_expr _ value, or_assoc]
  | unary s op operand => simp [expr, Expr.nodes, mem_called_expr _ operand]
  | binary s op left right =>
      simp [expr, Expr.nodes, mem_called_expr _ left, mem_called_expr _ right, or_assoc]
  | call s name args =>
      simp [expr, Expr.nodes, mem_called_exprs _ args, or_assoc, eq_comm]
  | builtin s f args => simp [expr, Expr.nodes, mem_called_exprs _ args]
  | cast s target args => simp [expr, Expr.nodes, mem_called_exprs _ args]
  | ternary s q t f =>
      simp [expr, Expr.nodes, mem_called_expr _ q, mem_called_expr _ t, mem_called_expr _ f,
        or_assoc]

theorem mem_called_exprs (c : Collector) (es : List Expr) (n : String) :
    n ∈ (c.exprs es).called ↔ n ∈ c.called ∨ Calls (Expr.nodesList es) n := by
  cases es with
  | nil => simp [exprs, Expr.nodesList]
  | cons e rest =>
      simp [exprs, Expr.nodesList, mem_called_expr _ e, mem_called_exprs _ rest, or_assoc]

end

theorem mem_called_optionExpr (e : Option Expr) (n : String) :
    n ∈ (c.optionExpr e).called ↔ n ∈ c.called ∨ Calls (Expr.nodesOption e) n := by
  cases e with
  | none => simp [optionExpr, Expr.nodesOption]
  | some e => exact mem_called_expr c e n

theorem calls_flatMap {α : Type} (as : List α) (f : α → List Node) (n : String) :
    Calls (as.flatMap f) n ↔ ∃ a ∈ as, Calls (f a) n := by
  simp only [Calls, List.mem_flatMap]
  constructor
  · rintro ⟨span, args, a, ha, hmem⟩
    exact ⟨a, ha, span, args, hmem⟩
  · rintro ⟨a, ha, span, args, hmem⟩
    exact ⟨span, args, a, ha, hmem⟩

mutual

/-- Collecting finds the calls of a statement and no other. -/
theorem mem_called_stmt (c : Collector) (s : Stmt) (n : String) :
    n ∈ (c.stmt s).called ↔ n ∈ c.called ∨ Calls s.nodes n := by
  cases s with
  | branch b arms otherwise =>
      simp [stmt, Stmt.nodes, mem_called_arms _ arms, mem_called_optionStmt _ otherwise, or_assoc]
  | forLoop b init condition step body =>
      have hwork (c : Collector) :
          n ∈ ((((c.optionStmt init).optionExpr condition).optionExpr step).stmt body).called ↔
            n ∈ c.called ∨ (Calls (Stmt.nodesOption init) n ∨
              Calls (Expr.nodesOption condition) n ∨ Calls (Expr.nodesOption step) n ∨
              Calls body.nodes n) := by
        rw [mem_called_stmt _ body, mem_called_optionExpr, mem_called_optionExpr,
          mem_called_optionStmt _ init]
        simp only [or_assoc]
      simp [stmt, Stmt.nodes, called_inBlock _ hwork]
  | whileLoop b condition body =>
      simp [stmt, Stmt.nodes, mem_called_expr, mem_called_stmt _ body, or_assoc]
  | doWhile b body condition =>
      simp [stmt, Stmt.nodes, mem_called_expr, mem_called_stmt _ body, or_assoc]
  | var b d => simp [stmt, Stmt.nodes, mem_called_optionExpr]
  | struct b d => simp [stmt, Stmt.nodes, called_foldl_type]
  | inputs b vs => simp [stmt, Stmt.nodes, called_foldl_type]
  | outputs b vs => simp [stmt, Stmt.nodes, called_foldl_type]
  | externals b vs => simp [stmt, Stmt.nodes, called_foldl_type]
  | options b ds =>
      have hentry (c : Collector) (d : OptionDeclaration) :
          n ∈ ((c.type d.type).optionExpr d.default).called ↔
            n ∈ c.called ∨ Calls (Expr.nodesOption d.default) n := by
        rw [mem_called_optionExpr, called_type]
      simp [stmt, Stmt.nodes, called_foldl _ hentry, calls_flatMap]
  | consts b ds =>
      have hentry (c : Collector) (d : ConstDeclaration) :
          n ∈ ((c.type d.type).expr d.value).called ↔ n ∈ c.called ∨ Calls d.value.nodes n := by
        rw [mem_called_expr, called_type]
      simp [stmt, Stmt.nodes, called_foldl _ hentry, calls_flatMap]
  | function b f body =>
      simp [stmt, Stmt.nodes, mem_called_stmts _ body]
  | expr b e => simp [stmt, Stmt.nodes, mem_called_expr]
  | ret b value => simp [stmt, Stmt.nodes, mem_called_optionExpr]
  | block b items =>
      simp [stmt, Stmt.nodes, called_inBlock _ fun c => mem_called_stmts c items n]
  | optional b condition body otherwise =>
      simp [stmt, Stmt.nodes, mem_called_expr, mem_called_stmt _ body,
        mem_called_optionStmt _ otherwise, or_assoc]
  | _ => simp [stmt, Stmt.nodes]

theorem mem_called_stmts (c : Collector) (ss : List Stmt) (n : String) :
    n ∈ (c.stmts ss).called ↔ n ∈ c.called ∨ Calls (Stmt.nodesList ss) n := by
  cases ss with
  | nil => simp [stmts, Stmt.nodesList]
  | cons s rest =>
      simp [stmts, Stmt.nodesList, mem_called_stmt _ s, mem_called_stmts _ rest, or_assoc]

theorem mem_called_arms (c : Collector) (arms : List (Expr × Stmt)) (n : String) :
    n ∈ (c.arms arms).called ↔ n ∈ c.called ∨ Calls (Stmt.nodesArms arms) n := by
  match arms with
  | [] => simp [Collector.arms, Stmt.nodesArms]
  | (e, s) :: rest =>
      simp [Collector.arms, Stmt.nodesArms, mem_called_expr, mem_called_stmt _ s,
        mem_called_arms _ rest, or_assoc]

theorem mem_called_optionStmt (c : Collector) (s : Option Stmt) (n : String) :
    n ∈ (c.optionStmt s).called ↔ n ∈ c.called ∨ Calls (Stmt.nodesOption s) n := by
  cases s with
  | none => simp [optionStmt, Stmt.nodesOption]
  | some s => exact mem_called_stmt c s n

end

end Collector

namespace Extractor

open DeclarationIndex

variable {items : List Stmt} {entry : Site}

/-- Merging structures only drops items. -/
theorem mem_of_mem_mergeStructs {seen : List String} {s : Stmt}
    (h : s ∈ mergeStructs seen items) : s ∈ items := by
  induction items generalizing seen with
  | nil => exact h
  | cons item rest ih =>
      have hother (hmerge : mergeStructs seen (item :: rest) = item :: mergeStructs seen rest) :
          s ∈ item :: rest := by
        rw [hmerge] at h
        exact (List.mem_cons.mp h).elim (fun hs => hs ▸ List.mem_cons_self) fun hs =>
          List.mem_cons_of_mem _ (ih hs)
      cases item with
      | struct p d =>
          rw [mergeStructs] at h
          split at h
          · exact List.mem_cons_of_mem _ (ih h)
          · exact (List.mem_cons.mp h).elim (fun hs => hs ▸ List.mem_cons_self) fun hs =>
              List.mem_cons_of_mem _ (ih hs)
      | _ => exact hother rfl

/-- An item of a stage is an item of the file that declares something reached, cut down to
the entries that are reached. -/
theorem exists_item_of_mem_stageItems {out : Stmt} (h : out ∈ stageItems items entry)
    (hlib : ∀ s path, out ≠ .library s path) :
    ∃ item i, items[i]? = some item ∧ (∃ s ∈ reachedSites items entry, s.item = i) ∧
      out = restrict (fun n => (reachedSites items entry).any fun s =>
        s.item = i && s.entry = some n) item := by
  obtain ⟨⟨item, i⟩, hitem, hpart⟩ := List.mem_filterMap.mp (mem_of_mem_mergeStructs h)
  have hne (p : Span) (path : List String) : item ≠ .library p path := by
    rintro rfl
    cases hpart
    exact hlib p path rfl
  dsimp only at hpart
  rw [part?_of_ne_library _ _ hne] at hpart
  split at hpart
  · rename_i hany
    obtain ⟨s, hs, hi⟩ := List.any_eq_true.mp hany
    exact ⟨item, i, List.mem_zipIdx_iff_getElem?.mp hitem, ⟨s, hs, of_decide_eq_true hi⟩,
      (Option.some.inj hpart).symm⟩
  · cases hpart

/-- A function of a stage is a function of the file whose declaration is reached. -/
theorem exists_site_of_function {b : Span} {f : Signature} {body : List Stmt}
    (h : .function b f body ∈ stageItems items entry) :
    ∃ s ∈ reachedSites items entry, items[s.item]? = some (.function b f body) := by
  obtain ⟨item, i, hget, ⟨s, hs, rfl⟩, hout⟩ := exists_item_of_mem_stageItems h (by simp)
  refine ⟨s, hs, hget.trans ?_⟩
  cases item with
  | function p g inner => exact congrArg some hout.symm
  | _ => cases hout

/-- A global variable of a stage is one of the file whose declaration is reached. -/
theorem exists_site_of_var {b : Span} {d : VariableDeclaration}
    (h : .var b d ∈ stageItems items entry) :
    ∃ s ∈ reachedSites items entry, items[s.item]? = some (.var b d) := by
  obtain ⟨item, i, hget, ⟨s, hs, rfl⟩, hout⟩ := exists_item_of_mem_stageItems h (by simp)
  refine ⟨s, hs, hget.trans ?_⟩
  cases item with
  | var p e => exact congrArg some hout.symm
  | _ => cases hout

/-- A constant of a stage is an entry of a block of the file that is reached itself. -/
theorem exists_site_of_const {b : Span} {cs : List ConstDeclaration} {c : ConstDeclaration}
    (h : .consts b cs ∈ stageItems items entry) (hc : c ∈ cs) :
    ∃ s ∈ reachedSites items entry, ∃ b' ds n, items[s.item]? = some (.consts b' ds) ∧
      s.entry = some n ∧ ds[n]? = some c := by
  obtain ⟨item, i, hget, _, hout⟩ := exists_item_of_mem_stageItems h (by simp)
  cases item with
  | consts p ds =>
      obtain ⟨_, rfl⟩ := Stmt.consts.inj hout
      obtain ⟨n, hn, hkept⟩ := (mem_keepEntries_iff _ _ _).mp hc
      obtain ⟨s, hs, hplace⟩ := List.any_eq_true.mp hkept
      rw [Bool.and_eq_true, decide_eq_true_eq, decide_eq_true_eq] at hplace
      exact ⟨s, hs, p, ds, n, by rw [hplace.1, hget], hplace.2, hn⟩
  | _ => cases hout

/-- A site of a function belongs to one of the functions. -/
theorem mem_functions_of_mem_allSites {s : Site} (h : s ∈ allSites items)
    (hcategory : s.category = .function) : ∃ f ∈ functions items, f.name = s.name := by
  have hmem : s ∈ (functionSites items).map (·.2) := by
    rw [map_snd_functionSites, List.mem_filter]
    exact ⟨h, by simpa using hcategory⟩
  obtain ⟨⟨f, s'⟩, hf, rfl⟩ := List.mem_map.mp hmem
  refine ⟨f, ?_, ?_⟩
  · rw [← map_fst_functionSites]
    exact List.mem_map_of_mem hf
  · obtain ⟨⟨item, i⟩, _, hsite⟩ := List.mem_filterMap.mp hf
    cases item with
    | function p g body =>
        cases hsite
        rfl
    | _ => cases hsite

/-- A stage declares a function for each name that a reached declaration calls. -/
theorem exists_function_of_uses {tree : Stmt} {stage : Stage} {out : ExtractedStage}
    (hx : extractStage tree stage = .ok out) :
    ∃ entry, out.tree.items = stageItems (flatten tree) entry ∧
      ∀ s ∈ reachedSites (flatten tree) entry, ∀ n ∈ (siteUses (flatten tree) s).functions.names,
        ∃ g ∈ functions out.tree.items, g.name = n := by
  rw [extractStage_eq] at hx
  obtain ⟨index, hindex, hx⟩ := Except.bind_eq_ok_iff.mp hx
  obtain ⟨k, point, entry, hone, hall, _, rfl⟩ := (extract_eq_ok_iff hindex _ _ _).mp hx
  have hentry : entry ∈ allSites (flatten tree) :=
    mem_allSites_of_mem_keyedSites (mem_keyedSites_of_candidates (hone ▸ List.mem_cons_self))
  refine ⟨entry, rfl, fun s hs n hn => ?_⟩
  have hreach := (mem_reachedSites_iff hentry s).mp hs
  obtain ⟨t, ht, hcategory, rfl⟩ :=
    (resolves_stageItems hentry hreach (hall s hreach)).functions n hn
  exact mem_functions_of_mem_allSites ht hcategory

/-- A function that a declaration uses is called in it. -/
theorem mem_functions_siteUses {s : Site} {item : Stmt} (hget : items[s.item]? = some item)
    {n : String}
    (hn : n ∈ ((Collector.new (externalNames items)).declaration item s.entry).called) :
    n ∈ (siteUses items s).functions.names := by
  rw [siteUses, usesOf, hget]
  exact hn

/-- A stage declares a function for each name that a function of it calls. -/
theorem exists_function_of_call {tree : Stmt} {stage : Stage} {out : ExtractedStage}
    (hx : extractStage tree stage = .ok out) {b : Span} {f : Signature} {body : List Stmt}
    (hf : .function b f body ∈ out.tree.items) {n : String}
    (hn : Calls (Stmt.nodesList body) n) : ∃ g ∈ functions out.tree.items, g.name = n := by
  obtain ⟨entry, hitems, hall⟩ := exists_function_of_uses hx
  rw [hitems] at hf
  obtain ⟨s, hs, hget⟩ := exists_site_of_function hf
  refine hall s hs n (mem_functions_siteUses hget ?_)
  have hcall : n ∈ ((Collector.new (externalNames (flatten tree))).stmt
      (.function b f body)).called := by
    rw [Collector.mem_called_stmt]
    exact .inr (by simp [Stmt.nodes, hn])
  cases s.entry <;> exact hcall

/-- A stage declares a function for each name that a global variable of it calls. -/
theorem exists_function_of_var {tree : Stmt} {stage : Stage} {out : ExtractedStage}
    (hx : extractStage tree stage = .ok out) {b : Span} {d : VariableDeclaration}
    (hd : .var b d ∈ out.tree.items) {n : String} (hn : Calls (Expr.nodesOption d.initializer) n) :
    ∃ g ∈ functions out.tree.items, g.name = n := by
  obtain ⟨entry, hitems, hall⟩ := exists_function_of_uses hx
  rw [hitems] at hd
  obtain ⟨s, hs, hget⟩ := exists_site_of_var hd
  refine hall s hs n (mem_functions_siteUses hget ?_)
  have hcall : n ∈ ((Collector.new (externalNames (flatten tree))).stmt (.var b d)).called := by
    rw [Collector.mem_called_stmt]
    exact .inr (by simp [Stmt.nodes, hn])
  cases s.entry <;> exact hcall

/-- A stage declares a function for each name that a constant of it calls. -/
theorem exists_function_of_const {tree : Stmt} {stage : Stage} {out : ExtractedStage}
    (hx : extractStage tree stage = .ok out) {b : Span} {cs : List ConstDeclaration}
    (hcs : .consts b cs ∈ out.tree.items) {c : ConstDeclaration} (hc : c ∈ cs) {n : String}
    (hn : Calls c.value.nodes n) : ∃ g ∈ functions out.tree.items, g.name = n := by
  obtain ⟨entry, hitems, hall⟩ := exists_function_of_uses hx
  rw [hitems] at hcs
  obtain ⟨s, hs, b', ds, k, hget, hentry, hk⟩ := exists_site_of_const hcs hc
  refine hall s hs n (mem_functions_siteUses hget ?_)
  rw [hentry]
  simp [Collector.declaration, hk, Collector.mem_called_expr, hn]

end Extractor

end Shading
