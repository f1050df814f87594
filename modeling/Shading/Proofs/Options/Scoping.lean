import Shading.Proofs.Extract.Free
import Shading.Proofs.Options.Runs

/-!
# Scopes of a specialized tree

The specializer decides by its own scopes whether a name is an option, and a reader of the
result decides by the scopes of the result. The two differ in two places: an optional
block that stands where a single statement has to becomes a block, whose local names end
with it only for the reader; and the condition of a `do` loop comes after the body for the
specializer and before it for the reader. A name that only the specializer takes for local
there stays in the result as a reference to an option.
-/

namespace Shading

/-- Both kinds of scopes along the statements that are selected, and the names that only
the specializer took for local so far. -/
structure Tracker where
  strays : List String
  /-- The scopes of the specializer. -/
  writer : Scopes
  /-- The scopes of the result. -/
  reader : Scopes

namespace Tracker

/-- The tracker before any statement, outside of any scope. -/
def start : Tracker := ⟨[], [], []⟩

/-- An expression, whose strays are the names that only the specializer takes for local. -/
def expr (t : Tracker) (e : Expr) : Tracker :=
  { t with strays := t.strays ++
      e.references.filter fun n => t.writer.isLocal n && !t.reader.isLocal n }

def optionExpr (t : Tracker) : Option Expr → Tracker
  | none => t
  | some e => t.expr e

/-- A variable that is declared for both. -/
def declare (t : Tracker) (name : String) : Tracker :=
  { t with writer := t.writer.declare name, reader := t.reader.declare name }

/-- A block of the source. -/
def inBlock (t : Tracker) (work : Tracker → Tracker) : Tracker :=
  let r := work { t with writer := t.writer.enter, reader := t.reader.enter }
  { r with writer := t.writer.leave r.writer, reader := t.reader.leave r.reader }

/-- A block of the result that is none of the source. -/
def inResultBlock (t : Tracker) (work : Tracker → Tracker) : Tracker :=
  let r := work { t with reader := t.reader.enter }
  { r with reader := t.reader.leave r.reader }

/-- The body of a function, where both have its parameters in scope. -/
def inFunction (t : Tracker) (names : List String) (work : Tracker → Tracker) : Tracker :=
  let r := work { t with writer := names :: t.writer, reader := names :: t.reader }
  { r with writer := r.writer.tail, reader := r.reader.tail }

/-- An expression that the reader meets in other scopes. -/
def exprAt (t : Tracker) (reader : Scopes) (e : Expr) : Tracker :=
  { { t with reader }.expr e with reader := t.reader }

mutual

/-- A statement, which `listed` says stands in a list, where an optional block gives way
to the statements of the selected branch. -/
def stmt (p : Permutation) (listed : Bool) (t : Tracker) : Stmt → Tracker
  | .branch _ arms otherwise => (t.arms p arms).optionStmt p otherwise
  | .forLoop _ init condition step body =>
    t.inBlock fun t => (((t.optionStmt p init).optionExpr condition).optionExpr step).stmt p
      false body
  | .whileLoop _ condition body => (t.expr condition).stmt p false body
  | .doWhile _ body condition => (t.stmt p false body).exprAt t.reader condition
  | .var _ d => (t.optionExpr d.initializer).declare d.name
  | .options _ ds => ds.foldl (fun t d => t.optionExpr d.default) t
  | .consts _ ds => ds.foldl (fun t d => t.expr d.value) t
  | .function _ f body => t.inFunction (f.parameters.map (·.name)) fun t => t.stmts p body
  | .expr _ e => t.expr e
  | .ret _ value => t.optionExpr value
  | .block _ items => t.inBlock fun t => t.stmts p items
  | .optional _ condition body otherwise =>
    let selected (t : Tracker) : Tracker :=
      match condition.evaluateCondition p.lookup with
      | .ok true =>
        match body with
        | .block _ items => t.stmts p items
        | other => if p.drops other then t else t.stmt p true other
      | .ok false => t.alternative p otherwise
      | .error _ => t
    if listed then selected t else t.inResultBlock selected
  | .struct _ _ | .inputs _ _ | .outputs _ _ | .externals _ _ | .leaveLoop _ | .nextRound _
  | .discard _ | .library _ _ => t

/-- Statements one after another, without those that are dropped. -/
def stmts (p : Permutation) (t : Tracker) : List Stmt → Tracker
  | [] => t
  | s :: ss => if p.drops s then t.stmts p ss else (t.stmt p true s).stmts p ss

/-- The arms of a branch, each condition before its body. -/
def arms (p : Permutation) (t : Tracker) : List (Expr × Stmt) → Tracker
  | [] => t
  | (c, s) :: rest => ((t.expr c).stmt p false s).arms p rest

def optionStmt (p : Permutation) (t : Tracker) : Option Stmt → Tracker
  | none => t
  | some s => t.stmt p false s

/-- The alternative of an optional block, whose statements stand in the list around it. -/
def alternative (p : Permutation) (t : Tracker) : Option Stmt → Tracker
  | none => t
  | some s =>
    match s with
    | .block _ items => t.stmts p items
    | other => if p.drops other then t else t.stmt p true other

end

/-- The statements of a selected branch. -/
def branch (p : Permutation) (t : Tracker) (s : Stmt) : Tracker :=
  match s with
  | .block _ items => t.stmts p items
  | other => if p.drops other then t else t.stmt p true other

/-- In a list, an optional block is tracked as the branch that is selected. -/
theorem stmt_optional_listed (p : Permutation) (t : Tracker) (b : Span) (condition : Expr)
    (body : Stmt) (otherwise : Option Stmt) :
    t.stmt p true (.optional b condition body otherwise) =
      match condition.evaluateCondition p.lookup with
      | .ok true => t.branch p body
      | .ok false => t.alternative p otherwise
      | .error _ => t := by
  rw [stmt]
  rfl

theorem stmt_optional (p : Permutation) (t : Tracker) (b : Span) (condition : Expr)
    (body : Stmt) (otherwise : Option Stmt) :
    t.stmt p false (.optional b condition body otherwise) =
      t.inResultBlock fun t => t.stmt p true (.optional b condition body otherwise) := by
  simp only [stmt, Bool.false_eq_true, if_false, if_true]

theorem alternative_some (p : Permutation) (t : Tracker) (s : Stmt) :
    t.alternative p (some s) = t.branch p s := by
  cases s <;> rfl

end Tracker

section References

variable {p : Permutation} {scopes : Scopes} {n : String} {v : Constant}

mutual

/-- Of an option with a value only the references stay that a scope has the name of. -/
theorem mem_references_specialize (hv : p.value? n = .ok (some v)) (e : Expr) {e' : Expr}
    (h : e.specialize p scopes = .ok e') :
    n ∈ e'.references ↔ n ∈ e.references ∧ scopes.isLocal n = true := by
  cases e with
  | constant s value =>
      cases h
      simp [Expr.references]
  | ref s name =>
      by_cases hname : name = n
      · subst hname
        cases hlocal : scopes.isLocal name with
        | true =>
            rw [Expr.specialize, hlocal] at h
            cases h
            simp [Expr.references]
        | false =>
            rw [Expr.specialize, hlocal] at h
            simp only [Bool.false_eq_true, if_false, hv, Except.ok_bind] at h
            cases h
            simp [Expr.references]
      · have hsource : n ∉ Expr.references (.ref s name) := by
          simpa [Expr.references] using fun heq => hname heq.symm
        have hresult : n ∉ e'.references := by
          rw [Expr.specialize] at h
          split at h
          · cases h
            exact hsource
          · obtain ⟨value, _, h⟩ := Except.bind_eq_ok_iff.mp h
            cases value with
            | none =>
                cases h
                exact hsource
            | some value =>
                cases h
                simp [Expr.references]
        exact ⟨fun hn => absurd hn hresult, fun hn => absurd hn.1 hsource⟩
  | index s base place =>
      obtain ⟨base', hbase, h⟩ := Except.bind_eq_ok_iff.mp h
      obtain ⟨place', hplace, h⟩ := Except.bind_eq_ok_iff.mp h
      cases h
      rw [Expr.references, Expr.references, List.mem_append, List.mem_append,
        mem_references_specialize hv base hbase, mem_references_specialize hv place hplace]
      tauto
  | field s base name =>
      obtain ⟨base', hbase, h⟩ := Except.bind_eq_ok_iff.mp h
      cases h
      rw [Expr.references, Expr.references, mem_references_specialize hv base hbase]
  | swizzle s base selection =>
      obtain ⟨base', hbase, h⟩ := Except.bind_eq_ok_iff.mp h
      cases h
      rw [Expr.references, Expr.references, mem_references_specialize hv base hbase]
  | assign s op target value =>
      obtain ⟨target', htarget, h⟩ := Except.bind_eq_ok_iff.mp h
      obtain ⟨value', hvalue, h⟩ := Except.bind_eq_ok_iff.mp h
      cases h
      rw [Expr.references, Expr.references, List.mem_append, List.mem_append,
        mem_references_specialize hv target htarget, mem_references_specialize hv value hvalue]
      tauto
  | unary s op operand =>
      obtain ⟨operand', hoperand, h⟩ := Except.bind_eq_ok_iff.mp h
      cases h
      rw [Expr.references, Expr.references, mem_references_specialize hv operand hoperand]
  | binary s op left right =>
      obtain ⟨left', hleft, h⟩ := Except.bind_eq_ok_iff.mp h
      obtain ⟨right', hright, h⟩ := Except.bind_eq_ok_iff.mp h
      cases h
      rw [Expr.references, Expr.references, List.mem_append, List.mem_append,
        mem_references_specialize hv left hleft, mem_references_specialize hv right hright]
      tauto
  | call s name args =>
      obtain ⟨args', hargs, h⟩ := Except.bind_eq_ok_iff.mp h
      cases h
      rw [Expr.references, Expr.references, mem_references_specializeList hv args hargs]
  | builtin s f args =>
      obtain ⟨args', hargs, h⟩ := Except.bind_eq_ok_iff.mp h
      cases h
      rw [Expr.references, Expr.references, mem_references_specializeList hv args hargs]
  | cast s target args =>
      obtain ⟨args', hargs, h⟩ := Except.bind_eq_ok_iff.mp h
      cases h
      rw [Expr.references, Expr.references, mem_references_specializeList hv args hargs]
  | ternary s q t f =>
      obtain ⟨q', hq, h⟩ := Except.bind_eq_ok_iff.mp h
      obtain ⟨t', ht, h⟩ := Except.bind_eq_ok_iff.mp h
      obtain ⟨f', hf, h⟩ := Except.bind_eq_ok_iff.mp h
      cases h
      simp only [Expr.references, List.mem_append, mem_references_specialize hv q hq,
        mem_references_specialize hv t ht, mem_references_specialize hv f hf]
      tauto

theorem mem_references_specializeList (hv : p.value? n = .ok (some v)) (es : List Expr)
    {es' : List Expr} (h : Expr.specializeList p scopes es = .ok es') :
    n ∈ Expr.referencesList es' ↔
      n ∈ Expr.referencesList es ∧ scopes.isLocal n = true := by
  cases es with
  | nil =>
      cases h
      simp [Expr.referencesList]
  | cons e rest =>
      obtain ⟨e', he, h⟩ := Except.bind_eq_ok_iff.mp h
      obtain ⟨rest', hrest, h⟩ := Except.bind_eq_ok_iff.mp h
      cases h
      rw [Expr.referencesList, Expr.referencesList, List.mem_append, List.mem_append,
        mem_references_specialize hv e he, mem_references_specializeList hv rest hrest]
      tauto

end

end References

namespace Scopes

theorem isLocal_eq (c : Collector) (n : String) : c.isLocal n = isLocal c.scopes n := rfl

theorem scopes_declare (c : Collector) (name : String) :
    (c.declare name).scopes = declare c.scopes name := by
  cases hc : c.scopes with
  | nil =>
      rw [Collector.declare, hc]
      exact hc
  | cons scope rest =>
      rw [Collector.declare, hc]
      rfl

theorem scopes_inBlock (c : Collector) (work : Collector → Collector) :
    c.inBlock work = { work { c with scopes := enter c.scopes } with
      scopes := leave c.scopes (work { c with scopes := enter c.scopes }).scopes } := by
  cases hc : c.scopes with
  | nil =>
      have hself : { c with scopes := enter [] } = c := by
        cases c
        cases hc
        rfl
      rw [hself, Collector.inBlock, hc]
      rfl
  | cons scope rest => 
      rw [Collector.inBlock, hc]
      simp [Collector.pushScope, Collector.popScope, hc, enter, leave]

end Scopes

/-- A tracker has the scopes of the specializer and of a collector of the result, and its
strays are what the collector has found of an option with a value, up to what it had found
before. -/
structure Agrees (n : String) (before : Prop) (t : Tracker) (scopes : Scopes)
    (c : Collector) : Prop where
  writer : t.writer = scopes
  reader : t.reader = c.scopes
  mem_iff : n ∈ c.mentioned ↔ n ∈ t.strays ∨ before

namespace Agrees

variable {p : Permutation} {n : String} {v : Constant} {before : Prop} {t : Tracker}
variable {scopes : Scopes} {c : Collector}

theorem of_same {c' : Collector} (h : Agrees n before t scopes c)
    (hscopes : c'.scopes = c.scopes) (hmentioned : c'.mentioned = c.mentioned) :
    Agrees n before t scopes c' :=
  ⟨h.writer, h.reader.trans hscopes.symm, by rw [hmentioned, h.mem_iff]⟩

/-- A reference strays where it is local to the writer of the result and not to its reader. -/
theorem mem_strays_expr (t : Tracker) (e : Expr) (n : String) :
    n ∈ (t.expr e).strays ↔ n ∈ t.strays ∨
      n ∈ e.references ∧ t.writer.isLocal n = true ∧ t.reader.isLocal n = false := by
  simp [Tracker.expr]

/-- The agreement outlasts an expression. The lemmas below say the same of every step. -/
theorem expr (hv : p.value? n = .ok (some v)) (h : Agrees n before t scopes c) {e e' : Expr}
    (he : e.specialize p scopes = .ok e') :
    Agrees n before (t.expr e) scopes (c.expr e') := by
  refine ⟨h.writer, ?_, ?_⟩
  · rw [Collector.scopes_expr]
    exact h.reader
  · rw [Collector.mem_mentioned_expr, mem_strays_expr, h.mem_iff,
      mem_references_specialize hv e he, h.writer, h.reader, Scopes.isLocal_eq]
    tauto

theorem optionExpr (hv : p.value? n = .ok (some v)) (h : Agrees n before t scopes c)
    {e e' : Option Expr} {scopes' : Scopes} (he : p.optionExpr e scopes = .ok (e', scopes')) :
    Agrees n before (t.optionExpr e) scopes' (c.optionExpr e') := by
  obtain ⟨⟨rfl, rfl⟩ | ⟨a, a', rfl, rfl, ha⟩, rfl⟩ := Permutation.of_optionExpr he
  · exact h
  · exact h.expr hv ha

theorem declare (h : Agrees n before t scopes c) (name : String) :
    Agrees n before (t.declare name) (scopes.declare name) (c.declare name) := by
  refine ⟨?_, ?_, ?_⟩
  · rw [Tracker.declare, h.writer]
  · rw [Scopes.scopes_declare, Tracker.declare, h.reader]
  · rw [Collector.mentioned_declare]
    exact h.mem_iff

theorem inBlock {after : Scopes} {twork : Tracker → Tracker} {cwork : Collector → Collector}
    (h : Agrees n before t scopes c)
    (hwork : ∀ t c, Agrees n before t scopes.enter c →
      Agrees n before (twork t) after (cwork c)) :
    Agrees n before (t.inBlock twork) (scopes.leave after) (c.inBlock cwork) := by
  have hinner := hwork { t with writer := t.writer.enter, reader := t.reader.enter }
    { c with scopes := Scopes.enter c.scopes }
    ⟨by rw [h.writer], by rw [h.reader], h.mem_iff⟩
  rw [Scopes.scopes_inBlock]
  refine ⟨?_, ?_, hinner.mem_iff⟩
  · change t.writer.leave _ = _
    rw [h.writer, ← hinner.writer, ← h.writer]
  · change t.reader.leave _ = _
    rw [h.reader, ← hinner.reader, ← h.reader]

/-- A block that only the result has opens a scope for the reader, and none for the specializer. -/
theorem inResultBlock {after : Scopes} {twork : Tracker → Tracker}
    {cwork : Collector → Collector} (h : Agrees n before t scopes c)
    (hwork : ∀ t c, Agrees n before t scopes c → Agrees n before (twork t) after (cwork c)) :
    Agrees n before (t.inResultBlock twork) after (c.inBlock cwork) := by
  have hinner := hwork { t with reader := t.reader.enter }
    { c with scopes := Scopes.enter c.scopes }
    ⟨h.writer, by rw [h.reader], h.mem_iff⟩
  rw [Scopes.scopes_inBlock]
  refine ⟨hinner.writer, ?_, hinner.mem_iff⟩
  change t.reader.leave _ = _
  rw [h.reader, ← hinner.reader, ← h.reader]

theorem inFunction {after : Scopes} {twork : Tracker → Tracker}
    {cwork : Collector → Collector} (h : Agrees n before t scopes c) (names : List String)
    (hwork : ∀ t c, Agrees n before t (names :: scopes) c →
      Agrees n before (twork t) after (cwork c)) :
    Agrees n before (t.inFunction names twork) after.tail
      (cwork (c.pushScope names)).popScope := by
  have hinner := hwork { t with writer := names :: t.writer, reader := names :: t.reader }
    (c.pushScope names)
    ⟨by rw [h.writer], by rw [h.reader]; rfl, h.mem_iff⟩
  refine ⟨?_, ?_, hinner.mem_iff⟩
  · rw [← hinner.writer]
    rfl
  · rw [Collector.popScope, ← hinner.reader]
    rfl

/-- The condition of a `do` loop, which the collector has met before the body. -/
theorem exprAt (hv : p.value? n = .ok (some v)) {t' : Tracker} {c' : Collector}
    {reader scopes' : Scopes} {e e' : Expr}
    (h : Agrees n (before ∨ n ∈ e'.references ∧ reader.isLocal n = false) t' scopes' c')
    (he : e.specialize p scopes' = .ok e') :
    Agrees n before (t'.exprAt reader e) scopes' c' := by
  refine ⟨h.writer, h.reader, ?_⟩
  have hstrays : n ∈ (t'.exprAt reader e).strays ↔ n ∈ t'.strays ∨
      n ∈ e.references ∧ t'.writer.isLocal n = true ∧ reader.isLocal n = false :=
    mem_strays_expr { t' with reader } e n
  rw [h.mem_iff, hstrays, mem_references_specialize hv e he, h.writer]
  tauto

/-- The defaults of options are tracked one by one. -/
theorem options (hv : p.value? n = .ok (some v)) (ds : List OptionDeclaration)
    {ds' : List OptionDeclaration} {scopes' : Scopes} (h : Agrees n before t scopes c)
    (hds : ds.mapM p.optionDeclaration scopes = .ok (ds', scopes')) :
    Agrees n before (ds.foldl (fun t d => t.optionExpr d.default) t) scopes'
      (ds'.foldl (fun c d => (c.type d.type).optionExpr d.default) c) := by
  induction ds generalizing t c scopes ds' with
  | nil =>
      cases hds
      exact h
  | cons d rest ih =>
      obtain ⟨d', mid, rest', hd, hrest, rfl⟩ := Permutation.of_mapM_cons hds
      obtain ⟨default, hdefault, rfl, rfl⟩ := Permutation.of_optionDeclaration hd
      have htype : Agrees n before t mid (c.type d.type) :=
        h.of_same (Collector.scopes_type _) (Collector.mentioned_type _)
      have hnext := ih (htype.optionExpr hv hdefault) hrest
      exact hnext

theorem consts (hv : p.value? n = .ok (some v)) (ds : List ConstDeclaration)
    {ds' : List ConstDeclaration} {scopes' : Scopes} (h : Agrees n before t scopes c)
    (hds : ds.mapM p.constDeclaration scopes = .ok (ds', scopes')) :
    Agrees n before (ds.foldl (fun t d => t.expr d.value) t) scopes'
      (ds'.foldl (fun c d => (c.type d.type).expr d.value) c) := by
  induction ds generalizing t c scopes ds' with
  | nil =>
      cases hds
      exact h
  | cons d rest ih =>
      obtain ⟨d', mid, rest', hd, hrest, rfl⟩ := Permutation.of_mapM_cons hds
      obtain ⟨value, hvalue, rfl, rfl⟩ := Permutation.of_constDeclaration hd
      have htype : Agrees n before t mid (c.type d.type) :=
        h.of_same (Collector.scopes_type _) (Collector.mentioned_type _)
      have hnext := ih (htype.expr hv hvalue) hrest
      exact hnext

/-- Types are collected without touching scopes or variables. -/
theorem types {α : Type} (as : List α) (f : α → Ty) (h : Agrees n before t scopes c) :
    Agrees n before t scopes (as.foldl (fun c a => c.type (f a)) c) := by
  induction as generalizing c with
  | nil => exact h
  | cons a rest ih => exact ih (h.of_same (Collector.scopes_type _) (Collector.mentioned_type _))

theorem signature (f : Signature) (h : Agrees n before t scopes c) :
    Agrees n before t scopes (c.signature f) := by
  have hparameters : Agrees n before t scopes
      (f.parameters.foldl (fun c q => c.typeAt q.type q.span) c) := by
    generalize f.parameters = qs
    induction qs generalizing c with
    | nil => exact h
    | cons q rest ih =>
        exact ih (h.of_same (Collector.scopes_typeAt _ _) (Collector.mentioned_typeAt _ _))
  exact hparameters.of_same (Collector.scopes_type _) (Collector.mentioned_type _)

end Agrees

section Run

variable {p : Permutation} {n : String} {v : Constant}

/-- What a statement contributes is collected as the statement. -/
theorem stmts_contribution {s out : Stmt} (hs : ∀ b q body o, s ≠ .optional b q body o)
    (c : Collector) : c.stmts (Permutation.contribution s out) = c.stmt out := by
  cases s with
  | optional b q body o => exact absurd rfl (hs b q body o)
  | _ => rfl

theorem stmts_append (c : Collector) (ss ts : List Stmt) :
    c.stmts (ss ++ ts) = (c.stmts ss).stmts ts := by
  induction ss generalizing c with
  | nil => rfl
  | cons s rest ih => exact ih (c.stmt s)

/-- Only an optional block is tracked in another way where it stands in a list. -/
theorem tracker_stmt_listed {s : Stmt} (hs : ∀ b q body o, s ≠ .optional b q body o)
    (t : Tracker) : t.stmt p true s = t.stmt p false s := by
  cases s with
  | optional b q body o => exact absurd rfl (hs b q body o)
  | _ => rfl

mutual

/-- A statement by itself. -/
theorem agrees_stmt (hv : p.value? n = .ok (some v)) (s : Stmt) {before : Prop} {t : Tracker}
    {scopes scopes' : Scopes} {c : Collector} {out : Stmt} (h : Agrees n before t scopes c)
    (hrun : p.stmt s scopes = .ok (out, scopes')) :
    Agrees n before (t.stmt p false s) scopes' (c.stmt out) := by
  have hat (span : Span) : Agrees n before t scopes (c.locateTypes span) := h.of_same rfl rfl
  cases s with
  | branch b arms otherwise =>
      obtain ⟨arms', mid, otherwise', harms, hother, rfl⟩ := Permutation.of_stmt_branch hrun
      have hinner := agrees_optionStmt hv otherwise (agrees_arms hv arms (hat b) harms) hother
      exact hinner
  | forLoop b init condition step body =>
      obtain ⟨init', mid, condition', step', body', after, hinit, hcondition, hstep, hbody,
        rfl, rfl⟩ := Permutation.of_stmt_forLoop hrun
      have hinner := (hat b).inBlock fun t c hin =>
        have hinit' := agrees_optionStmt hv init hin hinit
        agrees_stmt hv body ((hinit'.optionExpr hv hcondition).optionExpr hv hstep) hbody
      exact hinner
  | whileLoop b condition body =>
      obtain ⟨condition', body', hcondition, hbody, rfl⟩ := Permutation.of_stmt_whileLoop hrun
      have hinner := agrees_stmt hv body ((hat b).expr hv hcondition) hbody
      exact hinner
  | doWhile b body condition =>
      obtain ⟨body', condition', hbody, hcondition, rfl⟩ := Permutation.of_stmt_doWhile hrun
      have hmet : Agrees n (before ∨ n ∈ condition'.references ∧ t.reader.isLocal n = false) t
          scopes ((c.locateTypes b).expr condition') := by
        refine ⟨h.writer, by rw [Collector.scopes_expr, (hat b).reader], ?_⟩
        rw [Collector.mem_mentioned_expr, (hat b).mem_iff, h.reader, or_assoc]
        rfl
      have hinner := (agrees_stmt hv body hmet hbody).exprAt hv hcondition
      exact hinner
  | var b d =>
      obtain ⟨initializer, hinit, rfl, rfl⟩ := Permutation.of_stmt_var hrun
      have htype : Agrees n before t scopes ((c.locateTypes b).type d.type) :=
        h.of_same (Collector.scopes_type _) (Collector.mentioned_type _)
      exact (htype.optionExpr hv hinit).declare d.name
  | options b ds =>
      obtain ⟨ds', hds, rfl⟩ := Permutation.of_stmt_options hrun
      exact (hat _).options hv ds hds
  | consts b ds =>
      obtain ⟨ds', hds, rfl⟩ := Permutation.of_stmt_consts hrun
      exact (hat _).consts hv ds hds
  | function b f body =>
      obtain ⟨body', after, hbody, rfl, rfl⟩ := Permutation.of_stmt_function hrun
      have hinner := ((hat b).signature f).inFunction (f.parameters.map (·.name))
        fun t c hin => agrees_stmts hv body hin hbody
      exact hinner
  | expr b e =>
      obtain ⟨e', he, rfl, rfl⟩ := Permutation.of_stmt_expr hrun
      exact (hat _).expr hv he
  | ret b value =>
      obtain ⟨value', hvalue, rfl, rfl⟩ := Permutation.of_stmt_ret hrun
      exact (hat _).optionExpr hv hvalue
  | block b items =>
      obtain ⟨items', after, hitems, rfl, rfl⟩ := Permutation.of_stmt_block hrun
      have hinner := (hat b).inBlock fun t c hin => agrees_stmts hv items hin hitems
      exact hinner
  | optional b condition body otherwise =>
      obtain ⟨taken, items, hcondition, rfl, hitems⟩ := Permutation.of_stmt_optional hrun
      have hinner := (hat b).inResultBlock fun t c hin =>
        agrees_optional hv body otherwise hin hcondition hitems b
      rw [Tracker.stmt_optional]
      exact hinner
  | struct b d =>
      cases hrun
      exact (hat _).types d.fields (·.type)
  | inputs b entries =>
      cases hrun
      exact (hat _).types entries (·.type)
  | outputs b entries =>
      cases hrun
      exact (hat _).types entries (·.type)
  | externals b entries =>
      cases hrun
      exact (hat _).types entries (·.type)
  | _ =>
      cases hrun
      exact hat _
termination_by 4 * sizeOf s
decreasing_by
  all_goals subst_vars; simp +arith

/-- The selected statements of an optional block. -/
theorem agrees_optional (hv : p.value? n = .ok (some v)) {condition : Expr} (body : Stmt)
    (otherwise : Option Stmt) {before : Prop} {t : Tracker} {scopes scopes' : Scopes}
    {c : Collector} {taken : Bool} {items : List Stmt} (h : Agrees n before t scopes c)
    (hcondition : condition.evaluateCondition p.lookup = .ok taken)
    (hitems : (if taken then p.branchStmts body else p.alternative otherwise) scopes =
      .ok (items, scopes')) (b : Span) :
    Agrees n before (t.stmt p true (.optional b condition body otherwise)) scopes'
      (c.stmts items) := by
  have hselected : t.stmt p true (.optional b condition body otherwise) =
      if taken then t.branch p body else t.alternative p otherwise := by
    rw [Tracker.stmt_optional_listed, hcondition]
    cases taken <;> rfl
  rw [hselected]
  cases taken with
  | true => exact agrees_branch hv body h hitems
  | false =>
      cases otherwise with
      | none =>
          cases hitems
          exact h
      | some s =>
          rw [Permutation.alternative_some] at hitems
          rw [if_neg Bool.false_ne_true, Tracker.alternative_some]
          exact agrees_branch hv s h hitems
termination_by 4 * (sizeOf body + sizeOf otherwise) + 3
decreasing_by
  all_goals subst_vars; simp +arith

/-- A statement of a list. -/
theorem agrees_listed (hv : p.value? n = .ok (some v)) (s : Stmt) {before : Prop} {t : Tracker}
    {scopes scopes' : Scopes} {c : Collector} {out : Stmt} (h : Agrees n before t scopes c)
    (hrun : p.stmt s scopes = .ok (out, scopes')) :
    Agrees n before (t.stmt p true s) scopes' (c.stmts (Permutation.contribution s out)) := by
  by_cases hoptional : ∃ b condition body otherwise, s = .optional b condition body otherwise
  · obtain ⟨b, condition, body, otherwise, rfl⟩ := hoptional
    obtain ⟨taken, items, hcondition, rfl, hitems⟩ := Permutation.of_stmt_optional hrun
    exact agrees_optional hv body otherwise h hcondition hitems b
  · have hs : ∀ b q body o, s ≠ .optional b q body o := fun b q body o heq =>
      hoptional ⟨b, q, body, o, heq⟩
    rw [tracker_stmt_listed hs, stmts_contribution hs]
    exact agrees_stmt hv s h hrun
termination_by 4 * sizeOf s + 1
decreasing_by
  all_goals subst_vars; simp +arith

/-- The agreement outlasts the branch of an optional block. -/
theorem agrees_branch (hv : p.value? n = .ok (some v)) (s : Stmt) {before : Prop} {t : Tracker}
    {scopes scopes' : Scopes} {c : Collector} {items : List Stmt}
    (h : Agrees n before t scopes c)
    (hrun : p.branchStmts s scopes = .ok (items, scopes')) :
    Agrees n before (t.branch p s) scopes' (c.stmts items) := by
  by_cases hblock : ∃ b inner, s = .block b inner
  · obtain ⟨b, inner, rfl⟩ := hblock
    exact agrees_stmts hv inner h hrun
  · have hs : ∀ b inner, s ≠ .block b inner := fun b inner heq => hblock ⟨b, inner, heq⟩
    have hbranch : t.branch p s = if p.drops s then t else t.stmt p true s := by
      cases s with
      | block b inner => exact absurd rfl (hs b inner)
      | _ => rfl
    rw [hbranch]
    rcases Permutation.of_branchStmts hs hrun with ⟨hdrops, rfl, rfl⟩ | ⟨hdrops, out, hout, rfl⟩
    · rw [hdrops, if_pos rfl]
      exact h
    · rw [hdrops, if_neg Bool.false_ne_true]
      exact agrees_listed hv s h hout
termination_by 4 * sizeOf s + 2
decreasing_by
  all_goals subst_vars; simp +arith

theorem agrees_stmts (hv : p.value? n = .ok (some v)) (ss : List Stmt) {before : Prop}
    {t : Tracker} {scopes scopes' : Scopes} {c : Collector} {out : List Stmt}
    (h : Agrees n before t scopes c) (hrun : p.stmts ss scopes = .ok (out, scopes')) :
    Agrees n before (t.stmts p ss) scopes' (c.stmts out) := by
  cases ss with
  | nil =>
      cases hrun
      exact h
  | cons s rest =>
      rw [Tracker.stmts]
      rcases Permutation.of_stmts_cons hrun with
        ⟨hdrops, hrest⟩ | ⟨hdrops, t', mid, out', hs, hrest, rfl⟩
      · rw [hdrops, if_pos rfl]
        exact agrees_stmts hv rest h hrest
      · rw [hdrops, if_neg Bool.false_ne_true, stmts_append]
        exact agrees_stmts hv rest (agrees_listed hv s h hs) hrest
termination_by 4 * sizeOf ss
decreasing_by
  all_goals subst_vars; simp +arith

theorem agrees_arms (hv : p.value? n = .ok (some v)) (arms : List (Expr × Stmt))
    {before : Prop} {t : Tracker} {scopes scopes' : Scopes} {c : Collector}
    {out : List (Expr × Stmt)} (h : Agrees n before t scopes c)
    (hrun : p.arms arms scopes = .ok (out, scopes')) :
    Agrees n before (t.arms p arms) scopes' (c.arms out) := by
  match arms with
  | [] =>
      cases hrun
      exact h
  | (e, s) :: rest =>
      obtain ⟨e', s', mid, rest', he, hs, hrest, rfl⟩ := Permutation.of_arms_cons hrun
      have hinner := agrees_arms hv rest (agrees_stmt hv s (h.expr hv he) hs) hrest
      exact hinner
termination_by 4 * sizeOf arms
decreasing_by
  all_goals subst_vars; simp +arith

theorem agrees_optionStmt (hv : p.value? n = .ok (some v)) (s : Option Stmt) {before : Prop}
    {t : Tracker} {scopes scopes' : Scopes} {c : Collector} {out : Option Stmt}
    (h : Agrees n before t scopes c) (hrun : p.optionStmt s scopes = .ok (out, scopes')) :
    Agrees n before (t.optionStmt p s) scopes' (c.optionStmt out) := by
  cases s with
  | none =>
      cases hrun
      exact h
  | some s =>
      obtain ⟨out', hs, rfl⟩ := Permutation.of_optionStmt_some hrun
      exact agrees_stmt hv s h hs
termination_by 4 * sizeOf s
decreasing_by
  all_goals subst_vars; simp +arith

end

end Run

end Shading
