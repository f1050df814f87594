import Shading.Proofs.Extract.Calls
import Shading.Proofs.Syntax.Erased

/-!
# Names that are collected, wherever they stand

Which names a declaration refers to does not depend on the places of its parts, and not on
which names are those of externals either: these two only say where a use is noted.
-/

namespace Shading

namespace Collector

variable {c c' : Collector}

section Names

variable (c)

/-- A call adds one name of a function. -/
theorem mem_namesOf_call (name : String) (span : Span) (k : Category) (n : String) :
    n ∈ (c.call name span).found.namesOf k ↔
      n ∈ c.found.namesOf k ∨ k = .function ∧ n = name := by
  cases k with
  | function => exact (c.called_call name span n).trans (by simp [called, Dependencies.namesOf])
  | _ => simp [Dependencies.namesOf, call]

/-- A type adds the name of its structure, where it has one. -/
theorem mem_namesOf_type (t : Ty) (k : Category) (n : String) :
    n ∈ (c.type t).found.namesOf k ↔
      n ∈ c.found.namesOf k ∨ k = .struct ∧ t.structName? = some n := by
  unfold type
  cases t.structName? with
  | none => simp
  | some name =>
      cases k with
      | struct =>
          simpa [Dependencies.namesOf, eq_comm (a := name)] using
            mem_names_note c.found.structs name c.typeSpan n
      | _ => simp [Dependencies.namesOf]

/-- A reference adds one name of a value, unless that is local. -/
theorem mem_namesOf_reference (name : String) (span : Span) (k : Category) (n : String) :
    n ∈ (c.reference name span).found.namesOf k ↔
      n ∈ c.found.namesOf k ∨ k.isValue = true ∧ n = name ∧ c.isLocal n = false := by
  have hkept : (c.reference name span).found.functions = c.found.functions ∧
      (c.reference name span).found.structs = c.found.structs := by
    unfold reference
    split
    · exact ⟨rfl, rfl⟩
    · split <;> exact ⟨rfl, rfl⟩
  have hvalue (hk : k.isValue = true) : n ∈ (c.reference name span).mentioned ↔
      n ∈ c.mentioned ∨ k.isValue = true ∧ n = name ∧ c.isLocal n = false := by
    rw [mem_mentioned_reference]
    simp [hk]
  cases k with
  | function => simp [Dependencies.namesOf, Category.isValue, hkept.1]
  | struct => simp [Dependencies.namesOf, Category.isValue, hkept.2]
  | _ => exact hvalue rfl

end Names

/-- Two collectors in the same scopes that found the same names. -/
structure Alike (c c' : Collector) : Prop where
  scopes : c'.scopes = c.scopes
  names : ∀ k n, n ∈ c'.found.namesOf k ↔ n ∈ c.found.namesOf k

namespace Alike

theorem symm (h : Alike c c') : Alike c' c :=
  ⟨h.scopes.symm, fun k n => (h.names k n).symm⟩

theorem new (externals externals' : List String) :
    Alike (Collector.new externals) (Collector.new externals') :=
  ⟨rfl, fun _ _ => Iff.rfl⟩

theorem locateTypes (h : Alike c c') (s s' : Span) :
    Alike (c.locateTypes s) (c'.locateTypes s') := ⟨h.scopes, h.names⟩

theorem type (h : Alike c c') (t : Ty) : Alike (c.type t) (c'.type t) := by
  refine ⟨by simp [h.scopes], fun k n => ?_⟩
  rw [mem_namesOf_type, mem_namesOf_type, h.names]

theorem typeAt (h : Alike c c') (t : Ty) (s s' : Span) :
    Alike (c.typeAt t s) (c'.typeAt t s') := (h.locateTypes s s').type t

theorem call (h : Alike c c') (name : String) (s s' : Span) :
    Alike (c.call name s) (c'.call name s') := by
  refine ⟨h.scopes, fun k n => ?_⟩
  rw [mem_namesOf_call, mem_namesOf_call, h.names]

theorem reference (h : Alike c c') (name : String) (s s' : Span) :
    Alike (c.reference name s) (c'.reference name s') := by
  refine ⟨by simp [h.scopes], fun k n => ?_⟩
  rw [mem_namesOf_reference, mem_namesOf_reference, h.names, isLocal_eq_of_scopes h.scopes]

theorem declare (h : Alike c c') (name : String) : Alike (c.declare name) (c'.declare name) := by
  unfold Collector.declare
  rw [h.scopes]
  cases c.scopes with
  | nil => exact h
  | cons scope rest => exact ⟨rfl, h.names⟩

theorem pushScope (h : Alike c c') {names names' : List String} (hn : names' = names) :
    Alike (c.pushScope names) (c'.pushScope names') :=
  ⟨congrArg₂ List.cons hn h.scopes, h.names⟩

theorem popScope (h : Alike c c') : Alike c.popScope c'.popScope :=
  ⟨congrArg List.tail h.scopes, h.names⟩

/-- A block keeps the collectors alike where the work in it does. -/
theorem inBlock (h : Alike c c') {work work' : Collector → Collector}
    (hwork : ∀ {c c'}, Alike c c' → Alike (work c) (work' c')) :
    Alike (c.inBlock work) (c'.inBlock work') := by
  unfold Collector.inBlock
  rw [h.scopes]
  cases c.scopes with
  | nil => exact hwork h
  | cons scope rest => exact (hwork (h.pushScope rfl)).popScope

theorem foldl {α : Type} {f : Collector → α → Collector} {erase : α → α}
    (hf : ∀ {c c'} a, Alike c c' → Alike (f c a) (f c' (erase a))) (h : Alike c c')
    (as : List α) : Alike (as.foldl f c) ((as.map erase).foldl f c') := by
  induction as generalizing c c' with
  | nil => exact h
  | cons a rest ih => exact ih (hf a h)

mutual

/-- An expression and the same without spans are collected alike. -/
theorem expr {c c' : Collector} (h : Alike c c') (e : Expr) :
    Alike (c.expr e) (c'.expr e.erased) := by
  cases e with
  | constant _ _ => exact h
  | ref s name => exact h.reference name s _
  | index _ base place => exact (h.expr base).expr place
  | field _ base _ => exact h.expr base
  | assign _ _ target value => exact (h.expr target).expr value
  | unary _ _ operand => exact h.expr operand
  | binary _ _ left right => exact (h.expr left).expr right
  | call s name args =>
      rw [Expr.erased_call]
      exact (h.call name s _).exprs args
  | builtin s f args =>
      rw [Expr.erased_builtin]
      exact h.exprs args
  | cast s target args =>
      rw [Expr.erased_cast]
      exact (h.typeAt target s _).exprs args
  | swizzle _ base _ => exact h.expr base
  | ternary _ q t f => exact ((h.expr q).expr t).expr f

theorem exprs {c c' : Collector} (h : Alike c c') (es : List Expr) :
    Alike (c.exprs es) (c'.exprs (es.map Expr.erased)) := by
  cases es with
  | nil => exact h
  | cons e rest => exact (h.expr e).exprs rest

end

theorem optionExpr (h : Alike c c') (e : Option Expr) :
    Alike (c.optionExpr e) (c'.optionExpr (e.map Expr.erased)) := by
  cases e with
  | none => exact h
  | some e => exact h.expr e

theorem signature (h : Alike c c') (f : Signature) :
    Alike (c.signature f) (c'.signature f.erased) :=
  (foldl (fun p h => h.typeAt p.type p.span _) h f.parameters).type f.returnType

mutual

/-- A statement refers to the names that it refers to without its places. -/
theorem stmt {c c' : Collector} (h : Alike c c') (s : Stmt) :
    Alike (c.stmt s) (c'.stmt s.eraseSpans) := by
  have hc : Alike (c.locateTypes s.span) (c'.locateTypes s.eraseSpans.span) := h.locateTypes _ _
  cases s with
  | branch p arms otherwise =>
      rw [Stmt.erased_branch] at hc ⊢
      exact (hc.arms arms).optionStmt otherwise
  | forLoop p init condition step body =>
      rw [Stmt.erased_forLoop] at hc ⊢
      exact hc.inBlock fun h =>
        (((h.optionStmt init).optionExpr condition).optionExpr step).stmt body
  | whileLoop p condition body => exact (hc.expr condition).stmt body
  | doWhile p body condition => exact (hc.expr condition).stmt body
  | var p d =>
      rw [Stmt.erased_var] at hc ⊢
      exact ((hc.type d.type).optionExpr d.initializer).declare d.name
  | struct p d =>
      rw [Stmt.erased_struct] at hc ⊢
      have hfields : Alike _ (((d.fields.map id).foldl (fun c f => c.type f.type)) _) :=
        foldl (fun f h => h.type f.type) hc d.fields
      rwa [List.map_id] at hfields
  | inputs p vs =>
      rw [Stmt.erased_inputs] at hc ⊢
      exact foldl (fun v h => h.type v.type) hc vs
  | outputs p vs =>
      rw [Stmt.erased_outputs] at hc ⊢
      exact foldl (fun v h => h.type v.type) hc vs
  | externals p vs =>
      rw [Stmt.erased_externals] at hc ⊢
      exact foldl (fun v h => h.type v.type) hc vs
  | options p ds =>
      rw [Stmt.erased_options] at hc ⊢
      exact foldl (fun d h => (h.type d.type).optionExpr d.default) hc ds
  | consts p ds =>
      rw [Stmt.erased_consts] at hc ⊢
      exact foldl (fun d h => (h.type d.type).expr d.value) hc ds
  | function p f body =>
      rw [Stmt.erased_function] at hc ⊢
      have hnames : f.erased.parameters.map (·.name) = f.parameters.map (·.name) := by
        rw [Signature.erased, List.map_map]
        rfl
      exact (((hc.signature f).pushScope hnames).stmts body).popScope
  | expr p e => exact hc.expr e
  | ret p value =>
      rw [Stmt.erased_ret] at hc ⊢
      exact hc.optionExpr value
  | leaveLoop p => exact hc
  | nextRound p => exact hc
  | discard p => exact hc
  | library p path => exact hc
  | block p items =>
      rw [Stmt.erased_block] at hc ⊢
      exact hc.inBlock fun h => h.stmts items
  | optional p condition body otherwise =>
      rw [Stmt.erased_optional] at hc ⊢
      exact ((hc.expr condition).stmt body).optionStmt otherwise

/-- Statements and the same without spans are collected alike. -/
theorem stmts {c c' : Collector} (h : Alike c c') (ss : List Stmt) :
    Alike (c.stmts ss) (c'.stmts (ss.map Stmt.eraseSpans)) := by
  cases ss with
  | nil => exact h
  | cons s rest => exact (h.stmt s).stmts rest

theorem arms {c c' : Collector} (h : Alike c c') (as : List (Expr × Stmt)) :
    Alike (c.arms as) (c'.arms (as.map Stmt.erasedArm)) := by
  match as with
  | [] => exact h
  | (e, s) :: rest => exact ((h.expr e).stmt s).arms rest

theorem optionStmt {c c' : Collector} (h : Alike c c') (s : Option Stmt) :
    Alike (c.optionStmt s) (c'.optionStmt (s.map Stmt.eraseSpans)) := by
  cases s with
  | none => exact h
  | some s => exact h.stmt s

end

/-- So does a declaration, be it an entry of a block or an item. -/
theorem declaration (h : Alike c c') (s : Stmt) (entry : Option Nat) :
    Alike (c.declaration s entry) (c'.declaration s.eraseSpans entry) := by
  have hstmt := h.stmt s
  cases entry with
  | none => cases s <;> exact hstmt
  | some i =>
      cases s with
      | inputs p vs =>
          simp only [Stmt.erased_inputs, Collector.declaration, List.getElem?_map]
          cases vs[i]? with
          | none => exact h
          | some v => exact h.typeAt v.type v.span _
      | outputs p vs =>
          simp only [Stmt.erased_outputs, Collector.declaration, List.getElem?_map]
          cases vs[i]? with
          | none => exact h
          | some v => exact h.typeAt v.type v.span _
      | externals p vs =>
          simp only [Stmt.erased_externals, Collector.declaration, List.getElem?_map]
          cases vs[i]? with
          | none => exact h
          | some v => exact h.typeAt v.type v.span _
      | options p ds =>
          simp only [Stmt.erased_options, Collector.declaration, List.getElem?_map]
          cases ds[i]? with
          | none => exact h
          | some d => exact (h.typeAt d.type d.span _).optionExpr d.default
      | consts p ds =>
          simp only [Stmt.erased_consts, Collector.declaration, List.getElem?_map]
          cases ds[i]? with
          | none => exact h
          | some d => exact (h.typeAt d.type d.span _).expr d.value
      | _ => exact hstmt

end Alike

end Collector

end Shading
