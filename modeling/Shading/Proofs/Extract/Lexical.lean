import Shading.Parse.File
import Shading.Proofs.Extract.Free

/-!
# Free variables of a function

A collector finds the free variables of a function, each one among the externals or among the
values. It opens scopes for functions, blocks and `for` loops. The body of an `if`, `else`,
`while` or `do` is a scope of the language too, but none of the collector: a declaration that
is such a body by itself stays in scope after it. Only there do the collector's free variables
differ from the lexical ones, and then some of these are not found.
-/

namespace Shading

namespace Expr

def referencesOption : Option Expr → List String
  | none => []
  | some e => e.references

end Expr

namespace Stmt

mutual

/-- The names that the collector has in scope after a statement: its own name if it is a
declaration, and those of the bare declarations that are bodies in it. -/
def spilled : Stmt → List String
  | .var _ d => [d.name]
  | .branch _ arms otherwise => spilledArms arms ++ spilledOption otherwise
  | .whileLoop _ _ body | .doWhile _ body _ => body.spilled
  | .optional _ _ body otherwise => body.spilled ++ spilledOption otherwise
  | _ => []

def spilledArms : List (Expr × Stmt) → List String
  | [] => []
  | (_, s) :: rest => s.spilled ++ spilledArms rest

def spilledOption : Option Stmt → List String
  | none => []
  | some s => s.spilled

end

end Stmt

/-- Which statements are scopes. -/
inductive Scoping where
  /-- Functions, blocks, `for` loops and all bodies. -/
  | lexical
  /-- Functions, blocks and `for` loops. -/
  | collected

namespace Scoping

/-- The names that a statement of a list leaves to the ones after it. -/
def after : Scoping → Stmt → List String
  | .lexical, .var _ d => [d.name]
  | .lexical, _ => []
  | .collected, s => s.spilled

/-- The names that a body leaves to what comes after it. -/
def afterBody : Scoping → Stmt → List String
  | .lexical, _ => []
  | .collected, s => s.spilled

end Scoping

namespace Stmt

mutual

/-- The variables of a statement that nothing in it binds: no parameter, and no declaration
before them whose scope they are in. A declaration binds after its initializer. -/
def free (m : Scoping) : Stmt → List String
  | .branch _ arms otherwise =>
    freeArms m arms ++ (freeOption m otherwise).filter (· ∉ arms.flatMap (m.afterBody ·.2))
  | .forLoop _ init condition step body =>
    freeOption m init ++ (Expr.referencesOption condition ++ Expr.referencesOption step ++
      body.free m).filter (· ∉ init.toList.flatMap m.after)
  | .whileLoop _ condition body | .doWhile _ body condition => condition.references ++ body.free m
  | .var _ d => Expr.referencesOption d.initializer
  | .options _ ds => ds.flatMap (Expr.referencesOption ·.default)
  | .consts _ ds => ds.flatMap (·.value.references)
  | .function _ f body => (freeList m body).filter (· ∉ f.parameters.map (·.name))
  | .expr _ e => e.references
  | .ret _ value => Expr.referencesOption value
  | .block _ items => freeList m items
  | .optional _ condition body otherwise =>
    condition.references ++ body.free m ++ (freeOption m otherwise).filter (· ∉ m.afterBody body)
  | _ => []

/-- The free variables of a list, where a statement may bind those of the ones after it. -/
def freeList (m : Scoping) : List Stmt → List String
  | [] => []
  | s :: ss => s.free m ++ (freeList m ss).filter (· ∉ m.after s)

def freeArms (m : Scoping) : List (Expr × Stmt) → List String
  | [] => []
  | (c, s) :: rest => c.references ++ s.free m ++ (freeArms m rest).filter (· ∉ m.afterBody s)

def freeOption (m : Scoping) : Option Stmt → List String
  | none => []
  | some s => s.free m

end

end Stmt

namespace Collector

/-- Externals are kept apart from the other names. -/
def Sorted (c : Collector) : Prop :=
  (∀ n ∈ c.found.values.names, n ∉ c.externals) ∧ ∀ n ∈ c.found.externals.names, n ∈ c.externals

/-- From the first collector to the second one, the names are found that are free and that no
scope has. -/
structure Finds (c c' : Collector) (free : List String) : Prop where
  externals : c'.externals = c.externals
  sorted : c.Sorted → c'.Sorted
  mentioned : ∀ n, n ∈ c'.mentioned ↔ n ∈ c.mentioned ∨ n ∈ free ∧ c.isLocal n = false

/-- And in the innermost scope, more names are bound. -/
structure Walks (c c' : Collector) (bound free : List String) : Prop
    extends Finds c c' free where
  outer : c'.scopes.tail = c.scopes.tail
  opened : c.scopes ≠ [] → c'.scopes ≠ []
  isLocal : ∀ n, c'.isLocal n = true ↔ c.isLocal n = true ∨ n ∈ bound

variable {c c' c'' : Collector} {bound bound' free free' : List String}

theorem filter_notMem_nil (names : List String) : names.filter (· ∉ []) = names :=
  List.filter_eq_self.mpr (by simp)

namespace Finds

/-- A step that finds nothing of the names that are kept. -/
theorem of_same (hexternals : c'.externals = c.externals)
    (hvalues : c'.found.values = c.found.values)
    (hfound : c'.found.externals = c.found.externals) : Finds c c' [] := by
  constructor
  · exact hexternals
  · intro h
    rwa [Sorted, hexternals, hvalues, hfound]
  · intro n
    rw [Collector.mentioned, hvalues, hfound]
    simp [Collector.mentioned]

/-- Work that leaves the scopes alone binds nothing behind it. -/
theorem walks (h : Finds c c' free) (hscopes : c'.scopes = c.scopes) : Walks c c' [] free := by
  constructor
  · exact h
  · rw [hscopes]
  · rw [hscopes]
    exact id
  · intro n
    rw [isLocal_eq_of_scopes hscopes]
    simp

/-- What is found in a scope of more names, from outside of it. -/
theorem leaveScope {names : List String} (h : Finds (c.pushScope names) c' free) :
    Finds c c'.popScope (free.filter (· ∉ names)) := by
  constructor
  · exact h.externals
  · exact h.sorted
  · intro n
    have hlocal : (c.pushScope names).isLocal n = false ↔ n ∉ names ∧ c.isLocal n = false := by
      rw [Collector.isLocal, Collector.pushScope, List.any_cons, Bool.or_eq_false_iff]
      simp [Collector.isLocal]
    have hfound := h.mentioned n
    rw [hlocal] at hfound
    rw [mentioned_popScope, hfound, mentioned_pushScope]
    simp only [List.mem_filter, decide_eq_true_eq]
    tauto

/-- A reference is found free unless a scope binds it. -/
theorem reference (name : String) (span : Span) : Finds c (c.reference name span) [name] := by
  constructor
  · rw [Collector.reference]
    split
    · rfl
    · split <;> rfl
  · intro hc
    rw [Collector.reference]
    split
    · exact hc
    · split
      · rename_i hname
        refine ⟨hc.1, ?_⟩
        intro n hn
        rcases (mem_names_note _ _ _ _).mp hn with hn | rfl
        · exact hc.2 n hn
        · exact hname
      · rename_i hname
        refine ⟨?_, hc.2⟩
        intro n hn
        rcases (mem_names_note _ _ _ _).mp hn with hn | rfl
        · exact hc.1 n hn
        · exact hname
  · intro n
    rw [mem_mentioned_reference, List.mem_singleton]

end Finds

namespace Walks

/-- Names bound by the first walk are not free behind it. -/
theorem trans (h : Walks c c' bound free) (h' : Walks c' c'' bound' free') :
    Walks c c'' (bound ++ bound') (free ++ free'.filter (· ∉ bound)) := by
  constructor
  · constructor
    · exact h'.externals.trans h.externals
    · intro hc
      exact h'.sorted (h.sorted hc)
    · intro n
      rw [h'.mentioned, h.mentioned]
      have hlocal := h.isLocal n
      rw [← Bool.not_eq_true, ← Bool.not_eq_true, hlocal]
      simp only [List.mem_append, List.mem_filter, decide_eq_true_eq]
      tauto
  · exact h'.outer.trans h.outer
  · intro hc
    exact h'.opened (h.opened hc)
  · intro n
    rw [h'.isLocal, h.isLocal, List.mem_append, or_assoc]

/-- A step that keeps the scopes and finds nothing of the names that are kept. -/
theorem of_same (hexternals : c'.externals = c.externals)
    (hvalues : c'.found.values = c.found.values)
    (hfound : c'.found.externals = c.found.externals) (hscopes : c'.scopes = c.scopes) :
    Walks c c' [] [] :=
  (Finds.of_same hexternals hvalues hfound).walks hscopes

theorem refl (c : Collector) : Walks c c [] [] := .of_same rfl rfl rfl rfl

/-- After steps that bind nothing. -/
theorem andThen (h : Walks c c' [] free) (h' : Walks c' c'' bound free') :
    Walks c c'' bound (free ++ free') := by
  have hboth := h.trans h'
  rwa [List.nil_append, filter_notMem_nil] at hboth

theorem locateTypes (span : Span) : Walks c (c.locateTypes span) [] [] :=
  .of_same rfl rfl rfl rfl

theorem type (t : Ty) : Walks c (c.type t) [] [] := by
  apply Finds.walks
  · rw [Collector.type]
    cases t.structName? with
    | none => exact .of_same rfl rfl rfl
    | some name => exact .of_same rfl rfl rfl
  · exact scopes_type t

theorem typeAt (t : Ty) (span : Span) : Walks c (c.typeAt t span) [] [] :=
  (locateTypes span).andThen (type t)

theorem call (name : String) (span : Span) : Walks c (c.call name span) [] [] :=
  .of_same rfl rfl rfl rfl

theorem reference (name : String) (span : Span) : Walks c (c.reference name span) [] [name] :=
  (Finds.reference name span).walks (scopes_reference name span)

mutual

/-- An expression binds no name, and what it mentions is free in it. -/
theorem expr (c : Collector) (e : Expr) : Walks c (c.expr e) [] e.references := by
  cases e with
  | constant _ _ => exact .refl _
  | ref s name => exact reference name s
  | index _ base place => exact (expr c base).andThen (expr _ place)
  | field _ base _ => exact expr c base
  | swizzle _ base _ => exact expr c base
  | assign _ _ target value => exact (expr c target).andThen (expr _ value)
  | unary _ _ operand => exact expr c operand
  | binary _ _ left right => exact (expr c left).andThen (expr _ right)
  | call s name args => exact (call name s).andThen (exprs _ args)
  | builtin _ _ args => exact exprs c args
  | cast s target args => exact (typeAt target s).andThen (exprs _ args)
  | ternary _ q t f => exact ((expr c q).andThen (expr _ t)).andThen (expr _ f)

theorem exprs (c : Collector) (es : List Expr) :
    Walks c (c.exprs es) [] (Expr.referencesList es) := by
  cases es with
  | nil => exact .refl _
  | cons e rest => exact (expr c e).andThen (exprs _ rest)

end

theorem optionExpr (c : Collector) (e : Option Expr) :
    Walks c (c.optionExpr e) [] (Expr.referencesOption e) := by
  cases e with
  | none => exact .refl _
  | some e => exact expr c e

/-- A fold whose steps bind nothing. -/
theorem foldl {α : Type} {step : Collector → α → Collector} {names : α → List String}
    (h : ∀ c a, Walks c (step c a) [] (names a)) (c : Collector) (as : List α) :
    Walks c (as.foldl step c) [] (as.flatMap names) := by
  induction as generalizing c with
  | nil => exact .refl _
  | cons a as ih => exact (h c a).andThen (ih _)

/-- A fold over types alone. -/
theorem foldl_types {α : Type} {step : Collector → α → Collector}
    (h : ∀ c a, Walks c (step c a) [] []) (c : Collector) (as : List α) :
    Walks c (as.foldl step c) [] [] := by
  have hfold := foldl h c as
  rwa [List.flatMap_eq_nil_iff.mpr fun _ _ => rfl] at hfold

/-- A declared name is bound from there on, in the innermost scope. -/
theorem declare (hc : c.scopes ≠ []) (name : String) : Walks c (c.declare name) [name] [] := by
  obtain ⟨scope, rest, hscopes⟩ := List.exists_cons_of_ne_nil hc
  have hdeclare : c.declare name = { c with scopes := (name :: scope) :: rest } := by
    rw [Collector.declare, hscopes]
  rw [hdeclare]
  constructor
  · exact .of_same rfl rfl rfl
  · rw [hscopes]
    rfl
  · intro _
    exact List.cons_ne_nil _ _
  · intro n
    rw [Collector.isLocal, Collector.isLocal, hscopes]
    simp [or_assoc, or_comm]

/-- Whatever a scope of its own binds, nothing of it is left. -/
theorem inScope {names : List String} (h : Walks (c.pushScope names) c' bound free) :
    Walks c c'.popScope [] (free.filter (· ∉ names)) := by
  apply h.leaveScope.walks
  exact h.outer

/-- A block binds nothing behind it: its own scope is dropped with what it bound. -/
theorem inBlock (hc : c.scopes ≠ []) (work : Collector → Collector)
    (h : Walks (c.pushScope []) (work (c.pushScope [])) bound free) :
    Walks c (c.inBlock work) [] free := by
  have hblock : c.inBlock work = (work (c.pushScope [])).popScope := by
    obtain ⟨scope, rest, hscopes⟩ := List.exists_cons_of_ne_nil hc
    rw [Collector.inBlock, hscopes]
  have hscope := h.inScope
  rw [hblock]
  rwa [filter_notMem_nil] at hscope

/-- A signature mentions types only, and no name is free in it. -/
theorem signature (f : Signature) : Walks c (c.signature f) [] [] := by
  have hparameters : Walks c (f.parameters.foldl (fun c p => c.typeAt p.type p.span) c) [] [] :=
    foldl_types (fun _ p => typeAt p.type p.span) c f.parameters
  exact hparameters.andThen (type f.returnType)

/-- The body of a function stands in the scope of its parameters. -/
theorem function {b : Span} {f : Signature} {body : List Stmt}
    (h : Walks (((c.locateTypes b).signature f).pushScope (f.parameters.map (·.name)))
      ((((c.locateTypes b).signature f).pushScope (f.parameters.map (·.name))).stmts body)
      bound free) :
    Walks c (c.stmt (.function b f body)) [] (free.filter (· ∉ f.parameters.map (·.name))) := by
  have hplace : Walks c (c.locateTypes b) [] [] := locateTypes b
  have hsignature : Walks c ((c.locateTypes b).signature f) [] [] :=
    hplace.andThen (signature f)
  exact hsignature.andThen h.inScope

end Walks

theorem pushScope_ne_nil (c : Collector) (names : List String) : (c.pushScope names).scopes ≠ [] :=
  List.cons_ne_nil _ _

theorem spilledArms_eq (arms : List (Expr × Stmt)) :
    Stmt.spilledArms arms = arms.flatMap (Scoping.collected.afterBody ·.2) := by
  induction arms with
  | nil => rfl
  | cons arm arms ih => rw [Stmt.spilledArms, ih, List.flatMap_cons, Scoping.afterBody]

theorem spilledOption_eq (s : Option Stmt) :
    Stmt.spilledOption s = s.toList.flatMap Scoping.collected.after := by
  cases s with
  | none => rfl
  | some s => rw [Stmt.spilledOption, Option.toList_some, List.flatMap_singleton, Scoping.after]

mutual

/-- In a function, a collector finds the free variables of a statement and is left with the
names that it spills. -/
theorem walks_stmt (c : Collector) (hc : c.scopes ≠ []) (s : Stmt) :
    Walks c (c.stmt s) s.spilled (s.free .collected) := by
  have hplace : Walks c (c.locateTypes s.span) [] [] := .locateTypes s.span
  have hopen : (c.locateTypes s.span).scopes ≠ [] := hc
  cases s with
  | branch b arms otherwise =>
      have harms := walks_arms _ hopen arms
      have hotherwise := walks_optionStmt _ (harms.opened hopen) otherwise
      rw [Stmt.free, ← spilledArms_eq]
      exact hplace.andThen (harms.trans hotherwise)
  | forLoop b init condition step body =>
      have hinner := pushScope_ne_nil (c.locateTypes b) []
      have hinit := walks_optionStmt _ hinner init
      have hcondition :=
        Walks.optionExpr (((c.locateTypes b).pushScope []).optionStmt init) condition
      have hstep := hcondition.andThen (.optionExpr _ step)
      have hbody := hstep.andThen (walks_stmt _ (hstep.opened (hinit.opened hinner)) body)
      rw [Stmt.free, ← spilledOption_eq]
      apply hplace.andThen
      exact Walks.inBlock hopen
        (fun c => (((c.optionStmt init).optionExpr condition).optionExpr step).stmt body)
        (hinit.trans hbody)
  | whileLoop b condition body =>
      have hcondition := hplace.andThen (.expr _ condition)
      exact hcondition.andThen (walks_stmt _ (hcondition.opened hc) body)
  | doWhile b body condition =>
      have hcondition := hplace.andThen (.expr _ condition)
      exact hcondition.andThen (walks_stmt _ (hcondition.opened hc) body)
  | var b d =>
      have htype := hplace.andThen (.type d.type)
      have hinitializer := htype.andThen (.optionExpr _ d.initializer)
      have hdeclare := hinitializer.andThen (.declare (hinitializer.opened hc) d.name)
      rwa [List.append_nil] at hdeclare
  | options b ds =>
      have hentry (c : Collector) (d : OptionDeclaration) :
          Walks c ((c.type d.type).optionExpr d.default) [] (Expr.referencesOption d.default) :=
        (Walks.type d.type).andThen (.optionExpr _ d.default)
      exact hplace.andThen (.foldl hentry _ ds)
  | consts b ds =>
      have hentry (c : Collector) (d : ConstDeclaration) :
          Walks c ((c.type d.type).expr d.value) [] d.value.references :=
        (Walks.type d.type).andThen (.expr _ d.value)
      exact hplace.andThen (.foldl hentry _ ds)
  | struct b d => exact hplace.andThen (.foldl_types (fun _ f => .type f.type) _ d.fields)
  | inputs b vs => exact hplace.andThen (.foldl_types (fun _ v => .type v.type) _ vs)
  | outputs b vs => exact hplace.andThen (.foldl_types (fun _ v => .type v.type) _ vs)
  | externals b vs => exact hplace.andThen (.foldl_types (fun _ v => .type v.type) _ vs)
  | function b f body =>
      apply Walks.function
      exact walks_stmts _ (pushScope_ne_nil _ _) body
  | expr b e => exact hplace.andThen (.expr _ e)
  | ret b value => exact hplace.andThen (.optionExpr _ value)
  | leaveLoop b => exact hplace
  | nextRound b => exact hplace
  | discard b => exact hplace
  | library b path => exact hplace
  | block b items =>
      have hitems := walks_stmts _ (pushScope_ne_nil (c.locateTypes b) []) items
      apply hplace.andThen
      exact Walks.inBlock hopen (fun c => c.stmts items) hitems
  | optional b condition body otherwise =>
      have hcondition := hplace.andThen (.expr _ condition)
      have hbody := hcondition.andThen (walks_stmt _ (hcondition.opened hc) body)
      exact hbody.trans (walks_optionStmt _ (hbody.opened hc) otherwise)

theorem walks_stmts (c : Collector) (hc : c.scopes ≠ []) (ss : List Stmt) :
    Walks c (c.stmts ss) (ss.flatMap Scoping.collected.after) (Stmt.freeList .collected ss) := by
  cases ss with
  | nil => exact .refl _
  | cons s rest =>
      have hs := walks_stmt c hc s
      exact hs.trans (walks_stmts _ (hs.opened hc) rest)

theorem walks_arms (c : Collector) (hc : c.scopes ≠ []) (arms : List (Expr × Stmt)) :
    Walks c (c.arms arms) (Stmt.spilledArms arms) (Stmt.freeArms .collected arms) := by
  match arms with
  | [] => exact .refl _
  | (e, s) :: rest =>
      have he := Walks.expr c e
      have hs := he.andThen (walks_stmt _ (he.opened hc) s)
      exact hs.trans (walks_arms _ (hs.opened hc) rest)

theorem walks_optionStmt (c : Collector) (hc : c.scopes ≠ []) (s : Option Stmt) :
    Walks c (c.optionStmt s) (Stmt.spilledOption s) (Stmt.freeOption .collected s) := by
  cases s with
  | none => exact .refl _
  | some s => exact walks_stmt c hc s

end

end Collector

namespace Stmt

/-- Whether the statement is a bare variable declaration. -/
def isVar : Stmt → Bool
  | .var _ _ => true
  | _ => false

mutual

/-- No body of an `if`, `else`, `while`, `do` or `optional` is a bare declaration. -/
def Braced : Stmt → Prop
  | .branch _ arms otherwise => bracedArms arms ∧ bracedBody otherwise
  | .forLoop _ init _ _ body => bracedOption init ∧ body.Braced
  | .whileLoop _ _ body | .doWhile _ body _ => body.isVar = false ∧ body.Braced
  | .function _ _ body => bracedList body
  | .block _ items => bracedList items
  | .optional _ _ body otherwise => (body.isVar = false ∧ body.Braced) ∧ bracedBody otherwise
  | _ => True

def bracedList : List Stmt → Prop
  | [] => True
  | s :: ss => s.Braced ∧ bracedList ss

def bracedArms : List (Expr × Stmt) → Prop
  | [] => True
  | (_, s) :: rest => (s.isVar = false ∧ s.Braced) ∧ bracedArms rest

def bracedBody : Option Stmt → Prop
  | none => True
  | some s => s.isVar = false ∧ s.Braced

def bracedOption : Option Stmt → Prop
  | none => True
  | some s => s.Braced

end

mutual

/-- Without bare declarations as bodies, declarations alone bind names for what follows. -/
theorem spilled_of_braced (s : Stmt) (h : s.Braced) (hvar : s.isVar = false) : s.spilled = [] := by
  cases s with
  | branch b arms otherwise =>
      rw [spilled, spilledArms_of_braced arms h.1, spilledOption_of_braced otherwise h.2]
      rfl
  | whileLoop b condition body => exact spilled_of_braced body h.2 h.1
  | doWhile b body condition => exact spilled_of_braced body h.2 h.1
  | optional b condition body otherwise =>
      rw [spilled, spilled_of_braced body h.1.2 h.1.1, spilledOption_of_braced otherwise h.2]
      rfl
  | var b d => cases hvar
  | _ => rfl

theorem spilledArms_of_braced (arms : List (Expr × Stmt)) (h : bracedArms arms) :
    spilledArms arms = [] := by
  match arms with
  | [] => rfl
  | (c, s) :: rest =>
      rw [spilledArms, spilled_of_braced s h.1.2 h.1.1, spilledArms_of_braced rest h.2]
      rfl

theorem spilledOption_of_braced (s : Option Stmt) (h : bracedBody s) : spilledOption s = [] := by
  cases s with
  | none => rfl
  | some s => exact spilled_of_braced s h.2 h.1

end

end Stmt

namespace Scoping

/-- Where every body stands in braces, the collector and lexical scoping bind the same names behind
a statement. -/
theorem after_of_braced {s : Stmt} (h : s.Braced) : collected.after s = lexical.after s := by
  cases hvar : s.isVar with
  | true =>
      cases s with
      | var b d => rfl
      | _ => cases hvar
  | false =>
      have hspilled := s.spilled_of_braced h hvar
      cases s with
      | var b d => cases hvar
      | _ => exact hspilled

end Scoping

namespace Stmt

/-- The alternative of a branch comes after the bodies before it. -/
theorem flatMap_afterBody_lexical (arms : List (Expr × Stmt)) :
    arms.flatMap (Scoping.lexical.afterBody ·.2) = [] :=
  List.flatMap_eq_nil_iff.mpr fun _ _ => rfl

theorem bracedOption_of_bracedBody {s : Option Stmt} (h : bracedBody s) : bracedOption s := by
  cases s with
  | none => trivial
  | some s => exact h.2

mutual

/-- Where no body is a bare declaration, the collector finds the lexical free variables. -/
theorem free_of_braced (s : Stmt) (h : s.Braced) : s.free .collected = s.free .lexical := by
  cases s with
  | branch b arms otherwise =>
      have hotherwise := bracedOption_of_bracedBody h.2
      rw [free, free, freeArms_of_braced arms h.1, freeOption_of_braced otherwise hotherwise,
        flatMap_afterBody_lexical, ← Collector.spilledArms_eq, spilledArms_of_braced arms h.1]
  | forLoop b init condition step body =>
      have hinit : init.toList.flatMap Scoping.collected.after =
          init.toList.flatMap Scoping.lexical.after := by
        cases init with
        | none => rfl
        | some s =>
            rw [Option.toList_some, List.flatMap_singleton, List.flatMap_singleton,
              Scoping.after_of_braced h.1]
      rw [free, free, freeOption_of_braced init h.1, free_of_braced body h.2, hinit]
  | whileLoop b condition body => rw [free, free, free_of_braced body h.2]
  | doWhile b body condition => rw [free, free, free_of_braced body h.2]
  | function b f body => rw [free, free, freeList_of_braced body h]
  | block b items => exact freeList_of_braced items h
  | optional b condition body otherwise =>
      have hotherwise := bracedOption_of_bracedBody h.2
      rw [free, free, free_of_braced body h.1.2, freeOption_of_braced otherwise hotherwise,
        Scoping.afterBody, Scoping.afterBody, spilled_of_braced body h.1.2 h.1.1]
  | _ => rfl

theorem freeList_of_braced (ss : List Stmt) (h : bracedList ss) :
    freeList .collected ss = freeList .lexical ss := by
  cases ss with
  | nil => rfl
  | cons s rest =>
      rw [freeList, freeList, free_of_braced s h.1, freeList_of_braced rest h.2,
        Scoping.after_of_braced h.1]

theorem freeArms_of_braced (arms : List (Expr × Stmt)) (h : bracedArms arms) :
    freeArms .collected arms = freeArms .lexical arms := by
  match arms with
  | [] => rfl
  | (c, s) :: rest =>
      rw [freeArms, freeArms, free_of_braced s h.1.2, freeArms_of_braced rest h.2,
        Scoping.afterBody, Scoping.afterBody, spilled_of_braced s h.1.2 h.1.1]

theorem freeOption_of_braced (s : Option Stmt) (h : bracedOption s) :
    freeOption .collected s = freeOption .lexical s := by
  cases s with
  | none => rfl
  | some s => exact free_of_braced s h

end

section Subset

variable {ns ns' ms ms' : List String}

theorem append_subset_append (hn : ns ⊆ ns') (hm : ms ⊆ ms') : ns ++ ms ⊆ ns' ++ ms' := by
  apply List.append_subset.mpr
  constructor
  · exact List.subset_append_of_subset_left _ hn
  · exact List.subset_append_of_subset_right _ hm

/-- Fewer names are left where more are hidden. -/
theorem filter_notMem_subset {hidden hidden' : List String} (h : ns ⊆ ns')
    (hhidden : hidden' ⊆ hidden) : ns.filter (· ∉ hidden) ⊆ ns'.filter (· ∉ hidden') := by
  intro n hn
  simp only [List.mem_filter, decide_eq_true_eq] at hn ⊢
  constructor
  · exact h hn.1
  · intro hmem
    exact hn.2 (hhidden hmem)

/-- What is bound lexically behind a statement the collector binds there too. -/
theorem after_lexical_subset (s : Stmt) :
    Scoping.lexical.after s ⊆ Scoping.collected.after s := by
  cases s with
  | var b d => exact List.Subset.refl _
  | _ => exact List.nil_subset _

mutual

/-- The collector finds no name that is bound where it stands. -/
theorem free_subset (s : Stmt) : s.free .collected ⊆ s.free .lexical := by
  cases s with
  | branch b arms otherwise =>
      apply append_subset_append (freeArms_subset arms)
      apply filter_notMem_subset (freeOption_subset otherwise)
      rw [flatMap_afterBody_lexical]
      exact List.nil_subset _
  | forLoop b init condition step body =>
      apply append_subset_append (freeOption_subset init)
      apply filter_notMem_subset
      · exact append_subset_append (List.Subset.refl _) (free_subset body)
      · cases init with
        | none => exact List.Subset.refl _
        | some s =>
            rw [Option.toList_some, List.flatMap_singleton, List.flatMap_singleton]
            exact after_lexical_subset s
  | whileLoop b condition body =>
      exact append_subset_append (List.Subset.refl _) (free_subset body)
  | doWhile b body condition =>
      exact append_subset_append (List.Subset.refl _) (free_subset body)
  | function b f body => exact filter_notMem_subset (freeList_subset body) (List.Subset.refl _)
  | block b items => exact freeList_subset items
  | optional b condition body otherwise =>
      apply append_subset_append
      · exact append_subset_append (List.Subset.refl _) (free_subset body)
      · exact filter_notMem_subset (freeOption_subset otherwise) (List.nil_subset _)
  | _ => exact List.Subset.refl _

theorem freeList_subset (ss : List Stmt) : freeList .collected ss ⊆ freeList .lexical ss := by
  cases ss with
  | nil => exact List.Subset.refl _
  | cons s rest =>
      apply append_subset_append (free_subset s)
      exact filter_notMem_subset (freeList_subset rest) (after_lexical_subset s)

theorem freeArms_subset (arms : List (Expr × Stmt)) :
    freeArms .collected arms ⊆ freeArms .lexical arms := by
  match arms with
  | [] => exact List.Subset.refl _
  | (c, s) :: rest =>
      apply append_subset_append
      · exact append_subset_append (List.Subset.refl _) (free_subset s)
      · exact filter_notMem_subset (freeArms_subset rest) (List.nil_subset _)

theorem freeOption_subset (s : Option Stmt) :
    freeOption .collected s ⊆ freeOption .lexical s := by
  cases s with
  | none => exact List.Subset.refl _
  | some s => exact free_subset s

end

end Subset

end Stmt

namespace Collector

/-- A new collector has found nothing yet, in order. -/
theorem sorted_new (externals : List String) : (Collector.new externals).Sorted := by
  constructor
  · intro n hn
    cases hn
  · intro n hn
    cases hn

/-- The variables and the externals that a collector finds in a function are its free
variables, as far as the collector's scopes tell them. These are lexical ones, and all of them
if no body of an `if`, `else`, `while` or `do` is a bare declaration. -/
theorem collects_free (externals : List String) (b : Span) (f : Signature) (body : List Stmt) :
    (∀ n, n ∈ ((Collector.new externals).stmt (.function b f body)).found.values.names ↔
      n ∉ externals ∧ n ∈ (Stmt.function b f body).free .collected) ∧
    (∀ n, n ∈ ((Collector.new externals).stmt (.function b f body)).found.externals.names ↔
      n ∈ externals ∧ n ∈ (Stmt.function b f body).free .collected) ∧
    (Stmt.function b f body).free .collected ⊆ (Stmt.function b f body).free .lexical ∧
    ((Stmt.function b f body).Braced →
      (Stmt.function b f body).free .collected = (Stmt.function b f body).free .lexical) := by
  have hfinds : Finds (Collector.new externals)
      ((Collector.new externals).stmt (.function b f body))
      ((Stmt.function b f body).free .collected) :=
    (Walks.function (walks_stmts _ (pushScope_ne_nil _ _) body)).toFinds
  have hsorted := hfinds.sorted (sorted_new externals)
  have hmentioned (n : String) :
      n ∈ ((Collector.new externals).stmt (.function b f body)).mentioned ↔
        n ∈ (Stmt.function b f body).free .collected := by
    rw [hfinds.mentioned]
    simp [Collector.mentioned, Collector.new, Dependencies.empty, Uses.names, Collector.isLocal]
  rw [Sorted, hfinds.externals] at hsorted
  simp only [Collector.mentioned, List.mem_append] at hmentioned
  refine ⟨?_, ?_, Stmt.free_subset _, Stmt.free_of_braced _⟩
  · intro n
    rw [← hmentioned]
    constructor
    · intro h
      exact ⟨hsorted.1 n h, .inl h⟩
    · rintro ⟨hn, h | h⟩
      · exact h
      · exact absurd (hsorted.2 n h) hn
  · intro n
    rw [← hmentioned]
    constructor
    · intro h
      exact ⟨hsorted.2 n h, .inr h⟩
    · rintro ⟨hn, h | h⟩
      · exact absurd hn (hsorted.1 n h)
      · exact h

/-- `void f(float a) { if (true) { float b = a; } float c = b; while (e) c; }` -/
def bracedTokens : List Token :=
  [.ident "void", .ident "f", .symbol .lparen, .ident "float", .ident "a", .symbol .rparen,
    .symbol .lbrace, .keyword .if, .symbol .lparen, .keyword .true, .symbol .rparen,
    .symbol .lbrace, .ident "float", .ident "b", .symbol .eq, .ident "a", .symbol .semicolon,
    .symbol .rbrace, .ident "float", .ident "c", .symbol .eq, .ident "b", .symbol .semicolon,
    .keyword .while, .symbol .lparen, .ident "e", .symbol .rparen, .ident "c",
    .symbol .semicolon, .symbol .rbrace, .eof].map fun k => ⟨k, Span.dummy, Position.nowhere⟩

/-- The theorem of the braced bodies applies to a function that the parser reads. -/
theorem braced_collects :
    ∃ b place f body, parseTokens bracedTokens Registry.standard =
        .ok (.block b [.function place f body]) ∧
      (Stmt.function place f body).Braced ∧
      (Stmt.function place f body).free .lexical = ["b", "e"] ∧
      (Stmt.function place f body).free .collected = (Stmt.function place f body).free .lexical ∧
      (∀ n, n ∈ ((Collector.new ["e"]).stmt (.function place f body)).found.values.names ↔
        n ∉ ["e"] ∧ n ∈ (Stmt.function place f body).free .collected) ∧
      ∀ n, n ∈ ((Collector.new ["e"]).stmt (.function place f body)).found.externals.names ↔
        n ∈ ["e"] ∧ n ∈ (Stmt.function place f body).free .collected := by
  obtain ⟨b, place, f, body, hparse, hbraced, hfree⟩ :
      ∃ b place f body, parseTokens bracedTokens Registry.standard =
          .ok (.block b [.function place f body]) ∧
        (Stmt.function place f body).Braced ∧
        (Stmt.function place f body).free .lexical = ["b", "e"] :=
    ⟨_, _, _, _, rfl, by simp [Stmt.Braced, Stmt.bracedList, Stmt.bracedArms, Stmt.bracedBody,
      Stmt.isVar], rfl⟩
  obtain ⟨hvalues, hexternals, -, hlexical⟩ := collects_free ["e"] place f body
  exact ⟨b, place, f, body, hparse, hbraced, hfree, hlexical hbraced, hvalues, hexternals⟩

/-- `void f() { if (true) float b = 2.0; float c = b; }` -/
def spilledTokens : List Token :=
  [.ident "void", .ident "f", .symbol .lparen, .symbol .rparen, .symbol .lbrace, .keyword .if,
    .symbol .lparen, .keyword .true, .symbol .rparen, .ident "float", .ident "b", .symbol .eq,
    .float ⟨1073741824⟩, .symbol .semicolon, .ident "float", .ident "c", .symbol .eq,
    .ident "b", .symbol .semicolon, .symbol .rbrace, .eof].map
    fun k => ⟨k, Span.dummy, Position.nowhere⟩

/-- The second declaration refers to a variable outside of the function, which the collector
does not find. -/
theorem spilled_uncollected :
    ∃ b place f body, parseTokens spilledTokens Registry.standard =
        .ok (.block b [.function place f body]) ∧
      (Stmt.function place f body).free .lexical = ["b"] ∧
      ((Collector.new []).stmt (.function place f body)).found.values.names = [] :=
  ⟨_, _, _, _, rfl, rfl, rfl⟩

end Collector

end Shading
