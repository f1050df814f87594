import Shading.Proofs.Options.Runs
import Shading.Proofs.Syntax.Scopes
import Shading.Syntax.Edit

/-!
# Specialization in two passes

A permutation may be chosen in two passes that know nothing of each other. The first one
resolves the optional blocks of every list and leaves all expressions alone. The second
one puts option values in the place of references, and meets no optional block.
-/

namespace Shading

namespace Stmt

/-- The statements of an optional part. -/
def itemsOption : Option Stmt → List Stmt
  | none => []
  | some s => s.items

/-- The items of a statement are at most a little larger than it, which the measure of the passes
allows for. -/
theorem sizeOf_items_le (s : Stmt) : sizeOf s.items ≤ sizeOf s + 2 := by
  cases s with
  | block _ ss =>
      simp only [Stmt.items, block.sizeOf_spec]
      omega
  | _ =>
      simp only [Stmt.items, List.cons.sizeOf_spec, List.nil.sizeOf_spec]
      omega

theorem sizeOf_body_lt (b : Span) (condition : Expr) (body : Stmt) (otherwise : Option Stmt) :
    4 * sizeOf body.items < 4 * sizeOf (Stmt.optional b condition body otherwise) + 1 := by
  have hbody := body.sizeOf_items_le
  have hother : 0 < sizeOf otherwise := by
    cases otherwise with
    | none => simp
    | some s =>
        rw [Option.some.sizeOf_spec]
        omega
  rw [optional.sizeOf_spec]
  omega

theorem sizeOf_otherwise_lt (b : Span) (condition : Expr) (body : Stmt)
    (otherwise : Option Stmt) :
    4 * sizeOf (itemsOption otherwise) <
      4 * sizeOf (Stmt.optional b condition body otherwise) + 1 := by
  have hother : sizeOf (itemsOption otherwise) ≤ sizeOf otherwise + 1 := by
    cases otherwise with
    | none => simp [itemsOption]
    | some s =>
        have h := s.sizeOf_items_le
        rw [itemsOption, Option.some.sizeOf_spec]
        omega
  rw [optional.sizeOf_spec]
  omega

end Stmt

namespace Permutation

mutual

/-- The first pass: resolves the optional blocks of every list in a statement. -/
def resolve (p : Permutation) (s : Stmt) : Except SpecializeError Stmt :=
  match s with
  | .branch b arms otherwise =>
    return .branch b (← p.resolveArms arms) (← p.resolveOption otherwise)
  | .forLoop b init condition step body =>
    return .forLoop b (← p.resolveOption init) condition step (← p.resolve body)
  | .whileLoop b condition body => return .whileLoop b condition (← p.resolve body)
  | .doWhile b body condition => return .doWhile b (← p.resolve body) condition
  | .function b f body => return .function b f (← p.resolveList body)
  | .block b items => return .block b (← p.resolveList items)
  | s => return s
termination_by 4 * sizeOf s
decreasing_by
  all_goals simp +arith

/-- What a statement of a list gives way to. -/
def resolveItem (p : Permutation) (s : Stmt) : Except SpecializeError (List Stmt) :=
  match s with
  | .optional _ condition body otherwise => do
    if ← condition.evaluateCondition p.lookup then p.resolveList body.items
    else p.resolveList (Stmt.itemsOption otherwise)
  | .options b entries => return if p.config.keepOptions then [.options b entries] else []
  | s => return [← p.resolve s]
termination_by 4 * sizeOf s + 1
decreasing_by
  · exact Stmt.sizeOf_body_lt _ _ _ _
  · exact Stmt.sizeOf_otherwise_lt _ _ _ _
  · omega

/-- Resolves the optional blocks of a list, each to any number of statements. -/
def resolveList (p : Permutation) (ss : List Stmt) : Except SpecializeError (List Stmt) :=
  match ss with
  | [] => return []
  | s :: ss => return (← p.resolveItem s) ++ (← p.resolveList ss)
termination_by 4 * sizeOf ss
decreasing_by
  all_goals simp +arith

/-- Resolves the optional blocks in the bodies of arms. -/
def resolveArms (p : Permutation) (arms : List (Expr × Stmt)) :
    Except SpecializeError (List (Expr × Stmt)) :=
  match arms with
  | [] => return []
  | (c, s) :: rest => return (c, ← p.resolve s) :: (← p.resolveArms rest)
termination_by 4 * sizeOf arms
decreasing_by
  all_goals simp +arith

def resolveOption (p : Permutation) (s : Option Stmt) : Except SpecializeError (Option Stmt) :=
  match s with
  | none => return none
  | some s => return some (← p.resolve s)
termination_by 4 * sizeOf s
decreasing_by
  all_goals simp +arith

end

/-- Puts a literal in the place of each reference to an option with a value, unless the
name is bound, and changes nothing else. -/
def literals (p : Permutation) (v : Visible) : Editor SpecializeError where
  keeps _ := true
  replace
    | .ref s n =>
      if v.binds n then .ok none
      else do return (← p.value? n).map (.constant s)
    | _ => .ok none
  type t := .ok t

/-- The second pass on an expression. -/
def substitute (p : Permutation) (v : Visible) (e : Expr) : Except SpecializeError Expr :=
  e.edit (p.literals v)

/-- Both passes over a file. -/
def twoPass (p : Permutation) (tree : Stmt) : Except SpecializeError Stmt := do
  (← p.resolve tree).inScopes p.substitute none

end Permutation

namespace Stmt

mutual

/-- Optional blocks stand in lists only, as the statement itself does if it is `listed`. -/
def InLists (listed : Bool) : Stmt → Prop
  | .branch _ arms otherwise => armsInLists arms ∧ optionInLists otherwise
  | .forLoop _ init _ _ body => optionInLists init ∧ body.InLists false
  | .whileLoop _ _ body | .doWhile _ body _ => body.InLists false
  | .function _ _ items | .block _ items => listInLists items
  | .optional _ _ body otherwise =>
    listed = true ∧ body.InLists true ∧ alternativeInLists otherwise
  | _ => True

def listInLists : List Stmt → Prop
  | [] => True
  | s :: ss => s.InLists true ∧ listInLists ss

def armsInLists : List (Expr × Stmt) → Prop
  | [] => True
  | (_, s) :: rest => s.InLists false ∧ armsInLists rest

def optionInLists : Option Stmt → Prop
  | none => True
  | some s => s.InLists false

def alternativeInLists : Option Stmt → Prop
  | none => True
  | some s => s.InLists true

end

/-- The items of a statement that may stand in a list may stand there too. -/
theorem listInLists_items {s : Stmt} (h : s.InLists true) : listInLists s.items := by
  cases s with
  | block b items => exact h
  | _ => exact ⟨h, trivial⟩

theorem listInLists_itemsOption {s : Option Stmt} (h : alternativeInLists s) :
    listInLists (itemsOption s) := by
  cases s with
  | none => trivial
  | some s => exact listInLists_items h

end Stmt

end Shading
