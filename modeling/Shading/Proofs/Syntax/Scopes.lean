import Mathlib.Tactic.Common
import Shading.Syntax.Stmt

/-!
# Expressions and the names that are bound where they stand

A function body, and a block or a `for` loop in a function, open a scope. A variable is
bound from its declaration, after the initializer, to the end of its scope.
-/

namespace Shading

/-- The names that parameters and local variables bind at a place of a tree; outside of
functions there are none. -/
abbrev Visible := Option (List String)

namespace Visible

/-- Whether the name is bound here. -/
def binds (v : Visible) (n : String) : Bool := v.any (·.contains n)

/-- Binds more names, inside of functions. -/
def add (v : Visible) (names : List String) : Visible := v.map (· ++ names)

theorem add_append (v : Visible) (ns ms : List String) :
    v.add (ns ++ ms) = (v.add ns).add ms := by
  cases v <;> simp [add]

/-- The names in a function with the parameters. -/
def inFunction (v : Visible) (parameters : List String) : Visible :=
  some (v.getD [] ++ parameters)

end Visible

namespace Stmt

mutual

/-- The names that a statement binds for those after it. Blocks, `for` loops and functions
keep theirs to themselves. -/
def locals : Stmt → List String
  | .var _ d => [d.name]
  | .branch _ arms otherwise => localsArms arms ++ localsOption otherwise
  | .whileLoop _ _ body | .doWhile _ body _ => body.locals
  | _ => []

def localsArms : List (Expr × Stmt) → List String
  | [] => []
  | (_, s) :: rest => s.locals ++ localsArms rest

def localsOption : Option Stmt → List String
  | none => []
  | some s => s.locals

end

/-- The names that the statements of a list bind for those after them. -/
def localsList (ss : List Stmt) : List String := ss.flatMap locals

theorem localsList_append (ss ts : List Stmt) :
    localsList (ss ++ ts) = localsList ss ++ localsList ts :=
  List.flatMap_append

section Walk

variable {m : Type → Type} [Monad m]

mutual

/-- Works on every expression of a statement, with the names that are bound there, and keeps
all else. -/
def inScopes (f : Visible → Expr → m Expr) (v : Visible) : Stmt → m Stmt
  | .branch b arms otherwise =>
    return .branch b (← inScopesArms f v arms)
      (← inScopesOption f (v.add (localsArms arms)) otherwise)
  | .forLoop b init condition step body => do
    let init' ← inScopesOption f v init
    let inner := v.add (localsOption init)
    return .forLoop b init' (← condition.mapM (f inner)) (← step.mapM (f inner))
      (← body.inScopes f inner)
  | .whileLoop b condition body => return .whileLoop b (← f v condition) (← body.inScopes f v)
  | .doWhile b body condition =>
    return .doWhile b (← body.inScopes f v) (← f (v.add body.locals) condition)
  | .var b d => return .var b { d with initializer := ← d.initializer.mapM (f v) }
  | .options b entries =>
    return .options b (← entries.mapM fun d => return { d with default := ← d.default.mapM (f v) })
  | .consts b entries =>
    return .consts b (← entries.mapM fun d => return { d with value := ← f v d.value })
  | .function b g body =>
    return .function b g (← inScopesList f (v.inFunction (g.parameters.map (·.name))) body)
  | .expr b e => return .expr b (← f v e)
  | .ret b value => return .ret b (← value.mapM (f v))
  | .block b items => return .block b (← inScopesList f v items)
  | .optional b condition body otherwise =>
    return .optional b (← f v condition) (← body.inScopes f v) (← inScopesOption f v otherwise)
  | s => return s

/-- A map over the statements of a list, each in the names bound before it. -/
def inScopesList (f : Visible → Expr → m Expr) (v : Visible) : List Stmt → m (List Stmt)
  | [] => return []
  | s :: ss => return (← s.inScopes f v) :: (← inScopesList f (v.add s.locals) ss)

def inScopesArms (f : Visible → Expr → m Expr) (v : Visible) :
    List (Expr × Stmt) → m (List (Expr × Stmt))
  | [] => return []
  | (c, s) :: rest => do
    let c ← f v c
    let s' ← s.inScopes f v
    return (c, s') :: (← inScopesArms f (v.add s.locals) rest)

def inScopesOption (f : Visible → Expr → m Expr) (v : Visible) : Option Stmt → m (Option Stmt)
  | none => return none
  | some s => return some (← s.inScopes f v)

end

theorem inScopesList_append [LawfulMonad m] (f : Visible → Expr → m Expr) (v : Visible)
    (ss ts : List Stmt) :
    inScopesList f v (ss ++ ts) = (do
      let us ← inScopesList f v ss
      return us ++ (← inScopesList f (v.add (localsList ss)) ts)) := by
  induction ss generalizing v with
  | nil =>
      have hnone : v.add [] = v := by cases v <;> simp [Visible.add]
      simp [inScopesList, localsList, hnone]
  | cons s rest ih =>
      simp only [List.cons_append, inScopesList, ih, bind_assoc, pure_bind, localsList,
        List.flatMap_cons, Visible.add_append]

end Walk

end Stmt

end Shading
