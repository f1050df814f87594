import Shading.Options.Evaluate
import Shading.Syntax.Node

/-!
# Choosing a permutation

With values for its options a file becomes one permutation.  Every optional block gives
way to the statements of the branch that its condition selects, every reference to an
option with a value becomes that value, unless a parameter or a local variable has the
name, and option blocks are dropped.
-/

namespace Shading

/-- How values are chosen and what is kept. -/
structure SpecializeConfig where
  /-- Options without a bound value take their declared default. -/
  useDefaults : Bool
  /-- Option blocks stay in the tree. -/
  keepOptions : Bool
deriving DecidableEq

/-- The order in which a table of bound values is visited. It depends on how the names are
hashed and on how far the table has grown, so it is not fixed here: any order will do that
visits every entry once and finds under a name what the table has there. -/
structure VisitOrder where
  arrange : List (String × Constant) → List (String × Constant)
  perm : ∀ bound, (arrange bound).Perm bound
  lookup_arrange : ∀ bound name, (arrange bound).lookup name = bound.lookup name

namespace VisitOrder

/-- The last binding first. -/
def newest : VisitOrder := ⟨id, List.Perm.refl, fun _ _ => rfl⟩

theorem mem_arrange {order : VisitOrder} {bound : List (String × Constant)}
    {binding : String × Constant} : binding ∈ order.arrange bound ↔ binding ∈ bound :=
  (order.perm bound).mem_iff

end VisitOrder

/-- Values bound to options, and the order in which they are visited. -/
structure Specializer where
  bound : List (String × Constant)
  config : SpecializeConfig
  order : VisitOrder

namespace Specializer

/-- No option is bound. -/
def new (config : SpecializeConfig) (order : VisitOrder) : Specializer := ⟨[], config, order⟩

/-- Binds an option, in place of an earlier binding. -/
def set (s : Specializer) (name : String) (value : Constant) : Specializer :=
  { s with bound := (name, value) :: s.bound.filter (·.1 ≠ name) }

/-- The value that is bound to an option. -/
def value? (s : Specializer) (name : String) : Option Constant := s.bound.lookup name

/-- Drops every binding. -/
def clear (s : Specializer) : Specializer := { s with bound := [] }

theorem value?_set_self (s : Specializer) (name : String) (value : Constant) :
    (s.set name value).value? name = some value := by
  simp [set, value?]

theorem value?_clear (s : Specializer) (name : String) : s.clear.value? name = none := rfl

end Specializer

namespace OptionDeclaration

/-- The value as the declared type has it; an integer may bind a float option. -/
def coerce (d : OptionDeclaration) (value : Constant) : Except SpecializeError Constant :=
  if d.type = value.type then .ok value
  else
    match d.type, value with
    | .prim .float, .int i => .ok (.float (Binary32.ofInt i.toInt))
    | _, _ => .error (.optionTypeMismatch d.name d.type value.primitive d.span)

end OptionDeclaration

namespace Stmt

/-- Every option declaration of a tree, in reading order. -/
def declaredOptions (s : Stmt) : List OptionDeclaration :=
  s.nodes.flatMap fun
    | .stmt (.options _ entries) => entries
    | _ => []

end Stmt

/-- The values of one permutation. -/
structure Permutation where
  /-- Bound values, as the declarations have them. -/
  bound : List (String × Constant)
  declared : List OptionDeclaration
  config : SpecializeConfig

namespace Permutation

/-- The first declaration of an option. -/
def declaration? (declared : List OptionDeclaration) (name : String) : Option OptionDeclaration :=
  declared.find? (·.name = name)

/-- A bound value as its declaration has it. -/
def coerceBinding (declared : List OptionDeclaration) (binding : String × Constant) :
    Except SpecializeError (String × Constant) :=
  match declaration? declared binding.1 with
  | some d => do return (binding.1, ← d.coerce binding.2)
  | none => .ok binding

/-- The permutation of a tree; every bound value must fit its declaration. The first value that
does not, in the order of the visit, is the one that is reported. -/
def of (s : Specializer) (tree : Stmt) : Except SpecializeError Permutation := do
  let declared := tree.declaredOptions
  let bound ← (s.order.arrange s.bound).mapM (coerceBinding declared)
  return ⟨bound, declared, s.config⟩

/-- Defaults are evaluated without any option. -/
def noOptions (name : String) (span : Span) : Except SpecializeError Constant :=
  .error (.unresolvedOption name span)

/-- The value of an option, if it has one: its bound value or, when defaults are used, its
declared default. -/
def value? (p : Permutation) (name : String) : Except SpecializeError (Option Constant) :=
  match p.bound.lookup name with
  | some value => .ok (some value)
  | none =>
    if p.config.useDefaults then
      match declaration? p.declared name with
      | some d =>
        match d.default with
        | some default => do
          let value ← default.evaluate noOptions
          return some (← d.coerce value)
        | none => .ok none
      | none => .ok none
    else .ok none

/-- The value of an option that must have one. -/
def lookup (p : Permutation) (name : String) (span : Span) : Except SpecializeError Constant := do
  match ← p.value? name with
  | some value => return value
  | none => .error (.unresolvedOption name span)

end Permutation

/-- Names of parameters and local variables, one list per scope, the innermost first. -/
abbrev Scopes := List (List String)

namespace Scopes

/-- Whether some open scope declares the name. -/
def isLocal (scopes : Scopes) (name : String) : Bool := scopes.any (·.contains name)

/-- Adds a name to the innermost scope; outside of functions there is none. -/
def declare (scopes : Scopes) (name : String) : Scopes :=
  match scopes with
  | [] => []
  | scope :: rest => (name :: scope) :: rest

end Scopes

namespace Expr

mutual

/-- Puts option values in the place of references that no local name binds. -/
def specialize (p : Permutation) (scopes : Scopes) : Expr → Except SpecializeError Expr
  | .constant s v => return .constant s v
  | .ref s name =>
    if scopes.isLocal name then return .ref s name
    else do
      match ← p.value? name with
      | some value => return .constant s value
      | none => return .ref s name
  | .index s base place =>
    return .index s (← base.specialize p scopes) (← place.specialize p scopes)
  | .field s base name => return .field s (← base.specialize p scopes) name
  | .assign s op target value =>
    return .assign s op (← target.specialize p scopes) (← value.specialize p scopes)
  | .unary s op operand => return .unary s op (← operand.specialize p scopes)
  | .binary s op left right =>
    return .binary s op (← left.specialize p scopes) (← right.specialize p scopes)
  | .call s name args => return .call s name (← specializeList p scopes args)
  | .builtin s f args => return .builtin s f (← specializeList p scopes args)
  | .cast s target args => return .cast s target (← specializeList p scopes args)
  | .swizzle s base selection => return .swizzle s (← base.specialize p scopes) selection
  | .ternary s c t f =>
    return .ternary s (← c.specialize p scopes) (← t.specialize p scopes)
      (← f.specialize p scopes)

def specializeList (p : Permutation) (scopes : Scopes) :
    List Expr → Except SpecializeError (List Expr)
  | [] => return []
  | e :: es => return (← e.specialize p scopes) :: (← specializeList p scopes es)

end

end Expr

/-- Work that reads and extends the scopes. -/
abbrev Scoped (α : Type) := StateT Scopes (Except SpecializeError) α

namespace Permutation

/-- An expression at the current scopes. -/
def expr (p : Permutation) (e : Expr) : Scoped Expr := fun scopes => do
  return (← e.specialize p scopes, scopes)

def optionExpr (p : Permutation) : Option Expr → Scoped (Option Expr)
  | none => return none
  | some e => return some (← p.expr e)

/-- Works in a scope of its own. -/
def inScope {α : Type} (names : List String) (work : Scoped α) : Scoped α := do
  modify (names :: ·)
  let a ← work
  modify List.tail
  return a

/-- Works in a scope of its own inside of functions; elsewhere there are no scopes. -/
def inBlockScope {α : Type} (work : Scoped α) : Scoped α := do
  match ← get with
  | [] => work
  | _ => inScope [] work

/-- An option keeps its name and type; its default may refer to other options. -/
def optionDeclaration (p : Permutation) (d : OptionDeclaration) : Scoped OptionDeclaration := do
  return { d with default := ← p.optionExpr d.default }

/-- A constant keeps its name and type. -/
def constDeclaration (p : Permutation) (d : ConstDeclaration) : Scoped ConstDeclaration := do
  return { d with value := ← p.expr d.value }

/-- Whether a statement is dropped from lists. -/
def drops (p : Permutation) : Stmt → Bool
  | .options .. => !p.config.keepOptions
  | _ => false

/-- What a statement contributes to a list, once it is specialized: an optional block has
become the block of its selected statements and contributes these. -/
def contribution (source result : Stmt) : List Stmt :=
  match source with
  | .optional .. => result.items
  | _ => [result]

mutual

/-- A statement that stands by itself; an optional block becomes a block. -/
def stmt (p : Permutation) : Stmt → Scoped Stmt
  | .branch s arms otherwise => do
    let arms ← p.arms arms
    return .branch s arms (← p.optionStmt otherwise)
  | .forLoop s init condition step body =>
    inBlockScope do
      let init ← p.optionStmt init
      let condition ← p.optionExpr condition
      let step ← p.optionExpr step
      return .forLoop s init condition step (← p.stmt body)
  | .whileLoop s condition body => do
    let condition ← p.expr condition
    return .whileLoop s condition (← p.stmt body)
  | .doWhile s body condition => do
    let body ← p.stmt body
    return .doWhile s body (← p.expr condition)
  | .var s d => do
    let initializer ← p.optionExpr d.initializer
    modify (·.declare d.name)
    return .var s { d with initializer }
  | .struct s d => return .struct s d
  | .inputs s entries => return .inputs s entries
  | .outputs s entries => return .outputs s entries
  | .externals s entries => return .externals s entries
  | .options s entries => return .options s (← entries.mapM p.optionDeclaration)
  | .consts s entries => return .consts s (← entries.mapM p.constDeclaration)
  | .function s f body => do
    let body ← inScope (f.parameters.map (·.name)) (p.stmts body)
    return .function s f body
  | .expr s e => return .expr s (← p.expr e)
  | .leaveLoop s => return .leaveLoop s
  | .nextRound s => return .nextRound s
  | .ret s value => return .ret s (← p.optionExpr value)
  | .discard s => return .discard s
  | .block s items => do
    let items ← inBlockScope (p.stmts items)
    return .block s items
  | .optional s condition body otherwise => do
    if ← condition.evaluateCondition p.lookup then
      match body with
      | .block _ items => return .block s (← p.stmts items)
      | other =>
        if p.drops other then return .block s []
        else return .block s (contribution other (← p.stmt other))
    else return .block s (← p.alternative otherwise)
  | .library s path => return .library s path

/-- The statements of a list, optional blocks spliced in. -/
def stmts (p : Permutation) : List Stmt → Scoped (List Stmt)
  | [] => return []
  | s :: ss => do
    if p.drops s then p.stmts ss
    else
      let t ← p.stmt s
      return contribution s t ++ (← p.stmts ss)

/-- The arms of a branch, each condition before its statement. -/
def arms (p : Permutation) : List (Expr × Stmt) → Scoped (List (Expr × Stmt))
  | [] => return []
  | (c, s) :: rest => do
    let c ← p.expr c
    let s ← p.stmt s
    return (c, s) :: (← p.arms rest)

def optionStmt (p : Permutation) : Option Stmt → Scoped (Option Stmt)
  | none => return none
  | some s => return some (← p.stmt s)

/-- The statements of an alternative that is selected. -/
def alternative (p : Permutation) : Option Stmt → Scoped (List Stmt)
  | none => return []
  | some s =>
    match s with
    | .block _ items => p.stmts items
    | other => do
      if p.drops other then return []
      else return contribution other (← p.stmt other)

end

end Permutation

namespace Specializer

/-- The permutation of a tree that the bound values choose. -/
def process (s : Specializer) (tree : Stmt) : Except SpecializeError Stmt := do
  let p ← Permutation.of s tree
  let (result, _) ← (p.stmt tree).run []
  return result

end Specializer

end Shading
