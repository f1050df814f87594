import Shading.Syntax.Stmt

/-!
# Building a changed copy

A copy is built node by node.  An editor may drop statements from lists, put another
expression in place of one, replace a type, or fail; the editor that does none of this
copies the tree.
-/

namespace Shading

/-- What happens to the nodes of a tree while it is copied. -/
structure Editor (ε : Type) where
  /-- Whether a statement of a block or a function body stays. -/
  keeps : Stmt → Bool
  /-- An expression to put in place of one; `none` copies it part by part. -/
  replace : Expr → Except ε (Option Expr)
  type : Ty → Except ε Ty

variable {ε : Type}

namespace Editor

/-- Copies every node as it is. -/
def copy : Editor ε where
  keeps _ := true
  replace _ := .ok none
  type t := .ok t

end Editor

namespace Expr

mutual

/-- Rebuilds an expression from its edited parts, unless the editor replaces it. -/
def edit (ed : Editor ε) (e : Expr) : Except ε Expr :=
  match e with
  | .constant s v => return (← ed.replace (.constant s v)).getD (.constant s v)
  | .ref s n => return (← ed.replace (.ref s n)).getD (.ref s n)
  | .index s base place => do
    match ← ed.replace (.index s base place) with
    | some e => return e
    | none => return .index s (← base.edit ed) (← place.edit ed)
  | .field s base n => do
    match ← ed.replace (.field s base n) with
    | some e => return e
    | none => return .field s (← base.edit ed) n
  | .assign s op target value => do
    match ← ed.replace (.assign s op target value) with
    | some e => return e
    | none => return .assign s op (← target.edit ed) (← value.edit ed)
  | .unary s op operand => do
    match ← ed.replace (.unary s op operand) with
    | some e => return e
    | none => return .unary s op (← operand.edit ed)
  | .binary s op left right => do
    match ← ed.replace (.binary s op left right) with
    | some e => return e
    | none => return .binary s op (← left.edit ed) (← right.edit ed)
  | .call s n args => do
    match ← ed.replace (.call s n args) with
    | some e => return e
    | none => return .call s n (← editList ed args)
  | .builtin s f args => do
    match ← ed.replace (.builtin s f args) with
    | some e => return e
    | none => return .builtin s f (← editList ed args)
  | .cast s target args => do
    match ← ed.replace (.cast s target args) with
    | some e => return e
    | none => return .cast s (← ed.type target) (← editList ed args)
  | .swizzle s base selection => do
    match ← ed.replace (.swizzle s base selection) with
    | some e => return e
    | none => return .swizzle s (← base.edit ed) selection
  | .ternary s c t f => do
    match ← ed.replace (.ternary s c t f) with
    | some e => return e
    | none => return .ternary s (← c.edit ed) (← t.edit ed) (← f.edit ed)

def editList (ed : Editor ε) : List Expr → Except ε (List Expr)
  | [] => return []
  | e :: es => return (← e.edit ed) :: (← editList ed es)

end

def editOption (ed : Editor ε) : Option Expr → Except ε (Option Expr)
  | none => return none
  | some e => return some (← e.edit ed)

end Expr

namespace Editor

/-- Edits the type of a field. -/
def structField (ed : Editor ε) (f : StructField) : Except ε StructField :=
  return { f with type := ← ed.type f.type }

/-- Edits the type of a variable. -/
def interfaceVariable (ed : Editor ε) (v : InterfaceVariable) : Except ε InterfaceVariable :=
  return { v with type := ← ed.type v.type }

/-- Edits the type of a variable. -/
def externalVariable (ed : Editor ε) (v : ExternalVariable) : Except ε ExternalVariable :=
  return { v with type := ← ed.type v.type }

/-- Edits the type of an option and then its default. -/
def optionDeclaration (ed : Editor ε) (d : OptionDeclaration) : Except ε OptionDeclaration := do
  let type ← ed.type d.type
  return { d with type, default := ← Expr.editOption ed d.default }

/-- Edits the type of a constant and then its value. -/
def constDeclaration (ed : Editor ε) (d : ConstDeclaration) : Except ε ConstDeclaration := do
  let type ← ed.type d.type
  return { d with type, value := ← d.value.edit ed }

/-- Edits the type of a parameter. -/
def parameter (ed : Editor ε) (p : Parameter) : Except ε Parameter :=
  return { p with type := ← ed.type p.type }

/-- Edits the types of the parameters and then the type of the result. -/
def signature (ed : Editor ε) (f : Signature) : Except ε Signature := do
  let parameters ← f.parameters.mapM ed.parameter
  return { f with parameters, returnType := ← ed.type f.returnType }

end Editor

namespace Stmt

mutual

/-- Rebuilds a statement from its edited parts, in source order. -/
def edit (ed : Editor ε) : Stmt → Except ε Stmt
  | .branch s arms otherwise => return .branch s (← editArms ed arms) (← editOption ed otherwise)
  | .forLoop s init condition step body =>
    return .forLoop s (← editOption ed init) (← Expr.editOption ed condition)
      (← Expr.editOption ed step) (← body.edit ed)
  | .whileLoop s condition body => return .whileLoop s (← condition.edit ed) (← body.edit ed)
  | .doWhile s body condition => return .doWhile s (← body.edit ed) (← condition.edit ed)
  | .var s d => do
    let type ← ed.type d.type
    return .var s { d with type, initializer := ← Expr.editOption ed d.initializer }
  | .struct s d => return .struct s { d with fields := ← d.fields.mapM ed.structField }
  | .inputs s entries => return .inputs s (← entries.mapM ed.interfaceVariable)
  | .outputs s entries => return .outputs s (← entries.mapM ed.interfaceVariable)
  | .externals s entries => return .externals s (← entries.mapM ed.externalVariable)
  | .options s entries => return .options s (← entries.mapM ed.optionDeclaration)
  | .consts s entries => return .consts s (← entries.mapM ed.constDeclaration)
  | .function s f body => return .function s (← ed.signature f) (← editList ed body)
  | .expr s e => return .expr s (← e.edit ed)
  | .leaveLoop s => return .leaveLoop s
  | .nextRound s => return .nextRound s
  | .ret s value => return .ret s (← Expr.editOption ed value)
  | .discard s => return .discard s
  | .block s items => return .block s (← editList ed items)
  | .optional s condition body otherwise =>
    return .optional s (← condition.edit ed) (← body.edit ed) (← editOption ed otherwise)
  | .library s path => return .library s path

/-- The statements of a block or a body that stay, each of them edited. -/
def editList (ed : Editor ε) : List Stmt → Except ε (List Stmt)
  | [] => return []
  | s :: ss => do
    if ed.keeps s then return (← s.edit ed) :: (← editList ed ss)
    else editList ed ss

def editArms (ed : Editor ε) : List (Expr × Stmt) → Except ε (List (Expr × Stmt))
  | [] => return []
  | (c, s) :: rest => do
    let c ← c.edit ed
    let s ← s.edit ed
    return (c, s) :: (← editArms ed rest)

def editOption (ed : Editor ε) : Option Stmt → Except ε (Option Stmt)
  | none => return none
  | some s => return some (← s.edit ed)

end

/-- A copy that shares nothing with the tree. -/
def copy (s : Stmt) : Stmt :=
  match s.edit (Editor.copy : Editor Empty) with
  | .ok c => c

end Stmt

end Shading
