import Shading.Syntax.Node

/-!
# Relabelling a tree

One walk over a tree that may replace its spans, its types and the names of its
variables, in reading order, with an effect at each.  A replacement never adds or
removes a node.
-/

namespace Shading

/-- What a walk does at each place. -/
structure Relabeler (m : Type → Type) where
  /-- Runs on every statement, expression and function before anything in it. -/
  enter : Node → m Unit
  span : Span → m Span
  type : Ty → m Ty
  /-- Replaces the name of a reference. -/
  name : String → m String

variable {m : Type → Type} [Monad m]

namespace Expr

mutual

/-- Visits an expression and its parts and rebuilds it with the new labels. -/
def relabel (w : Relabeler m) : Expr → m Expr
  | e@(.constant s v) => do
    w.enter (.expr e)
    return .constant (← w.span s) v
  | e@(.ref s n) => do
    w.enter (.expr e)
    let n ← w.name n
    return .ref (← w.span s) n
  | e@(.index s base place) => do
    w.enter (.expr e)
    return .index (← w.span s) (← base.relabel w) (← place.relabel w)
  | e@(.field s base n) => do
    w.enter (.expr e)
    return .field (← w.span s) (← base.relabel w) n
  | e@(.assign s op target value) => do
    w.enter (.expr e)
    return .assign (← w.span s) op (← target.relabel w) (← value.relabel w)
  | e@(.unary s op operand) => do
    w.enter (.expr e)
    return .unary (← w.span s) op (← operand.relabel w)
  | e@(.binary s op left right) => do
    w.enter (.expr e)
    return .binary (← w.span s) op (← left.relabel w) (← right.relabel w)
  | e@(.call s n args) => do
    w.enter (.expr e)
    return .call (← w.span s) n (← relabelList w args)
  | e@(.builtin s f args) => do
    w.enter (.expr e)
    return .builtin (← w.span s) f (← relabelList w args)
  | e@(.cast s target args) => do
    w.enter (.expr e)
    return .cast (← w.span s) (← w.type target) (← relabelList w args)
  | e@(.swizzle s base selection) => do
    w.enter (.expr e)
    return .swizzle (← w.span s) (← base.relabel w) selection
  | e@(.ternary s c t f) => do
    w.enter (.expr e)
    return .ternary (← w.span s) (← c.relabel w) (← t.relabel w) (← f.relabel w)

def relabelList (w : Relabeler m) : List Expr → m (List Expr)
  | [] => return []
  | e :: es => return (← e.relabel w) :: (← relabelList w es)

end

def relabelOption (w : Relabeler m) : Option Expr → m (Option Expr)
  | none => return none
  | some e => return some (← e.relabel w)

end Expr

namespace Relabeler

/-- Relabels a field, which has no span of its own. -/
def structField (w : Relabeler m) (f : StructField) : m StructField :=
  return { f with type := ← w.type f.type }

/-- Relabels a variable, its span before its type. -/
def interfaceVariable (w : Relabeler m) (v : InterfaceVariable) : m InterfaceVariable :=
  return { v with span := ← w.span v.span, type := ← w.type v.type }

/-- Relabels a variable, its span before its type. -/
def externalVariable (w : Relabeler m) (v : ExternalVariable) : m ExternalVariable :=
  return { v with span := ← w.span v.span, type := ← w.type v.type }

/-- Relabels an option, its span and its type before its default. -/
def optionDeclaration (w : Relabeler m) (d : OptionDeclaration) : m OptionDeclaration := do
  let span ← w.span d.span
  let type ← w.type d.type
  return { d with span, type, default := ← Expr.relabelOption w d.default }

/-- Relabels a constant, its span and its type before its value. -/
def constDeclaration (w : Relabeler m) (d : ConstDeclaration) : m ConstDeclaration := do
  let span ← w.span d.span
  let type ← w.type d.type
  return { d with span, type, value := ← d.value.relabel w }

/-- Relabels a parameter, its span before its type. -/
def parameter (w : Relabeler m) (p : Parameter) : m Parameter := do
  let span ← w.span p.span
  return { p with span, type := ← w.type p.type }

/-- Relabels the parameters and then the type of the result. -/
def signature (w : Relabeler m) (f : Signature) : m Signature := do
  let parameters ← f.parameters.mapM w.parameter
  return { f with parameters, returnType := ← w.type f.returnType }

end Relabeler

namespace Stmt

mutual

/-- Visits a statement and its parts and rebuilds it with the new labels. -/
def relabel (w : Relabeler m) : Stmt → m Stmt
  | s@(.branch p arms otherwise) => do
    w.enter (.stmt s)
    return .branch (← w.span p) (← relabelArms w arms) (← relabelOption w otherwise)
  | s@(.forLoop p init condition step body) => do
    w.enter (.stmt s)
    return .forLoop (← w.span p) (← relabelOption w init) (← Expr.relabelOption w condition)
      (← Expr.relabelOption w step) (← body.relabel w)
  | s@(.whileLoop p condition body) => do
    w.enter (.stmt s)
    return .whileLoop (← w.span p) (← condition.relabel w) (← body.relabel w)
  | s@(.doWhile p body condition) => do
    w.enter (.stmt s)
    let p ← w.span p
    let condition ← condition.relabel w
    return .doWhile p (← body.relabel w) condition
  | s@(.var p d) => do
    w.enter (.stmt s)
    let p ← w.span p
    let type ← w.type d.type
    return .var p { d with type, initializer := ← Expr.relabelOption w d.initializer }
  | s@(.struct p d) => do
    w.enter (.stmt s)
    let p ← w.span p
    return .struct p { d with fields := ← d.fields.mapM w.structField }
  | s@(.inputs p entries) => do
    w.enter (.stmt s)
    return .inputs (← w.span p) (← entries.mapM w.interfaceVariable)
  | s@(.outputs p entries) => do
    w.enter (.stmt s)
    return .outputs (← w.span p) (← entries.mapM w.interfaceVariable)
  | s@(.externals p entries) => do
    w.enter (.stmt s)
    return .externals (← w.span p) (← entries.mapM w.externalVariable)
  | s@(.options p entries) => do
    w.enter (.stmt s)
    return .options (← w.span p) (← entries.mapM w.optionDeclaration)
  | s@(.consts p entries) => do
    w.enter (.stmt s)
    return .consts (← w.span p) (← entries.mapM w.constDeclaration)
  | s@(.function p f body) => do
    w.enter (.stmt s)
    let p ← w.span p
    w.enter (.function f)
    return .function p (← w.signature f) (← relabelList w body)
  | s@(.expr p e) => do
    w.enter (.stmt s)
    return .expr (← w.span p) (← e.relabel w)
  | s@(.leaveLoop p) => do
    w.enter (.stmt s)
    return .leaveLoop (← w.span p)
  | s@(.nextRound p) => do
    w.enter (.stmt s)
    return .nextRound (← w.span p)
  | s@(.ret p value) => do
    w.enter (.stmt s)
    return .ret (← w.span p) (← Expr.relabelOption w value)
  | s@(.discard p) => do
    w.enter (.stmt s)
    return .discard (← w.span p)
  | s@(.block p items) => do
    w.enter (.stmt s)
    return .block (← w.span p) (← relabelList w items)
  | s@(.optional p condition body otherwise) => do
    w.enter (.stmt s)
    return .optional (← w.span p) (← condition.relabel w) (← body.relabel w)
      (← relabelOption w otherwise)
  | s@(.library p path) => do
    w.enter (.stmt s)
    return .library (← w.span p) path

def relabelList (w : Relabeler m) : List Stmt → m (List Stmt)
  | [] => return []
  | s :: ss => return (← s.relabel w) :: (← relabelList w ss)

def relabelArms (w : Relabeler m) : List (Expr × Stmt) → m (List (Expr × Stmt))
  | [] => return []
  | (c, s) :: rest => do
    let c ← c.relabel w
    let s ← s.relabel w
    return (c, s) :: (← relabelArms w rest)

def relabelOption (w : Relabeler m) : Option Stmt → m (Option Stmt)
  | none => return none
  | some s => return some (← s.relabel w)

end

end Stmt

namespace Relabeler

/-- Replaces every span by the dummy span and keeps all else. -/
def eraseSpans : Relabeler Id where
  enter _ := ()
  span _ := Span.dummy
  type t := t
  name n := n

/-- Collects the spans in the order of the walk, renames the references to `source` and
turns every type that names the struct `source` into the struct `target`. -/
def retarget (source target : String) : Relabeler (StateM (List Span)) where
  enter _ := pure ()
  span s := modifyGet fun seen => (s, seen ++ [s])
  type t := pure (if t.structName? = some source then .struct target else t)
  name n := pure (if n = source then target else n)

end Relabeler

/-- The tree without its places: two readings of one program differ only in these. -/
def Stmt.eraseSpans (s : Stmt) : Stmt := (s.relabel Relabeler.eraseSpans).run

end Shading
