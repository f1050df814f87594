import Shading.Proofs.Parse.Canonical

/-!
# Legible trees

What every tree that is read from a file is like: its expressions are derived by the tokens
that they are printed with, its names are names, and each statement has a form that the
grammar gives it. A legible tree is read back from its own tokens.
-/

namespace Shading

open Lexer (isName)

/-- The expression is derived by the tokens that it is printed with, all of which can be
written. -/
structure Expr.Legible (names : Names) (e : Expr) : Prop where
  derives : Parse.Derives names .assign e.kinds e.erased
  writable : Kind.Writable e.kinds

/-- A name with its type. -/
structure Declares (names : Names) (name : String) (type : Ty) : Prop where
  name : isName name = true
  type : type.Legible names

/-- The name can be written, and so can the type and the initializer. -/
structure VariableDeclaration.Legible (names : Names) (d : VariableDeclaration) : Prop where
  declares : Declares names d.name d.type
  initializer : ∀ e, d.initializer = some e → e.Legible names

/-- The name and the type can be written, and a location fits in its attribute. -/
structure InterfaceVariable.Legible (names : Names) (v : InterfaceVariable) : Prop where
  declares : Declares names v.name v.type
  location : ∀ n, v.slot = .location n → n < Parse.arraySizeBound

/-- The name and the type can be written, and set and binding fit in their attributes. -/
structure ExternalVariable.Legible (names : Names) (v : ExternalVariable) : Prop where
  declares : Declares names v.name v.type
  set : v.set < Parse.arraySizeBound
  binding : v.binding < Parse.arraySizeBound

/-- The name and the type can be written, and so can the default. -/
structure OptionDeclaration.Legible (names : Names) (d : OptionDeclaration) : Prop where
  declares : Declares names d.name d.type
  default : ∀ e, d.default = some e → e.Legible names

/-- The name and the type can be written, and so can the value. -/
structure ConstDeclaration.Legible (names : Names) (d : ConstDeclaration) : Prop where
  declares : Declares names d.name d.type
  value : d.value.Legible names

/-- Only compute entries have a workgroup, and its sizes are positive. -/
structure EntryPoint.Legible (e : EntryPoint) : Prop where
  stage : e.workgroup.isSome → e.stage = .compute
  sizes : ∀ g, e.workgroup = some g → ∀ n ∈ [g.x, g.y, g.z], 0 < n ∧ n < Parse.arraySizeBound

/-- The names and types of a function and of its parameters can be written, and so can its entry. -/
structure Signature.Legible (names : Names) (f : Signature) : Prop where
  declares : Declares names f.name f.returnType
  parameters : ∀ p ∈ f.parameters, Declares names p.name p.type
  entry : ∀ e, f.entry = some e → e.Legible

namespace Stmt

mutual

/-- Whether an `else` right after the statement would become a part of it. -/
def takesElse : Stmt → Bool
  | .branch _ _ otherwise | .optional _ _ _ otherwise => takesElseOption otherwise
  | .forLoop _ _ _ _ body | .whileLoop _ _ body => body.takesElse
  | _ => false

/-- The same after a last alternative, or where there is none. -/
def takesElseOption : Option Stmt → Bool
  | none => true
  | some s => s.takesElse

end

/-- No arm with something after it takes the `else` that comes then. -/
def closesArms (more : Bool) : List (Expr × Stmt) → Prop
  | [] => True
  | (_, s) :: rest => ((rest ≠ [] ∨ more = true) → s.takesElse = false) ∧ closesArms more rest

def isBranch : Stmt → Bool
  | .branch .. => true
  | _ => false

/-- The first clause of a `for`. -/
inductive LegibleInit (names : Names) : Option Stmt → Prop
  | none : LegibleInit names none
  | var {s : Span} {d : VariableDeclaration} (hd : d.Legible names) :
      LegibleInit names (some (.var s d))
  | expr {s : Span} {e : Expr} (he : e.Legible names) : LegibleInit names (some (.expr s e))

/-- Where a statement stands. -/
inductive Place where
  | file | body

/-- The statement can be written where it stands, and is read back as it is. -/
inductive Legible (names : Names) : Place → Stmt → Prop
  | var {place : Place} {s : Span} {d : VariableDeclaration} (hd : d.Legible names) :
      Legible names place (.var s d)
  | optional {place : Place} {s t : Span} {c : Expr} {items : List Stmt} (hc : c.Legible names)
      (hitems : ∀ i ∈ items, Legible names place i) :
      Legible names place (.optional s c (.block t items) none)
  | optionalBlock {place : Place} {s t u : Span} {c : Expr} {items others : List Stmt}
      (hc : c.Legible names) (hitems : ∀ i ∈ items, Legible names place i)
      (hothers : ∀ i ∈ others, Legible names place i) :
      Legible names place (.optional s c (.block t items) (some (.block u others)))
  | optionalChain {place : Place} {s t u : Span} {c c' : Expr} {items : List Stmt} {b : Stmt}
      {o : Option Stmt} (hc : c.Legible names) (hitems : ∀ i ∈ items, Legible names place i)
      (hnext : Legible names place (.optional u c' b o)) :
      Legible names place (.optional s c (.block t items) (some (.optional u c' b o)))
  | block {s : Span} {items : List Stmt} (hitems : ∀ i ∈ items, Legible names .body i) :
      Legible names .body (.block s items)
  | branch {s : Span} {arms : List (Expr × Stmt)} {otherwise : Option Stmt} (hne : arms ≠ [])
      (hconditions : ∀ a ∈ arms, a.1.Legible names) (harms : ∀ a ∈ arms, Legible names .body a.2)
      (hcloses : closesArms otherwise.isSome arms)
      (hotherwise : ∀ o, otherwise = some o → Legible names .body o)
      (hform : ∀ o, otherwise = some o → o.isBranch = false) :
      Legible names .body (.branch s arms otherwise)
  | forLoop {s : Span} {init : Option Stmt} {condition step : Option Expr} {b : Stmt}
      (hinit : LegibleInit names init) (hcondition : ∀ e, condition = some e → e.Legible names)
      (hstep : ∀ e, step = some e → e.Legible names) (hbody : Legible names .body b) :
      Legible names .body (.forLoop s init condition step b)
  | whileLoop {s : Span} {c : Expr} {b : Stmt} (hc : c.Legible names)
      (hbody : Legible names .body b) : Legible names .body (.whileLoop s c b)
  | doWhile {s : Span} {b : Stmt} {c : Expr} (hbody : Legible names .body b)
      (hc : c.Legible names) : Legible names .body (.doWhile s b c)
  | expr {s : Span} {e : Expr} (he : e.Legible names) : Legible names .body (.expr s e)
  | leaveLoop {s : Span} : Legible names .body (.leaveLoop s)
  | nextRound {s : Span} : Legible names .body (.nextRound s)
  | discard {s : Span} : Legible names .body (.discard s)
  | ret {s : Span} {value : Option Expr} (hvalue : ∀ e, value = some e → e.Legible names) :
      Legible names .body (.ret s value)
  | struct {s : Span} {d : StructDeclaration} (hname : isName d.name = true)
      (hfields : ∀ f ∈ d.fields, Declares names f.name f.type) : Legible names .file (.struct s d)
  | inputs {s : Span} {entries : List InterfaceVariable} (h : ∀ v ∈ entries, v.Legible names) :
      Legible names .file (.inputs s entries)
  | outputs {s : Span} {entries : List InterfaceVariable} (h : ∀ v ∈ entries, v.Legible names) :
      Legible names .file (.outputs s entries)
  | externals {s : Span} {entries : List ExternalVariable} (h : ∀ v ∈ entries, v.Legible names) :
      Legible names .file (.externals s entries)
  | options {s : Span} {entries : List OptionDeclaration} (h : ∀ d ∈ entries, d.Legible names) :
      Legible names .file (.options s entries)
  | consts {s : Span} {entries : List ConstDeclaration} (h : ∀ d ∈ entries, d.Legible names) :
      Legible names .file (.consts s entries)
  | function {s : Span} {f : Signature} {items : List Stmt} (hf : f.Legible names)
      (hitems : ∀ i ∈ items, Legible names .body i) : Legible names .file (.function s f items)
  | library {s : Span} {path : List String} (hne : path ≠ [])
      (hpath : ∀ part ∈ path, isName part = true) : Legible names .file (.library s path)

end Stmt

end Shading
