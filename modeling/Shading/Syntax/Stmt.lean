import Shading.Syntax.Expr
import Shading.Types.Stage

/-!
# Statements and declarations

Declarations are statements, and a parsed file is one block.  A function keeps its
signature apart from its body, so that the body alone nests.
-/

namespace Shading

/-- `Type name = value;` in a function or at file level. -/
structure VariableDeclaration where
  name : String
  type : Ty
  isConst : Bool
  initializer : Option Expr

/-- A field of a struct. -/
structure StructField where
  name : String
  type : Ty
deriving DecidableEq

/-- A struct and its fields in their order. -/
structure StructDeclaration where
  name : String
  fields : List StructField
deriving DecidableEq

/-- Where an input or an output is bound. -/
inductive Slot where
  | location (number : Nat)
  | builtin (value : BuiltinVariable)
deriving DecidableEq

namespace Slot

def location? : Slot → Option Nat
  | .location n => some n
  | .builtin _ => none

def builtin? : Slot → Option BuiltinVariable
  | .location _ => none
  | .builtin b => some b

end Slot

/-- One entry of an input or output block. -/
structure InterfaceVariable where
  name : String
  type : Ty
  slot : Slot
  span : Span
deriving DecidableEq

/-- One entry of an external block; `storage` asks for a storage buffer. -/
structure ExternalVariable where
  name : String
  type : Ty
  set : Nat
  binding : Nat
  storage : Bool
  span : Span
deriving DecidableEq

/-- One entry of an option block. -/
structure OptionDeclaration where
  name : String
  type : Ty
  default : Option Expr
  span : Span

/-- One entry of a constant block. -/
structure ConstDeclaration where
  name : String
  type : Ty
  value : Expr
  span : Span

/-- A parameter of a function. -/
structure Parameter where
  name : String
  type : Ty
  span : Span
deriving DecidableEq

/-- The size of a compute workgroup. -/
structure Workgroup where
  x : Nat
  y : Nat
  z : Nat
deriving DecidableEq

/-- Marks a function as the root of a stage. -/
structure EntryPoint where
  stage : Stage
  workgroup : Option Workgroup
deriving DecidableEq

/-- All of a function but its body. -/
structure Signature where
  name : String
  parameters : List Parameter
  returnType : Ty
  entry : Option EntryPoint
deriving DecidableEq

namespace Signature

/-- Whether the function is an entry of the stage. -/
def isEntryFor (f : Signature) (stage : Stage) : Bool :=
  match f.entry with
  | some entry => entry.stage = stage
  | none => false

end Signature

/-- A statement or a declaration; a file is a block of declarations. -/
inductive Stmt where
  | branch (span : Span) (arms : List (Expr × Stmt)) (otherwise : Option Stmt)
  | forLoop (span : Span) (init : Option Stmt) (condition step : Option Expr) (body : Stmt)
  | whileLoop (span : Span) (condition : Expr) (body : Stmt)
  | doWhile (span : Span) (body : Stmt) (condition : Expr)
  | var (span : Span) (declaration : VariableDeclaration)
  | struct (span : Span) (declaration : StructDeclaration)
  | inputs (span : Span) (entries : List InterfaceVariable)
  | outputs (span : Span) (entries : List InterfaceVariable)
  | externals (span : Span) (entries : List ExternalVariable)
  | options (span : Span) (entries : List OptionDeclaration)
  | consts (span : Span) (entries : List ConstDeclaration)
  | function (span : Span) (signature : Signature) (body : List Stmt)
  | expr (span : Span) (value : Expr)
  | leaveLoop (span : Span)
  | nextRound (span : Span)
  | ret (span : Span) (value : Option Expr)
  | discard (span : Span)
  /-- A braced block of a function, or a whole file. -/
  | block (span : Span) (items : List Stmt)
  /-- A block that specialization keeps or drops. -/
  | optional (span : Span) (condition : Expr) (body : Stmt) (otherwise : Option Stmt)
  /-- A library that was not resolved when the file was read. -/
  | library (span : Span) (path : List String)
deriving Inhabited

namespace Stmt

/-- The span of the whole statement. -/
def span : Stmt → Span
  | .branch s _ _ | .forLoop s _ _ _ _ | .whileLoop s _ _ | .doWhile s _ _ | .var s _
  | .struct s _ | .inputs s _ | .outputs s _ | .externals s _ | .options s _ | .consts s _
  | .function s _ _ | .expr s _ | .leaveLoop s | .nextRound s | .ret s _ | .discard s
  | .block s _ | .optional s _ _ _ | .library s _ => s

/-- The name of the form of a statement; entry functions have one of their own. -/
def formName : Stmt → String
  | .branch .. => "Branch"
  | .forLoop .. => "For"
  | .whileLoop .. => "While"
  | .doWhile .. => "DoWhile"
  | .var .. => "VariableDeclaration"
  | .struct .. => "StructDeclaration"
  | .inputs .. => "InputDeclaration"
  | .outputs .. => "OutputDeclaration"
  | .externals .. => "ExternalDeclaration"
  | .options .. => "OptionDeclaration"
  | .consts .. => "ConstDeclaration"
  | .function _ f _ => if f.entry.isSome then "EntryFunctionDeclaration" else "FunctionDeclaration"
  | .expr .. => "Expression"
  | .leaveLoop .. => "Break"
  | .nextRound .. => "Continue"
  | .ret .. => "Return"
  | .discard .. => "Discard"
  | .block .. => "Sequence"
  | .optional .. => "Optional"
  | .library .. => "Include"

def isBlock : Stmt → Bool
  | .block .. => true
  | _ => false

def isOptional : Stmt → Bool
  | .optional .. => true
  | _ => false

/-- A block of declarations, of which a stage may keep a part. -/
def isTable : Stmt → Bool
  | .inputs .. | .outputs .. | .externals .. | .options .. | .consts .. => true
  | _ => false

def isLibrary : Stmt → Bool
  | .library .. => true
  | _ => false

def signature? : Stmt → Option Signature
  | .function _ f _ => some f
  | _ => none

/-- The items of a block; any other statement is its own only item. -/
def items : Stmt → List Stmt
  | .block _ items => items
  | s => [s]

/-- The entry functions among the items. -/
def entryFunctions (s : Stmt) : List Signature :=
  s.items.filterMap fun
    | .function _ f _ => if f.entry.isSome then some f else none
    | _ => none

end Stmt

/-- A library name as it is written, its parts joined by dots. -/
def dotted (path : List String) : String := String.intercalate "." path

end Shading
