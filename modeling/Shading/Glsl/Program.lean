import Shading.Glsl.Error
import Shading.Glsl.Order

/-!
# What a tree declares for the target

The entry function, the structs and the renamed variables of a tree, and the structs and
functions that its text holds, in declaration order.
-/

namespace Shading

namespace Glsl

namespace Settings

/-- Fails unless the version has a construct. -/
def require (s : Settings) (construct : Construct) (desktop embedded : UInt32) (span : Span) :
    Except CodegenError Unit :=
  if s.supports desktop embedded then .ok ()
  else
    let required := Version.ofNumber (s.applicable desktop embedded)
    .error (.unsupported construct (some required) s.version span)

/-- The error for a construct that no version has. -/
def unsupported (s : Settings) (construct : Construct) (span : Span) : CodegenError :=
  .unsupported construct none s.version span

/-- Whether a function is an entry that the settings ask for. -/
def qualifies (s : Settings) (f : Signature) : Bool :=
  match f.entry, s.stage with
  | some entry, some stage => entry.stage = stage
  | some _, none => true
  | none, _ => false

/-- Entries that the settings do not ask for are left out. -/
def emits (s : Settings) (f : Signature) : Bool := f.entry.isNone || s.qualifies f

end Settings

/-- The construct that keeps a statement out of the file scope of the target. -/
def fileScopeProblem? : Stmt → Option Construct
  | .optional .. => some .optionalBlock
  | .options .. => some .optionBlock
  | .library .. => some .libraryDirective
  | .branch .. | .forLoop .. | .whileLoop .. | .doWhile .. | .expr .. | .leaveLoop _
  | .nextRound _ | .ret .. | .discard _ | .block .. => some .fileStatement
  | .var .. | .struct .. | .inputs .. | .outputs .. | .externals .. | .consts ..
  | .function .. => none

/-- Fails at the first item that the target has no form for. -/
def checkItems (s : Settings) : List Stmt → Except CodegenError Unit
  | [] => .ok ()
  | item :: rest =>
    match fileScopeProblem? item with
    | some construct => .error (s.unsupported construct item.span)
    | none => checkItems s rest

/-- The functions that qualify as the entry, with the spans of their declarations. -/
def candidates (s : Settings) (items : List Stmt) : List (Signature × Span) :=
  items.filterMap fun
    | .function span f _ => if s.qualifies f then some (f, span) else none
    | _ => none

/-- The only candidate. -/
def selectEntry (s : Settings) (items : List Stmt) : Except CodegenError (Signature × Span) :=
  match candidates s items with
  | [] => .error (.missingEntry s.stage)
  | [entry] => .ok entry
  | first :: second :: _ => .error (.ambiguousEntry s.stage first.1.name second.1.name)

/-- The name that the target gives a fixed-function variable. -/
def builtinVariableName (b : BuiltinVariable) (stage : Stage) (isOutput vulkan : Bool) : String :=
  match b with
  | .position => if stage = .fragment && !isOutput then "gl_FragCoord" else "gl_Position"
  | .fragDepth => "gl_FragDepth"
  | .vertexIndex => if vulkan then "gl_VertexIndex" else "gl_VertexID"
  | .instanceIndex => if vulkan then "gl_InstanceIndex" else "gl_InstanceID"
  | .globalInvocationId => "gl_GlobalInvocationID"
  | .localInvocationId => "gl_LocalInvocationID"
  | .workgroupId => "gl_WorkGroupID"

/-- A tree that is being generated. -/
structure Program where
  settings : Settings
  entry : Signature
  stage : Stage
  items : List Stmt

namespace Program

/-- The first declaration of a struct. -/
def struct? (p : Program) (name : String) : Option StructDeclaration :=
  p.items.findSome? fun
    | .struct _ s => if s.name = name then some s else none
    | _ => none

/-- The entries of one block that stand for fixed-function variables. -/
def renamesOf (p : Program) (isOutput : Bool) (vs : List InterfaceVariable) :
    List (String × String) :=
  vs.filterMap fun v =>
    v.slot.builtin?.map fun b =>
      (v.name, builtinVariableName b p.stage isOutput p.settings.vulkan)

/-- The fixed-function names of interface variables, in declaration order. -/
def renames (p : Program) : List (String × String) :=
  p.items.flatMap fun
    | .inputs _ vs => p.renamesOf false vs
    | .outputs _ vs => p.renamesOf true vs
    | _ => []

/-- The name of a reference: that of the last fixed-function variable of the name. -/
def referenceName (p : Program) (name : String) : String :=
  (p.renames.reverse.lookup name).getD name

/-- The externals in source order. -/
def externals (p : Program) : List ExternalVariable :=
  p.items.flatMap fun
    | .externals _ vs => vs
    | _ => []

/-- The functions that the text holds, with their bodies. -/
def functions (p : Program) : List (Signature × List Stmt) :=
  p.items.filterMap fun
    | .function _ f body => if p.settings.emits f then some (f, body) else none
    | _ => none

/-- The structs that an item uses as values.  A struct that describes a buffer is written
out in the block, so the external uses the structs of its fields. -/
def itemStructs (p : Program) : Stmt → List String
  | .struct .. => []
  | .externals _ vs =>
    vs.flatMap fun v =>
      match v.type.structName? with
      | none => []
      | some name =>
        match p.struct? name with
        | some s => s.fields.filterMap (·.type.structName?)
        | none => [name]
  | .function span f body =>
    if p.settings.emits f then (Stmt.function span f body).nodes.filterMap namedStruct? else []
  | item => item.nodes.filterMap namedStruct?

/-- The structs that the fields of a declared struct name. -/
def fieldStructs (p : Program) (name : String) : List String :=
  match p.struct? name with
  | some s => s.fields.filterMap (·.type.structName?)
  | none => []

/-- Adds the structs that fields name, until none is new.  `pending` are the names whose
fields are still to be looked at. -/
def closeStructs (p : Program) : Nat → List String → List String → List String
  | 0, _, used => used
  | _, [], used => used
  | fuel + 1, name :: pending, used =>
    let new := (firstUses (p.fieldStructs name)).filter (· ∉ used)
    closeStructs p fuel (pending ++ new) (used ++ new)

/-- The number of fields of all structs, which bounds the names that fields bring in. -/
def fieldCount (p : Program) : Nat :=
  (p.items.flatMap fun
    | .struct _ s => s.fields
    | _ => []).length

/-- The names of the structs that are used as values. -/
def usedStructs (p : Program) : List String :=
  let direct := firstUses (p.items.flatMap p.itemStructs)
  p.closeStructs (direct.length + p.fieldCount) direct direct

/-- The first declarations of the used structs, in source order. -/
def usedDeclarations (p : Program) : List StructDeclaration :=
  let used := p.usedStructs
  p.items.foldl (fun decls item =>
    match item with
    | .struct _ s =>
      if s.name ∈ used ∧ decls.all (·.name ≠ s.name) then decls ++ [s] else decls
    | _ => decls) []

/-- The used structs, those that fields name first. -/
def orderedStructs (p : Program) : List StructDeclaration :=
  let decls := p.usedDeclarations
  let deps (i : Nat) : List Nat :=
    match decls[i]? with
    | some s => (s.fields.filterMap (·.type.structName?)).filterMap fun n =>
        decls.findIdx? (·.name = n)
    | none => []
  (dependencyOrder decls.length deps).filterMap (decls[·]?)

/-- The positions of the functions that a function calls by name. -/
def calledPositions (functions : List (Signature × List Stmt)) (body : List Stmt) : List Nat :=
  (firstUses ((Stmt.nodesList body).filterMap calledFunction?)).flatMap fun name =>
    functions.zipIdx.filterMap fun (f, i) => if f.1.name = name then some i else none

/-- The functions of the text, callees first. -/
def orderedFunctions (p : Program) : List (Signature × List Stmt) :=
  let functions := p.functions
  let deps (i : Nat) : List Nat :=
    match functions[i]? with
    | some f => calledPositions functions f.2
    | none => []
  (dependencyOrder functions.length deps).filterMap (functions[·]?)

end Program

end Glsl

end Shading
