import Shading.Glsl.External
import Shading.Print.Emitter
import Shading.Print.Stmt

/-!
# The text of a stage

The text of one stage: its header, the structs, the externals, the interface, the
constants and globals, and the functions, the entry under the name `main`.
-/

namespace Shading

namespace Glsl

/-- The target's dialect: built-in functions need their version, fixed-function variables
have names of their own, and functions hold no declarations but variables. -/
def dialect (p : Program) : Dialect where
  builtin f span := do
    p.settings.require (.builtin f) f.minVersion f.minEmbeddedVersion span
    return f.targetName
  reference := p.referenceName
  declarator := declarator
  refusal s :=
    let construct : Construct :=
      match s with
      | .optional .. => .optionalBlock
      | .library .. => .libraryDirective
      | .function .. => .nestedFunction
      | _ => .nestedDeclaration
    some (p.settings.unsupported construct s.span)

/-- The entry of a stage takes and gives nothing, and its stage must exist. -/
def checkEntry (p : Program) (span : Span) : Except CodegenError Unit :=
  let s := p.settings
  if p.entry.parameters ≠ [] then .error (s.unsupported .entryParameters span)
  else if p.entry.returnType ≠ .void then .error (s.unsupported .entryResult span)
  else if p.stage = .compute then s.require .computeShader 430 310 span
  else .ok ()

/-- Writes the version, the precisions of an embedded fragment shader and the workgroup of a
compute shader. -/
def writeHeader (p : Program) (w : Writer) : Writer :=
  let number := p.settings.version.number
  let w := w.line ("#version " ++ toString number ++
    (if p.settings.embedded && 300 ≤ number then " es" else ""))
  let w :=
    if p.settings.embedded && p.stage = .fragment then
      (w.line "precision highp float;").line "precision highp int;"
    else w
  if p.stage = .compute then
    let g := (p.entry.entry.bind (·.workgroup)).getD ⟨1, 1, 1⟩
    w.blankLine.line ("layout(local_size_x = " ++ toString g.x ++ ", local_size_y = " ++
      toString g.y ++ ", local_size_z = " ++ toString g.z ++ ") in;")
  else w

/-- Writes the struct definitions in the order they are given in. -/
def writeStructs (structs : List StructDeclaration) (w : Writer) : Writer :=
  structs.foldl (fun w s =>
    ((w.blankLine.line ("struct " ++ s.name ++ " \x7b")).nested (memberLines s)).line "\x7d;") w

/-- An input or an output with a location.  Integers that pass between stages are flat. -/
def interfaceLine (p : Program) (v : InterfaceVariable) (location : Nat) (isOutput : Bool) :
    String :=
  let varying :=
    match p.stage with
    | .vertex => isOutput
    | .fragment => !isOutput
    | .compute => false
  (if p.settings.supports 330 300 then "layout(location = " ++ toString location ++ ") " else "") ++
    (if varying && (v.type.component?.any Primitive.isInteger) then "flat " else "") ++
    (if isOutput then "out " else "in ") ++ declarator v.type v.name ++ ";"

/-- The inputs and outputs that have a location, in source order. -/
def locatedVariables (p : Program) : List (InterfaceVariable × Nat × Bool) :=
  p.items.flatMap fun
    | .inputs _ vs => located false vs
    | .outputs _ vs => located true vs
    | _ => []
where
  located (isOutput : Bool) (vs : List InterfaceVariable) : List (InterfaceVariable × Nat × Bool) :=
    vs.filterMap fun v => v.slot.location?.map fun n => (v, n, isOutput)

/-- Writes the inputs and outputs that have a location. -/
def writeInterface (p : Program) (w : Writer) : Except CodegenError Writer :=
  match locatedVariables p with
  | [] => return w
  | first :: rest => do
    p.settings.require .interfaceVariables 130 300 first.1.span
    return (first :: rest).foldl
      (fun w (v, location, isOutput) => w.line (interfaceLine p v location isOutput)) w.blankLine

/-- A constant or a global variable of the file. -/
inductive Global where
  | const (c : ConstDeclaration)
  | var (v : VariableDeclaration)

/-- The constants and the variables of a program, in source order. -/
def globals (p : Program) : List Global :=
  p.items.flatMap fun
    | .consts _ cs => cs.map .const
    | .var _ v => [.var v]
    | _ => []

/-- Writes a constant or a variable with its initializer. -/
def writeGlobal (p : Program) (w : Writer) : Global → Except CodegenError Writer
  | .const c => do
    let w := w.push ("const " ++ declarator c.type c.name ++ " = ")
    return (← (dialect p).expr c.value w).line ";"
  | .var v => return (← (dialect p).variableDeclaration v w).line ";"

/-- Writes all constants and variables after a blank line, if there are any. -/
def writeGlobals (p : Program) (w : Writer) : Except CodegenError Writer :=
  match globals p with
  | [] => return w
  | gs => gs.foldlM (writeGlobal p) w.blankLine

/-- The head of a function, up to its body. -/
def functionHeader (p : Program) (f : Signature) : String :=
  if p.settings.qualifies f then "void main() "
  else
    f.returnType.text ++ " " ++ f.name ++
      parenthesizedList (f.parameters.map fun q => declarator q.type q.name) ++ " "

/-- Writes a function with its body between braces. -/
def writeFunction (p : Program) (w : Writer) (f : Signature × List Stmt) :
    Except CodegenError Writer := do
  let w := ((w.blankLine.push (functionHeader p f.1)).push "\x7b").close.indent
  let w ← (dialect p).stmts f.2 w
  return (w.dedent.push "\x7d").close

/-- The text of a checked program. -/
def Program.text (p : Program) : Except CodegenError String := do
  let w := writeStructs p.orderedStructs (writeHeader p Writer.empty)
  let w ←
    match p.externals with
    | [] => pure w
    | vs => writeExternals p [] vs w.blankLine
  let w ← writeInterface p w
  let w ← writeGlobals p w
  let w ← p.orderedFunctions.foldlM (writeFunction p) w
  return w.text

/-- The program that a tree is under the settings, after its checks. -/
def program (s : Settings) (tree : Stmt) : Except CodegenError Program := do
  let items := tree.items
  checkItems s items
  let (entry, span) ← selectEntry s items
  let stage := (entry.entry.map (·.stage)).getD .vertex
  let p : Program := ⟨s, entry, stage, items⟩
  checkEntry p span
  return p

/-- The text of one stage of a tree. -/
def render (s : Settings) (tree : Stmt) : Except CodegenError String := do
  (← program s tree).text

/-- Feeds the text of one stage to an emitter. -/
def generate (s : Settings) (tree : Stmt) (e : Emitter) : Except CodegenError Emitter := do
  return e.emitLines (← render s tree)

end Glsl

end Shading
