import Shading.Extract.Error
import Shading.Syntax.Stmt

/-!
# Reflection of a stage

The inputs, outputs, externals and structs that a stage uses, in source order.  No two
entries of one table share a location, a pair of set and binding, or a struct name; a
registration that would is refused and changes nothing.
-/

namespace Shading

/-- An input or an output; a fixed-function variable has no location. -/
structure InterfaceEntry where
  name : String
  type : Ty
  location : Option Nat
  builtin : Option BuiltinVariable
deriving DecidableEq

/-- How an external is bound. -/
inductive ExternalKind where
  | sampler | uniformBuffer | storageBuffer | value
deriving DecidableEq

namespace ExternalKind

/-- How a listing names the kind. -/
def name : ExternalKind → String
  | .sampler => "Sampler"
  | .uniformBuffer => "UniformBuffer"
  | .storageBuffer => "StorageBuffer"
  | .value => "Value"

/-- The kind of an external of a type: structs are buffers, and storage buffers if this is
asked for. -/
def classify (t : Ty) (storage : Bool) : ExternalKind :=
  if t.isSampler then .sampler
  else if t.structName?.isSome then if storage then .storageBuffer else .uniformBuffer
  else .value

end ExternalKind

/-- An external resource as it is reflected: where it is bound and what kind of resource it is. -/
structure ExternalEntry where
  name : String
  type : Ty
  set : Nat
  binding : Nat
  kind : ExternalKind
deriving DecidableEq

/-- The entry function of a stage as it is reflected. -/
structure EntryInfo where
  stage : Stage
  function : String
  workgroup : Option Workgroup
deriving DecidableEq

/-- What a host program has to know of a stage to feed it. -/
structure Reflection where
  entry : Option EntryInfo
  inputs : List InterfaceEntry
  outputs : List InterfaceEntry
  externals : List ExternalEntry
  structs : List StructDeclaration
deriving DecidableEq

namespace InterfaceEntry

/-- The entry of an input or output variable. -/
def ofVariable (v : InterfaceVariable) : InterfaceEntry :=
  ⟨v.name, v.type, v.slot.location?, v.slot.builtin?⟩

/-- The entry at a location. -/
def at? (entries : List InterfaceEntry) (location : Nat) : Option InterfaceEntry :=
  entries.find? (·.location = some location)

/-- The last entry of a name. -/
def named? (entries : List InterfaceEntry) (name : String) : Option InterfaceEntry :=
  entries.reverse.find? (·.name = name)

/-- Adds a variable unless its location is taken. -/
def register (entries : List InterfaceEntry) (direction : Direction) (v : InterfaceVariable) :
    Except ExtractError (List InterfaceEntry) :=
  match v.slot with
  | .builtin _ => .ok (entries ++ [ofVariable v])
  | .location n =>
    match at? entries n with
    | some other => .error (.duplicateLocation v.name other.name n direction v.span)
    | none => .ok (entries ++ [ofVariable v])

end InterfaceEntry

namespace ExternalEntry

/-- The entry of an external variable. -/
def ofVariable (v : ExternalVariable) : ExternalEntry :=
  ⟨v.name, v.type, v.set, v.binding, ExternalKind.classify v.type v.storage⟩

end ExternalEntry

namespace Reflection

/-- A reflection of nothing. -/
def empty : Reflection := ⟨none, [], [], [], []⟩

def input? (r : Reflection) (name : String) : Option InterfaceEntry :=
  InterfaceEntry.named? r.inputs name

def output? (r : Reflection) (name : String) : Option InterfaceEntry :=
  InterfaceEntry.named? r.outputs name

def inputAt? (r : Reflection) (location : Nat) : Option InterfaceEntry :=
  InterfaceEntry.at? r.inputs location

def outputAt? (r : Reflection) (location : Nat) : Option InterfaceEntry :=
  InterfaceEntry.at? r.outputs location

/-- The external resource with the name, the last one where several share it. -/
def external? (r : Reflection) (name : String) : Option ExternalEntry :=
  r.externals.reverse.find? (·.name = name)

/-- The external resource at the set and the binding. -/
def externalAt? (r : Reflection) (set binding : Nat) : Option ExternalEntry :=
  r.externals.find? fun e => e.set = set && e.binding = binding

/-- The struct with the name. -/
def struct? (r : Reflection) (name : String) : Option StructDeclaration :=
  r.structs.find? (·.name = name)

/-- Adds an input, whose location must be free. -/
def addInput (r : Reflection) (v : InterfaceVariable) : Except ExtractError Reflection := do
  return { r with inputs := ← InterfaceEntry.register r.inputs .input v }

/-- Adds an output, whose location must be free. -/
def addOutput (r : Reflection) (v : InterfaceVariable) : Except ExtractError Reflection := do
  return { r with outputs := ← InterfaceEntry.register r.outputs .output v }

/-- Adds an external resource, whose set and binding must be free as a pair. -/
def addExternal (r : Reflection) (v : ExternalVariable) : Except ExtractError Reflection :=
  match r.externalAt? v.set v.binding with
  | some other => .error (.duplicateBinding v.name other.name v.set v.binding v.span)
  | none => .ok { r with externals := r.externals ++ [ExternalEntry.ofVariable v] }

/-- Adds a struct unless its name is taken. -/
def addStruct? (r : Reflection) (d : StructDeclaration) : Option Reflection :=
  match r.struct? d.name with
  | some _ => none
  | none => some { r with structs := r.structs ++ [d] }

/-- The names of inputs, outputs and externals. -/
def interfaceNames (r : Reflection) : List String :=
  r.inputs.map (·.name) ++ r.outputs.map (·.name) ++ r.externals.map (·.name)

end Reflection

end Shading
