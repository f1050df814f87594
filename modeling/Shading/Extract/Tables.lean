import Shading.Extract.Reflection

/-!
# The tables behind a reflection

Beside each list of a reflection stand maps from names and from numeric slots to positions in
the list, so that a lookup walks over no list.  A position is put into a map together with the
entry that it is the position of.
-/

namespace Shading

/-- A map to the positions of a list; what was put in last for a key counts. -/
abbrev Positions (κ : Type) := List (κ × Nat)

/-- The inputs or the outputs with their maps. -/
structure InterfaceTable where
  entries : List InterfaceEntry
  byName : Positions String
  byLocation : Positions Nat

namespace InterfaceTable

/-- The table of no variables. -/
def empty : InterfaceTable := ⟨[], [], []⟩

/-- The last entry of a name. -/
def named? (t : InterfaceTable) (name : String) : Option InterfaceEntry :=
  (t.byName.lookup name).bind (t.entries[·]?)

/-- The entry at a location. -/
def at? (t : InterfaceTable) (location : Nat) : Option InterfaceEntry :=
  (t.byLocation.lookup location).bind (t.entries[·]?)

/-- The name of the entry at a position. -/
def nameAt (t : InterfaceTable) (position : Nat) : String :=
  (t.entries[position]?.map (·.name)).getD ""

/-- Puts a variable behind the others, under its name. -/
def push (t : InterfaceTable) (v : InterfaceVariable) : InterfaceTable where
  entries := t.entries ++ [.ofVariable v]
  byName := (v.name, t.entries.length) :: t.byName
  byLocation := t.byLocation

end InterfaceTable

/-- How a registration ends. -/
inductive Answer where
  | added
  | refused (e : ExtractError)
  /-- A struct of the name is registered already. -/
  | known

namespace InterfaceTable

/-- Adds a variable unless its location is taken. -/
def register (t : InterfaceTable) (direction : Direction) (v : InterfaceVariable) :
    Answer × InterfaceTable :=
  match v.slot with
  | .builtin _ => (.added, t.push v)
  | .location n =>
    match t.byLocation.lookup n with
    | some other => (.refused (.duplicateLocation v.name (t.nameAt other) n direction v.span), t)
    | none =>
      (.added, { t with byLocation := (n, t.entries.length) :: t.byLocation }.push v)

end InterfaceTable

/-- A reflection with the maps into its lists. -/
structure ReflectionTables where
  entry : Option EntryInfo
  inputs : InterfaceTable
  outputs : InterfaceTable
  externals : List ExternalEntry
  externalsByName : Positions String
  externalsByBinding : Positions (Nat × Nat)
  structs : List StructDeclaration
  structsByName : Positions String

/-- What can be registered. -/
inductive Registration where
  | input (v : InterfaceVariable)
  | output (v : InterfaceVariable)
  | external (v : ExternalVariable)
  | struct (d : StructDeclaration)

namespace ReflectionTables

/-- The tables of nothing. -/
def empty : ReflectionTables := ⟨none, .empty, .empty, [], [], [], [], []⟩

def input? (t : ReflectionTables) (name : String) : Option InterfaceEntry := t.inputs.named? name

def output? (t : ReflectionTables) (name : String) : Option InterfaceEntry :=
  t.outputs.named? name

def inputAt? (t : ReflectionTables) (location : Nat) : Option InterfaceEntry :=
  t.inputs.at? location

def outputAt? (t : ReflectionTables) (location : Nat) : Option InterfaceEntry :=
  t.outputs.at? location

/-- Looks an external resource up by its name. -/
def external? (t : ReflectionTables) (name : String) : Option ExternalEntry :=
  (t.externalsByName.lookup name).bind (t.externals[·]?)

/-- Looks an external resource up by its set and binding. -/
def externalAt? (t : ReflectionTables) (set binding : Nat) : Option ExternalEntry :=
  (t.externalsByBinding.lookup (set, binding)).bind (t.externals[·]?)

def struct? (t : ReflectionTables) (name : String) : Option StructDeclaration :=
  (t.structsByName.lookup name).bind (t.structs[·]?)

/-- The name of the external at a position. -/
def externalNameAt (t : ReflectionTables) (position : Nat) : String :=
  (t.externals[position]?.map (·.name)).getD ""

/-- Adds an external resource unless its set and binding are taken; a refusal changes nothing. -/
def addExternal (t : ReflectionTables) (v : ExternalVariable) : Answer × ReflectionTables :=
  match t.externalsByBinding.lookup (v.set, v.binding) with
  | some other =>
    (.refused (.duplicateBinding v.name (t.externalNameAt other) v.set v.binding v.span), t)
  | none =>
    (.added, { t with
      externals := t.externals ++ [.ofVariable v]
      externalsByName := (v.name, t.externals.length) :: t.externalsByName
      externalsByBinding := ((v.set, v.binding), t.externals.length) :: t.externalsByBinding })

/-- Adds a struct unless its name is taken. -/
def addStruct (t : ReflectionTables) (d : StructDeclaration) : Answer × ReflectionTables :=
  match t.structsByName.lookup d.name with
  | some _ => (.known, t)
  | none =>
    (.added, { t with
      structs := t.structs ++ [d]
      structsByName := (d.name, t.structs.length) :: t.structsByName })

/-- The answer to a registration and the tables after it. -/
def register (t : ReflectionTables) : Registration → Answer × ReflectionTables
  | .input v =>
    let (answer, inputs) := t.inputs.register .input v
    (answer, { t with inputs })
  | .output v =>
    let (answer, outputs) := t.outputs.register .output v
    (answer, { t with outputs })
  | .external v => t.addExternal v
  | .struct d => t.addStruct d

/-- The tables after some registrations, whether they were refused or not. -/
def afterAll (calls : List Registration) : ReflectionTables :=
  calls.foldl (fun t call => (t.register call).2) empty

/-- The lists alone. -/
def reflection (t : ReflectionTables) : Reflection :=
  ⟨t.entry, t.inputs.entries, t.outputs.entries, t.externals, t.structs⟩

end ReflectionTables

namespace Reflection

/-- The answer to a registration and the reflection after it. -/
def register (r : Reflection) : Registration → Answer × Reflection
  | .input v => answered (r.addInput v)
  | .output v => answered (r.addOutput v)
  | .external v => answered (r.addExternal v)
  | .struct d =>
    match r.addStruct? d with
    | some r' => (.added, r')
    | none => (.known, r)
where
  /-- A run that fails leaves the reflection as it was. -/
  answered : Except ExtractError Reflection → Answer × Reflection
    | .ok r' => (.added, r')
    | .error e => (.refused e, r)

/-- The reflection after some registrations, whether they were refused or not. -/
def afterAll (calls : List Registration) : Reflection :=
  calls.foldl (fun r call => (r.register call).2) empty

end Reflection

end Shading
