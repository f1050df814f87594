import Shading.Glsl.Program
import Shading.Print.Writer

/-!
# Externals of the target

An external is a sampler, a buffer whose body is a struct, or a plain value.  With
descriptor sets it keeps its set and binding; otherwise the sets are flattened into one
row of bindings, in which no two externals may meet.
-/

namespace Shading

namespace Glsl

/-- How an external variable is written: as a sampler, in a block, or by itself. -/
inductive Resource where
  | sampler | uniformBlock | storageBlock | value
deriving DecidableEq

/-- What an external is to the target. -/
def Resource.of (v : ExternalVariable) : Resource :=
  if v.type.isSampler then .sampler
  else if v.type.structName?.isSome then
    if v.storage then .storageBlock else .uniformBlock
  else .value

/-- A type and a name as the target declares them: array suffixes follow the name. -/
def declarator (t : Ty) (name : String) : String := t.baseName ++ " " ++ name ++ t.suffixes

/-- The largest binding that is written. -/
def bindingLimit : Nat := 4294967295

/-- Where an external ends up: its set and binding, or the flattened binding in set zero. -/
def bindingKey (s : Settings) (v : ExternalVariable) : Nat × Nat :=
  if s.usesDescriptorSets then (v.set, v.binding)
  else (0, min (v.set * s.bindingsPerSet + v.binding) bindingLimit)

/-- The qualifier that puts an external there. -/
def bindingText (s : Settings) (key : Nat × Nat) : String :=
  if s.usesDescriptorSets then
    "set = " ++ toString key.1 ++ ", binding = " ++ toString key.2
  else "binding = " ++ toString key.2

/-- The places that earlier externals took. -/
abbrev Taken := List ((Nat × Nat) × ExternalVariable)

/-- Plain values have a place only inside a block of a descriptor set. -/
def isPlaced (s : Settings) (v : ExternalVariable) : Bool :=
  Resource.of v ≠ .value || s.usesDescriptorSets

/-- The binding qualifier of an external, if it has one, and the places taken after it. -/
def place (s : Settings) (taken : Taken) (v : ExternalVariable) :
    Except CodegenError (Option String × Taken) :=
  if isPlaced s v && s.writesBindings then
    let key := bindingKey s v
    match taken.lookup key with
    | some first => .error (.bindingConflict first.name v.name key.2 v.span first.span)
    | none => .ok (some (bindingText s key), (key, v) :: taken)
  else .ok (none, taken)

/-- The layout qualifiers of a declaration. -/
def layoutText (parts : List (Option String)) : String :=
  match parts.filterMap id with
  | [] => ""
  | parts => "layout(" ++ String.intercalate ", " parts ++ ") "

/-- A block with a body and what follows its closing brace. -/
def blockLines (header : String) (v : ExternalVariable) (body : List String) (tail : String)
    (w : Writer) : Writer :=
  (((w.line (header ++ " _uslBlock_" ++ v.name ++ " \x7b")).nested body)).line ("\x7d" ++ tail)

/-- The members of a struct, declared one a line. -/
def memberLines (s : StructDeclaration) : List String :=
  s.fields.map fun f => declarator f.type f.name ++ ";"

/-- Writes an external with its binding qualifier. -/
def writeExternal (p : Program) (v : ExternalVariable) (binding : Option String) (w : Writer) :
    Except CodegenError Writer := do
  let s := p.settings
  let own := declarator v.type v.name ++ ";"
  match Resource.of v with
  | .sampler => return w.line (layoutText [binding] ++ "uniform " ++ own)
  | .uniformBlock =>
    s.require .uniformBlock 140 300 v.span
    buffer (layoutText [some "std140", binding] ++ "uniform")
  | .storageBlock =>
    s.require .storageBuffer 430 310 v.span
    buffer (layoutText [some "std430", binding] ++ "buffer")
  | .value =>
    if s.usesDescriptorSets then
      s.require .uniformBlock 140 300 v.span
      return blockLines (layoutText [some "std140", binding] ++ "uniform") v [own] ";" w
    else return w.line ("uniform " ++ own)
where
  /-- A block whose body is the struct of the external. -/
  buffer (header : String) : Except CodegenError Writer :=
    match v.type.structName?.bind p.struct? with
    | some body =>
      .ok (blockLines header v (memberLines body) (" " ++ v.name ++ v.type.suffixes ++ ";") w)
    | none => .error (p.settings.unsupported .undeclaredBuffer v.span)

/-- Writes the externals in order, each in a place of its own. -/
def writeExternals (p : Program) : Taken → List ExternalVariable → Writer →
    Except CodegenError Writer
  | _, [], w => return w
  | taken, v :: vs, w => do
    let (binding, taken) ← place p.settings taken v
    writeExternals p taken vs (← writeExternal p v binding w)

end Glsl

end Shading
