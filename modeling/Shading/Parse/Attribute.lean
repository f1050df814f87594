import Shading.Parse.Cursor
import Shading.Syntax.Stmt

/-!
# Attributes

`[location(0)]`, `[set(1), binding(2)]`, `[entry(fragment)]`: the grammar collects them as
they are written, and a declaration then takes from them what it needs.
-/

namespace Shading

/-- An argument of an attribute as written. -/
inductive AttributeArgument where
  | int (value : Nat)
  | name (name : String)
deriving DecidableEq

/-- An attribute as written. -/
structure Attribute where
  name : String
  arguments : List AttributeArgument
  span : Span
  position : Position

/-- The attributes of a declaration and the token that it starts with. -/
structure Attributes where
  list : List Attribute
  start : Token

/-- A check that gives a value or finds an attribute at fault. -/
abbrev Checked (α : Type) := Except ParseError α

namespace Attribute

/-- The error for an attribute. -/
def error {α : Type} (a : Attribute) (fault : AttributeFault) : Checked α :=
  .error ⟨.attribute fault, a.span, a.position⟩

/-- The error for the arguments of an attribute. -/
def invalid {α : Type} (a : Attribute) (reason : ArgumentFault) : Checked α :=
  a.error (.invalidArgument a.name reason)

/-- The attribute stands alone. -/
def noArguments (a : Attribute) : Checked Unit :=
  if a.arguments = [] then .ok () else a.invalid .takesNone

/-- The one argument, a number. -/
def singleInt (a : Attribute) : Checked Nat :=
  match a.arguments with
  | [.int n] => .ok n
  | _ => a.invalid .wantsInteger

/-- The one argument, a name. -/
def singleName (a : Attribute) : Checked String :=
  match a.arguments with
  | [.name n] => .ok n
  | _ => a.invalid .wantsName

/-- The sizes of a workgroup, one to three positive numbers; those left out are one. -/
def workgroup (a : Attribute) : Checked Workgroup := do
  if a.arguments.isEmpty || 3 < a.arguments.length then a.invalid .sizeCount
  else
    let sizes ← a.arguments.mapM fun
      | .int 0 => a.invalid .zeroSize
      | .int n => .ok n
      | .name _ => a.invalid .sizeIsName
    return ⟨sizes.getD 0 1, sizes.getD 1 1, sizes.getD 2 1⟩

end Attribute

namespace Attributes

/-- Every attribute name of the language. -/
def known : List String :=
  ["location", "builtin", "set", "binding", "storage", "entry", "stage", "workgroup"]

/-- Refuses unknown names, names that are not allowed, and repetitions, in this order for
each attribute in turn. -/
def checkFrom (allowed : List String) (target : AttributeTarget) (before : List String) :
    List Attribute → Checked Unit
  | [] => .ok ()
  | a :: rest =>
    if a.name ∉ known then a.error (.unknown a.name)
    else if a.name ∉ allowed then a.error (.notAllowed a.name target)
    else if a.name ∈ before then a.error (.duplicate a.name)
    else checkFrom allowed target (a.name :: before) rest

/-- Refuses attributes that a declaration of this kind does not take. -/
def check (as : Attributes) (allowed : List String) (target : AttributeTarget) : Checked Unit :=
  checkFrom allowed target [] as.list

/-- Refuses any attribute. -/
def none (as : Attributes) (target : AttributeTarget) : Checked Unit := as.check [] target

/-- The first attribute with the name. -/
def find? (as : Attributes) (name : String) : Option Attribute := as.list.find? (·.name = name)

/-- The error for an attribute that is missing, at the start of the declaration. -/
def missing {α : Type} (as : Attributes) (target : AttributeTarget) (name : String) : Checked α :=
  .error ⟨.attribute (.missing target name), as.start.span, as.start.position⟩

/-- A location or a built-in variable, exactly one of them. -/
def slot (as : Attributes) : Checked Slot := do
  as.check ["location", "builtin"] .interfaceVariable
  match as.find? "location", as.find? "builtin" with
  | some location, Option.none => return .location (← location.singleInt)
  | Option.none, some builtin =>
    let name ← builtin.singleName
    match BuiltinVariable.ofName? name with
    | some b => return .builtin b
    | Option.none => builtin.invalid (.unknownVariable name)
  | some _, some builtin => builtin.error (.notAllowed builtin.name .locatedVariable)
  | Option.none, Option.none => as.missing .interfaceVariable "location"

/-- The set, zero if it is left out, the binding and whether storage is asked for. -/
def binding (as : Attributes) : Checked (Nat × Nat × Bool) := do
  as.check ["set", "binding", "storage"] .externalVariable
  let set ←
    match as.find? "set" with
    | some a => a.singleInt
    | Option.none => pure 0
  let binding ←
    match as.find? "binding" with
    | some a => a.singleInt
    | Option.none => as.missing .externalVariable "binding"
  match as.find? "storage" with
  | some a => do
    a.noArguments
    return (set, binding, true)
  | Option.none => return (set, binding, false)

/-- The workgroup of an entry, which only compute entries have. -/
def entryWorkgroup (as : Attributes) (stage : Stage) : Checked (Option Workgroup) :=
  match as.find? "workgroup" with
  | Option.none => return Option.none
  | some a =>
    if stage = .compute then return some (← a.workgroup)
    else a.error (.notAllowed a.name .otherEntry)

/-- The entry point that a marker makes of a function. -/
def entryOf (as : Attributes) (marker : Attribute) : Checked EntryPoint := do
  let name ← marker.singleName
  match Stage.ofName? name with
  | Option.none => marker.invalid (.unknownStage name)
  | some stage => return ⟨stage, ← as.entryWorkgroup stage⟩

/-- The entry point of a function, if an attribute makes it one. -/
def entry (as : Attributes) : Checked (Option EntryPoint) := do
  as.check ["entry", "stage", "workgroup"] .function
  match as.find? "entry", as.find? "stage" with
  | some _, some second => second.error (.duplicate "entry")
  | some marker, Option.none | Option.none, some marker => return some (← as.entryOf marker)
  | Option.none, Option.none =>
    match as.find? "workgroup" with
    | some a => a.error (.notAllowed a.name .plainFunction)
    | Option.none => return Option.none

end Attributes

namespace Parse

/-- The argument that a token is. -/
def attributeArgument? : Kind → Option AttributeArgument
  | .int n => if n < 4294967296 then some (.int n) else none
  | .uint n => some (.int n.toNat)
  | .ident name => some (.name name)
  | _ => none

/-- A number or a name; a number must fit in an unsigned integer. -/
def attributeArgument : Parse AttributeArgument := do
  match attributeArgument? (← kind) with
  | some a => do
    take
    return a
  | none => unexpected .attributeArgument

/-- A name and, in parentheses, its arguments. -/
def oneAttribute (fuel : Nat) : Parse Attribute := do
  let t ← look
  let (name, _) ← identifier
  if ← eat .lparen then
    let arguments ← separated attributeArgument (fuel + 1)
    expect .rparen
    return ⟨name, arguments, ← spanFrom t.span, t.position⟩
  else return ⟨name, [], ← spanFrom t.span, t.position⟩

/-- The groups of attributes before a declaration. -/
def attributeGroups : Nat → Parse (List Attribute)
  | 0 => spent
  | fuel + 1 => do
    if ← eat .lbracket then
      let group ← separated (oneAttribute fuel) (fuel + 1)
      expect .rbracket
      return group ++ (← attributeGroups fuel)
    else return []

/-- The attributes before a declaration, of which there may be none. -/
def attributes (fuel : Nat) : Parse Attributes := do
  let start ← look
  return ⟨← attributeGroups (fuel + 1), start⟩

/-- Uses the result of a check. -/
def checked {α : Type} (result : Checked α) : Parse α := fun c => do
  return (← result, c)

end Parse

end Shading
