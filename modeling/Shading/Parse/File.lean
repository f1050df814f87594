import Shading.Parse.Attribute
import Shading.Parse.Stmt

/-!
# Reading a file

A file is a sequence of declarations, in any order.
-/

namespace Shading

namespace Parse

/-- `name: Type;` -/
def structField (names : Names) : Parse StructField := do
  let (name, _) ← identifier
  expect .colon
  let t ← type names
  expect .semicolon
  return ⟨name, t⟩

/-- A struct from its keyword on; a semicolon may follow. -/
def struct (names : Names) (fuel : Nat) (start : Span) : Parse Stmt := do
  take
  let (name, _) ← identifier
  expect .lbrace
  let fields ← upTo (.symbol .rbrace) (structField names) (fuel + 1)
  expect .rbrace
  let _ ← eat .semicolon
  return .struct (← spanFrom start) ⟨name, fields⟩

/-- The attributes, the type and the name that every entry of a block starts with. -/
def entryHead (names : Names) (fuel : Nat) : Parse (Attributes × Ty × String) := do
  let as ← attributes fuel
  let t ← type names
  let (name, _) ← identifier
  return (as, t, name)

/-- An entry of an input or output block. Its attributes are checked after its semicolon. -/
def interfaceEntry (names : Names) (fuel : Nat) : Parse InterfaceVariable := do
  let (as, t, name) ← entryHead names fuel
  expect .semicolon
  let slot ← checked as.slot
  return ⟨name, t, slot, ← spanFrom as.start.span⟩

/-- An entry of a block of external variables. Its attributes are checked after its semicolon. -/
def externalEntry (names : Names) (fuel : Nat) : Parse ExternalVariable := do
  let (as, t, name) ← entryHead names fuel
  expect .semicolon
  let (set, binding, storage) ← checked as.binding
  return ⟨name, t, set, binding, storage, ← spanFrom as.start.span⟩

/-- An entry of an option block, with its default if it has one. -/
def optionEntry (names : Names) (fuel : Nat) : Parse OptionDeclaration := do
  let (as, t, name) ← entryHead names fuel
  checked (as.none .option)
  let default ←
    if ← eat .eq then
      let e ← expression names fuel
      pure (some e)
    else pure none
  expect .semicolon
  return ⟨name, t, default, ← spanFrom as.start.span⟩

/-- An entry of a block of constants; it has a value. -/
def constEntry (names : Names) (fuel : Nat) : Parse ConstDeclaration := do
  let (as, t, name) ← entryHead names fuel
  checked (as.none .constant)
  expect .eq
  let value ← expression names fuel
  expect .semicolon
  return ⟨name, t, value, ← spanFrom as.start.span⟩

/-- The entries of a block between braces; a semicolon may follow. -/
def entries {α : Type} (entry : Parse α) (fuel : Nat) : Parse (List α) := do
  take
  expect .lbrace
  let list ← upTo (.symbol .rbrace) entry (fuel + 1)
  expect .rbrace
  let _ ← eat .semicolon
  return list

/-- A parameter with its type, spanning both. -/
def parameter (names : Names) : Parse Parameter := do
  let start ← look
  let t ← type names
  let (name, _) ← identifier
  return ⟨name, t, ← spanFrom start.span⟩

/-- The parameters and the body of a function. -/
def function (names : Names) (fuel : Nat) (as : Attributes) (returnType : Ty) (name : String) :
    Parse Stmt := do
  let entry ← checked as.entry
  expect .lparen
  let parameters ←
    if (← kind) = .symbol .rparen then pure []
    else separated (parameter names) (fuel + 1)
  expect .rparen
  let body ← braced (statement names fuel) fuel
  return .function (← spanFrom as.start.span) ⟨name, parameters, returnType, entry⟩ body

/-- The parts of a library name after a part. -/
def libraryParts : Nat → Parse (List String)
  | 0 => spent
  | fuel + 1 => do
    if ← eat .dot then
      let (part, _) ← identifier
      return part :: (← libraryParts fuel)
    else return []

/-- A library directive, which stays a statement. -/
def library (fuel : Nat) (start : Span) : Parse Stmt := do
  take
  let (part, _) ← identifier
  let rest ← libraryParts (fuel + 1)
  expect .semicolon
  return .library (← spanFrom start) (part :: rest)

/-- A declaration; `fuel` bounds the nesting and the length of every list. -/
def item (names : Names) : Nat → Parse Stmt
  | 0 => spent
  | fuel + 1 => do
    let as ← attributes fuel
    let start := as.start.span
    let t ← look
    match t.kind with
    | .keyword .struct => do
      checked (as.none .struct)
      struct names fuel start
    | .keyword .input => do
      checked (as.none .block)
      let vs ← entries (interfaceEntry names fuel) fuel
      return .inputs (← spanFrom start) vs
    | .keyword .output => do
      checked (as.none .block)
      let vs ← entries (interfaceEntry names fuel) fuel
      return .outputs (← spanFrom start) vs
    | .keyword .external => do
      checked (as.none .block)
      let vs ← entries (externalEntry names fuel) fuel
      return .externals (← spanFrom start) vs
    | .keyword .option => do
      checked (as.none .block)
      let os ← entries (optionEntry names fuel) fuel
      return .options (← spanFrom start) os
    | .keyword .const => do
      if (← get).nextKind = .symbol .lbrace then do
        checked (as.none .block)
        let cs ← entries (constEntry names fuel) fuel
        return .consts (← spanFrom start) cs
      else do
        checked (as.none .variable)
        variableDeclaration names fuel
    | .keyword .optional => do
      checked (as.none .optional)
      optional names (braced (item names fuel) fuel) fuel fuel
    | .keyword .include => do
      checked (as.none .library)
      library fuel t.span
    | .ident _ => do
      let type ← type names
      let (name, _) ← identifier
      if (← kind) = .symbol .lparen then function names fuel as type name
      else do
        checked (as.none .variable)
        finishVariable names fuel start false type name
    | _ => unexpected .declaration

/-- All declarations up to the end of the file. -/
def file (names : Names) (fuel : Nat) : Parse Stmt := do
  let start ← look
  let items ← upTo .eof (item names fuel) (fuel + 1)
  if (← kind) = .eof then
    match items with
    | [] => return .block start.span []
    | items => return .block (← spanFrom start.span) items
  else unexpected .endOfFile

end Parse

/-- Reads the tokens of a file; library directives stay statements. -/
def parseTokens (tokens : List Token) (registry : Registry) : Except ParseError Stmt := do
  let (tree, _) ← Parse.file (Names.ofTokens registry tokens) (tokens.length + 4)
    (Cursor.ofTokens tokens)
  return tree

/-- Reads a source text. -/
def parseSource (source : String) (registry : Registry) : Except ParseError Stmt :=
  match tokenize source with
  | .ok tokens => parseTokens tokens registry
  | .error e => .error (.ofLexical e)

end Shading
