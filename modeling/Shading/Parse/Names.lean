import Shading.Parse.Cursor
import Shading.Types.Registry

/-!
# Type names

A name is a type when the registry says so or when some struct of the file has it,
wherever the struct is declared.  A declaration is told from an expression by looking
ahead past the array brackets of its type.
-/

namespace Shading

/-- The names that a file is read with. -/
structure Names where
  registry : Registry
  structs : List String

namespace Names

/-- The names that follow the word `struct`. -/
def structNames : List Token → List String
  | ⟨.keyword .struct, _, _⟩ :: t :: rest =>
    match t.kind with
    | .ident name => name :: structNames (t :: rest)
    | _ => structNames (t :: rest)
  | _ :: rest => structNames rest
  | [] => []

/-- The names of a file: those of the registry and the structs that the tokens declare. -/
def ofTokens (registry : Registry) (tokens : List Token) : Names :=
  ⟨registry, structNames tokens⟩

/-- The type of a name; the registry comes before the structs. -/
def type? (names : Names) (name : String) : Option Ty :=
  match names.registry.type? name with
  | some t => some t
  | none => if name ∈ names.structs then some (.struct name) else none

/-- Whether array brackets, if any, and then a name stand at the head of the tokens. -/
def nameFollows : List Token → Bool
  | ⟨.symbol .lbracket, _, _⟩ :: ⟨.symbol .rbracket, _, _⟩ :: rest => nameFollows rest
  | ⟨.symbol .lbracket, _, _⟩ :: ⟨.int _, _, _⟩ :: ⟨.symbol .rbracket, _, _⟩ :: rest =>
    nameFollows rest
  | ⟨.symbol .lbracket, _, _⟩ :: ⟨.uint _, _, _⟩ :: ⟨.symbol .rbracket, _, _⟩ :: rest =>
    nameFollows rest
  | ⟨.ident _, _, _⟩ :: _ => true
  | _ => false

/-- Whether the tokens start with a type and a name. -/
def startsDeclaration (names : Names) : List Token → Bool
  | ⟨.ident name, _, _⟩ :: rest => (names.type? name).isSome && nameFollows rest
  | _ => false

end Names

namespace Parse

/-- One more than the largest array size. -/
def arraySizeBound : Nat := 4294967296

/-- The number between array brackets, if the token is one that fits. -/
def arraySize? : Kind → Option Nat
  | .int n => if n < arraySizeBound then some n else none
  | .uint n => some n.toNat
  | _ => none

/-- The array brackets at the head of some tokens, the outermost dimension first. -/
def dimensions (previous : Span) : List Token → Except ParseError (List ArraySize × Cursor)
  | ⟨.symbol .lbracket, bracket, _⟩ :: rest =>
    match rest with
    | ⟨.symbol .rbracket, close, _⟩ :: rest => do
      let (dims, c) ← dimensions close rest
      return (.implicit :: dims, c)
    | size :: rest =>
      match arraySize? size.kind with
      | none => .error ⟨.unexpected .arraySize size.kind, size.span, size.position⟩
      | some n =>
        match rest with
        | ⟨.symbol .rbracket, close, _⟩ :: rest => do
          let (dims, c) ← dimensions close rest
          return (.fixed n :: dims, c)
        | rest => (unexpected (.symbol .rbracket) : Parse (List ArraySize)) ⟨rest, size.span⟩
    | [] => (unexpected .arraySize : Parse (List ArraySize)) ⟨[], bracket⟩
  | rest => .ok ([], ⟨rest, previous⟩)

/-- Array brackets after a type; the first ones written are the outermost dimension. -/
def arraySuffix (base : Ty) : Parse Ty := fun c => do
  let (dims, c) ← dimensions c.previous c.rest
  return (dims.foldr (fun size t => .array t size) base, c)

/-- A type name and its array brackets. -/
def type (names : Names) : Parse Ty := do
  let t ← look
  match t.kind with
  | .ident name =>
    match names.type? name with
    | some base => do
      take
      arraySuffix base
    | none => failAt t (.unknownType name)
  | _ => unexpected .type

/-- Whether a declaration stands at the cursor. -/
def atDeclaration (names : Names) : Parse Bool := fun c => .ok (names.startsDeclaration c.rest, c)

end Parse

end Shading
