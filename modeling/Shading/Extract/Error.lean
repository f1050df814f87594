import Shading.Diagnostic
import Shading.Types.Stage

/-!
# Errors of extracting a stage
-/

namespace Shading

/-- Which side of a stage a variable is on. -/
inductive Direction where
  | input | output
deriving DecidableEq

namespace Direction

/-- How a message names the direction. -/
def name : Direction → String
  | .input => "input"
  | .output => "output"

end Direction

/-- What extracting a stage fails with. -/
inductive ExtractError where
  | stageNotFound (stage : Stage)
  | duplicateLocation (name other : String) (location : Nat) (direction : Direction) (span : Span)
  | duplicateBinding (name other : String) (set binding : Nat) (span : Span)
  | structRedefinition (name : String) (span : Span)
  | undefinedIdentifier (name : String) (span : Span)
  | undefinedFunction (name : String) (span : Span)
  | duplicateEntry (stage : Stage) (first second : String) (span firstSpan : Span)
  | unspecialized (span : Span)
deriving DecidableEq

namespace ExtractError

def span? : ExtractError → Option Span
  | .stageNotFound _ => none
  | .duplicateLocation _ _ _ _ span | .duplicateBinding _ _ _ _ span
  | .structRedefinition _ span | .undefinedIdentifier _ span | .undefinedFunction _ span
  | .duplicateEntry _ _ _ span _ | .unspecialized span => some span

def code : ExtractError → Code
  | .stageNotFound .. => .stageNotFound
  | .duplicateLocation .. => .duplicateLocation
  | .duplicateBinding .. => .duplicateBinding
  | .structRedefinition .. => .structRedefinition
  | .undefinedIdentifier .. => .undefinedIdentifier
  | .undefinedFunction .. => .undefinedFunction
  | .duplicateEntry .. => .duplicateEntryPoint
  | .unspecialized .. => .unspecializedOptional

/-- What the error says. -/
def message : ExtractError → String
  | .stageNotFound stage => "no entry function for stage `" ++ stage.name ++ "`"
  | .duplicateLocation name other location direction _ =>
    direction.name ++ " `" ++ name ++ "` uses location " ++ toString location ++
      ", already taken by `" ++ other ++ "`"
  | .duplicateBinding name other set binding _ =>
    "external `" ++ name ++ "` uses set " ++ toString set ++ " binding " ++ toString binding ++
      ", already taken by `" ++ other ++ "`"
  | .structRedefinition name _ =>
    "struct `" ++ name ++ "` is declared twice with different fields"
  | .undefinedIdentifier name _ =>
    "`" ++ name ++ "` does not name a variable, input, output, external or const"
  | .undefinedFunction name _ => "call to undefined function `" ++ name ++ "`"
  | .duplicateEntry stage first second _ _ =>
    "stage `" ++ stage.name ++ "` has two entry functions: `" ++ first ++ "` and `" ++ second ++
      "`"
  | .unspecialized _ => "`optional` block in a tree that was not specialized"

/-- The diagnostic of an error, with labels for each place involved and a hint where one helps. -/
def diagnostic (e : ExtractError) : Diagnostic :=
  let d := (Diagnostic.error e.code).withMessage e.message
  match e with
  | .stageNotFound stage =>
    d.withNote ("mark a function with `[entry(" ++ stage.name ++ ")]` to compile this stage")
  | .duplicateLocation _ _ _ _ span | .duplicateBinding _ _ _ _ span =>
    d.withLabel span "reachable from this stage"
  | .structRedefinition _ span => d.withLabel span "conflicting declaration"
  | .undefinedIdentifier _ span => d.withLabel span "not found in this scope"
  | .undefinedFunction _ span => d.withLabel span "neither declared nor built in"
  | .duplicateEntry _ _ _ span firstSpan =>
    (d.withLabel span "second entry function").withRelated firstSpan "first entry function"
  | .unspecialized span =>
    (d.withLabel span "unresolved block").withNote "run the specializer before extracting stages"

end ExtractError

end Shading
