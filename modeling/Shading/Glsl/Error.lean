import Shading.Diagnostic
import Shading.Glsl.Settings
import Shading.Types.Builtin

/-!
# Errors of code generation
-/

namespace Shading

/-- What a target cannot express. -/
inductive Construct where
  | optionalBlock | optionBlock | libraryDirective | fileStatement
  | entryParameters | entryResult | computeShader
  | interfaceVariables | storageBuffer | uniformBlock | undeclaredBuffer
  | nestedFunction | nestedDeclaration
  | builtin (function : BuiltinFunction)
deriving DecidableEq

namespace Construct

/-- How a message names the construct. -/
def text : Construct → String
  | .optionalBlock => "`optional` block"
  | .optionBlock => "`option` declaration"
  | .libraryDirective => "`include` directive"
  | .fileStatement => "statement at file scope"
  | .entryParameters => "entry function parameters"
  | .entryResult => "non-void entry function"
  | .computeShader => "compute shader"
  | .interfaceVariables => "`in`/`out` variables"
  | .storageBuffer => "storage buffer"
  | .uniformBlock => "uniform block"
  | .undeclaredBuffer => "buffer of undeclared struct"
  | .nestedFunction => "nested function"
  | .nestedDeclaration => "declaration block inside a function"
  | .builtin f => "built-in `" ++ f.targetName ++ "`"

end Construct

/-- Why no code was generated. -/
inductive CodegenError where
  /-- `required` is the lowest version that has the construct, if any has. -/
  | unsupported (construct : Construct) (required : Option Glsl.Version)
      (configured : Glsl.Version) (span : Span)
  | bindingConflict (first second : String) (binding : Nat) (span firstSpan : Span)
  | missingEntry (stage : Option Stage)
  | ambiguousEntry (stage : Option Stage) (first second : String)
  | assembler (reason : String)
deriving DecidableEq

namespace CodegenError

def code : CodegenError → Code
  | .unsupported .. => .unsupportedConstruct
  | .bindingConflict .. => .bindingConflict
  | .missingEntry .. => .missingEntryPoint
  | .ambiguousEntry .. => .ambiguousEntryPoint
  | .assembler .. => .assembler

def span? : CodegenError → Option Span
  | .unsupported _ _ _ span | .bindingConflict _ _ _ span _ => some span
  | .missingEntry _ | .ambiguousEntry .. | .assembler _ => none

/-- Names the stage that was asked for. -/
def stageSuffix : Option Stage → String
  | some stage => " for stage `" ++ stage.name ++ "`"
  | none => ""

/-- What the error says, with the versions involved. -/
def message : CodegenError → String
  | .unsupported construct required configured _ =>
    construct.text ++ " is not supported by GLSL " ++ configured.text ++
      match required with
      | some v => " (requires " ++ v.text ++ ")"
      | none => ""
  | .bindingConflict first second binding _ _ =>
    "externals `" ++ first ++ "` and `" ++ second ++ "` both map to binding " ++ toString binding
  | .missingEntry stage => "no entry function" ++ stageSuffix stage
  | .ambiguousEntry stage first second =>
    "entry functions `" ++ first ++ "` and `" ++ second ++ "` both qualify" ++ stageSuffix stage
  | .assembler reason => "assembler failed: " ++ reason

/-- The diagnostic of an error, with its labels and what to do about it. -/
def diagnostic (e : CodegenError) : Diagnostic :=
  let d := (Diagnostic.error e.code).withMessage e.message
  match e with
  | .unsupported _ required _ span =>
    let d := d.withLabel span "cannot be generated"
    match required with
    | some v => d.withNote ("raise the target to GLSL " ++ v.text)
    | none => d
  | .bindingConflict _ _ _ span firstSpan =>
    ((d.withLabel span "collides after flattening descriptor sets").withRelated firstSpan
      "binding first used here").withNote "adjust `set`/`binding` or raise `bindings_per_set`"
  | .missingEntry _ | .ambiguousEntry .. =>
    d.withNote "extract a single stage or set a fixed stage"
  | .assembler _ => d

end CodegenError

end Shading
