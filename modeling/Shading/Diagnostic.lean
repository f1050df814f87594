import Shading.Source.Span

/-!
# Diagnostics

What went wrong, where, and what is worth knowing about it.  Each phase stops at its
first error, so every diagnostic is an error.
-/

namespace Shading

/-- The phase that reports an error. -/
inductive Phase where
  | lexer | parser | specialization | extraction | codegen
deriving DecidableEq

namespace Phase

/-- How a diagnostic names the phase. -/
def name : Phase → String
  | .lexer => "lexer"
  | .parser => "parser"
  | .specialization => "specialization"
  | .extraction => "extraction"
  | .codegen => "codegen"

end Phase

/-- The kind of an error. -/
inductive Code where
  | invalidCharacter | malformedNumber | unterminatedComment
  | unexpectedToken | expectedExpression | unknownType | unknownAttribute | invalidArgument
  | missingAttribute | duplicateAttribute | misplacedAttribute | unresolvedLibrary
  | includeCycle | integerOutOfRange
  | unresolvedOption | nonConstantCondition | optionTypeMismatch
  | stageNotFound | duplicateLocation | duplicateBinding | structRedefinition
  | undefinedIdentifier | undefinedFunction | duplicateEntryPoint | unspecializedOptional
  | unsupportedConstruct | bindingConflict | missingEntryPoint | ambiguousEntryPoint
  | assembler
deriving DecidableEq

namespace Code

/-- Every code, in the order of the phases that report them. -/
def all : List Code :=
  [.invalidCharacter, .malformedNumber, .unterminatedComment, .unexpectedToken,
    .expectedExpression, .unknownType, .unknownAttribute, .invalidArgument, .missingAttribute,
    .duplicateAttribute, .misplacedAttribute, .unresolvedLibrary, .includeCycle,
    .integerOutOfRange, .unresolvedOption, .nonConstantCondition, .optionTypeMismatch,
    .stageNotFound, .duplicateLocation, .duplicateBinding, .structRedefinition,
    .undefinedIdentifier, .undefinedFunction, .duplicateEntryPoint, .unspecializedOptional,
    .unsupportedConstruct, .bindingConflict, .missingEntryPoint, .ambiguousEntryPoint,
    .assembler]

/-- The printed code; its first digit tells the phase. -/
def text : Code → String
  | .invalidCharacter => "E0001"
  | .malformedNumber => "E0002"
  | .unterminatedComment => "E0003"
  | .unexpectedToken => "E1001"
  | .expectedExpression => "E1002"
  | .unknownType => "E1003"
  | .unknownAttribute => "E1004"
  | .invalidArgument => "E1005"
  | .missingAttribute => "E1006"
  | .duplicateAttribute => "E1007"
  | .misplacedAttribute => "E1008"
  | .unresolvedLibrary => "E1009"
  | .includeCycle => "E1010"
  | .integerOutOfRange => "E1011"
  | .unresolvedOption => "E2001"
  | .nonConstantCondition => "E2002"
  | .optionTypeMismatch => "E2003"
  | .stageNotFound => "E3001"
  | .duplicateLocation => "E3002"
  | .duplicateBinding => "E3003"
  | .structRedefinition => "E3004"
  | .undefinedIdentifier => "E3005"
  | .undefinedFunction => "E3006"
  | .duplicateEntryPoint => "E3007"
  | .unspecializedOptional => "E3008"
  | .unsupportedConstruct => "E4001"
  | .bindingConflict => "E4002"
  | .missingEntryPoint => "E4003"
  | .ambiguousEntryPoint => "E4004"
  | .assembler => "E4005"

/-- The code with this text. -/
def ofText? (text : String) : Option Code := all.find? fun c => c.text = text

/-- The phase that reports the code. -/
def phase : Code → Phase
  | .invalidCharacter | .malformedNumber | .unterminatedComment => .lexer
  | .unexpectedToken | .expectedExpression | .unknownType | .unknownAttribute
  | .invalidArgument | .missingAttribute | .duplicateAttribute | .misplacedAttribute
  | .unresolvedLibrary | .includeCycle | .integerOutOfRange => .parser
  | .unresolvedOption | .nonConstantCondition | .optionTypeMismatch => .specialization
  | .stageNotFound | .duplicateLocation | .duplicateBinding | .structRedefinition
  | .undefinedIdentifier | .undefinedFunction | .duplicateEntryPoint
  | .unspecializedOptional => .extraction
  | .unsupportedConstruct | .bindingConflict | .missingEntryPoint | .ambiguousEntryPoint
  | .assembler => .codegen

theorem ofText?_text (c : Code) : ofText? c.text = some c := by
  cases c <;> decide

end Code

/-- A message at a place in the source. -/
structure Label where
  span : Span
  message : String
  isPrimary : Bool
deriving DecidableEq

/-- What is reported of a failure: the message, the places it points at, and notes. -/
structure Diagnostic where
  code : Code
  message : String
  labels : List Label
  notes : List String

namespace Diagnostic

/-- A diagnostic that says nothing yet. -/
def error (code : Code) : Diagnostic := ⟨code, "", [], []⟩

/-- The same diagnostic with another message. -/
def withMessage (d : Diagnostic) (message : String) : Diagnostic := { d with message }

/-- Adds a label unless its span is the dummy span, which points at nothing. -/
def addLabel (d : Diagnostic) (label : Label) : Diagnostic :=
  if label.span = Span.dummy then d else { d with labels := d.labels ++ [label] }

/-- Points at the error. -/
def withLabel (d : Diagnostic) (span : Span) (message : String) : Diagnostic :=
  d.addLabel ⟨span, message, true⟩

/-- Points at something related to the error. -/
def withRelated (d : Diagnostic) (span : Span) (message : String) : Diagnostic :=
  d.addLabel ⟨span, message, false⟩

/-- The diagnostic with one more note at its end. -/
def withNote (d : Diagnostic) (note : String) : Diagnostic :=
  { d with notes := d.notes ++ [note] }

/-- Where the error is: the span of the first primary label. -/
def primarySpan? (d : Diagnostic) : Option Span := (d.labels.find? (·.isPrimary)).map (·.span)

/-- The headline of a diagnostic. -/
def text (d : Diagnostic) : String := "error[" ++ d.code.text ++ "]: " ++ d.message

theorem addLabel_dummy (d : Diagnostic) (message : String) (isPrimary : Bool) :
    d.addLabel ⟨Span.dummy, message, isPrimary⟩ = d := by
  simp [addLabel]

end Diagnostic

end Shading
