import Shading.Token.Lexer

/-!
# Errors of reading a file

What the grammar asked for, what it found instead, and where.  Reading stops at the
first error.
-/

namespace Shading

/-- What the grammar asks for at a place. -/
inductive Expected where
  | symbol (s : Symbol)
  | keyword (k : Keyword)
  | endOfFile | identifier | type | arraySize | declaration | attributeArgument
  | libraryName | dotOrSemicolon | constructorArguments
deriving DecidableEq

namespace Expected

/-- How a message names what was expected. -/
def text : Expected → String
  | .symbol s => (Kind.symbol s).displayName
  | .keyword k => (Kind.keyword k).displayName
  | .endOfFile => "end of file"
  | .identifier => "identifier"
  | .type => "type"
  | .arraySize => "array size"
  | .declaration => "declaration"
  | .attributeArgument => "attribute argument"
  | .libraryName => "library name"
  | .dotOrSemicolon => "`.` or `;`"
  | .constructorArguments => "`(` after type name"

end Expected

/-- What an attribute is attached to. -/
inductive AttributeTarget where
  | struct | block | variable | optional | library | option | constant
  | interfaceVariable | externalVariable | function
  | locatedVariable | plainFunction | otherEntry
deriving DecidableEq

namespace AttributeTarget

/-- How a message names the target. -/
def text : AttributeTarget → String
  | .struct => "a struct"
  | .block => "a declaration block"
  | .variable => "a variable"
  | .optional => "an optional block"
  | .library => "an include"
  | .option => "an option"
  | .constant => "a constant"
  | .interfaceVariable => "an interface variable"
  | .externalVariable => "an external variable"
  | .function => "a function"
  | .locatedVariable => "a variable that already has a location"
  | .plainFunction => "a function that is not an entry point"
  | .otherEntry => "a non-compute entry point"

end AttributeTarget

/-- Why the arguments of an attribute are wrong. -/
inductive ArgumentFault where
  | takesNone | wantsInteger | wantsName
  | unknownVariable (name : String)
  | unknownStage (name : String)
  | sizeCount | zeroSize | sizeIsName
deriving DecidableEq

namespace ArgumentFault

/-- How a message says what is wrong with the arguments. -/
def text : ArgumentFault → String
  | .takesNone => "takes no arguments"
  | .wantsInteger => "expected one integer"
  | .wantsName => "expected one name"
  | .unknownVariable name => "unknown built-in variable `" ++ name ++ "`"
  | .unknownStage name => "unknown stage `" ++ name ++ "`"
  | .sizeCount => "expected one to three sizes"
  | .zeroSize => "sizes must be positive"
  | .sizeIsName => "expected integer sizes"

end ArgumentFault

/-- What is wrong with an attribute. -/
inductive AttributeFault where
  | unknown (name : String)
  | invalidArgument (name : String) (reason : ArgumentFault)
  | missing (target : AttributeTarget) (name : String)
  | duplicate (name : String)
  | notAllowed (name : String) (target : AttributeTarget)
deriving DecidableEq

namespace AttributeFault

/-- What the fault says. -/
def message : AttributeFault → String
  | .unknown name => "unknown attribute `" ++ name ++ "`"
  | .invalidArgument name reason =>
    "invalid argument for attribute `" ++ name ++ "`: " ++ reason.text
  | .missing target name => target.text ++ " requires a `" ++ name ++ "` attribute"
  | .duplicate name => "attribute `" ++ name ++ "` is given more than once"
  | .notAllowed name target => "attribute `" ++ name ++ "` is not allowed on " ++ target.text

def code : AttributeFault → Code
  | .unknown _ => .unknownAttribute
  | .invalidArgument _ _ => .invalidArgument
  | .missing _ _ => .missingAttribute
  | .duplicate _ => .duplicateAttribute
  | .notAllowed _ _ => .misplacedAttribute

end AttributeFault

/-- Why reading stops. -/
inductive ParseFault where
  | unexpected (expected : Expected) (found : Kind)
  | expectedExpression (found : Kind)
  | unknownType (name : String)
  | attribute (fault : AttributeFault)
  | unresolvedLibrary (name : String)
  | libraryCycle (name : String)
  | integerOutOfRange (value : Nat)
  | lexical (fault : LexFault) (text : String)
  /-- A loop or the nesting came to the bound that reading is given, which no file does. -/
  | spent
deriving DecidableEq

namespace ParseFault

def code : ParseFault → Code
  | .unexpected _ _ => .unexpectedToken
  | .expectedExpression _ => .expectedExpression
  | .unknownType _ => .unknownType
  | .attribute fault => fault.code
  | .unresolvedLibrary _ => .unresolvedLibrary
  | .libraryCycle _ => .includeCycle
  | .integerOutOfRange _ => .integerOutOfRange
  | .lexical fault _ => fault.code
  | .spent => .unexpectedToken

/-- The message without its place. -/
def message : ParseFault → String
  | .unexpected expected found => "expected " ++ expected.text ++ ", found " ++ found.describe
  | .expectedExpression found => "expected expression, found " ++ found.describe
  | .unknownType name => "unknown type `" ++ name ++ "`"
  | .attribute fault => fault.message
  | .unresolvedLibrary name => "library `" ++ name ++ "` could not be resolved"
  | .libraryCycle name => "library `" ++ name ++ "` includes itself"
  | .integerOutOfRange value =>
    "integer literal `" ++ toString value ++ "` does not fit in an int"
  | .lexical fault text => fault.message ++ " `" ++ text ++ "`"
  | .spent => "reading came to its bound"

end ParseFault

/-- A fault and its place. -/
structure ParseError where
  fault : ParseFault
  span : Span
  position : Position
deriving DecidableEq

namespace ParseError

/-- An error of the lexer, at its place. -/
def ofLexical (e : LexError) : ParseError := ⟨.lexical e.fault e.text, e.span, e.position⟩

/-- The same fault at another place. -/
def relocate (e : ParseError) (span : Span) (position : Position) : ParseError :=
  { e with span, position }

def code (e : ParseError) : Code := e.fault.code

/-- What the error says, with its place. -/
def message (e : ParseError) : String := e.fault.message ++ " at " ++ e.position.text

/-- Where the diagnostic has no label of its own it repeats the whole message. -/
def diagnostic (e : ParseError) : Diagnostic :=
  let d := Diagnostic.error e.code
  match e.fault with
  | .lexical fault text => (LexError.mk fault text e.span e.position).diagnostic
  | .attribute fault => (d.withMessage fault.message).withLabel e.span "attribute here"
  | .unexpected expected _ =>
    (d.withMessage e.fault.message).withLabel e.span ("expected " ++ expected.text)
  | .unknownType _ =>
    (d.withMessage e.fault.message).withLabel e.span "not a built-in type or declared struct"
  | .integerOutOfRange _ =>
    ((d.withMessage e.message).withLabel e.span "out of range").withNote
      "only a negated literal may reach -2147483648"
  | .expectedExpression _ | .unresolvedLibrary _ | .libraryCycle _ | .spent =>
    (d.withMessage e.message).withLabel e.span "here"

end ParseError

end Shading
