import Shading.Diagnostic
import Shading.Token.Number

/-!
# From text to tokens

At each place blanks and comments are passed over and the longest token is taken, a
keyword before an identifier.  A number that runs straight into letters, digits,
underscores or points is one malformed number.  Reading stops at the first fault.
-/

namespace Shading

/-- What is wrong with a piece of the source. -/
inductive LexFault where
  | invalidCharacter | malformedNumber | unterminatedComment
deriving DecidableEq

namespace LexFault

/-- What a message says of the fault. -/
def message : LexFault → String
  | .invalidCharacter => "invalid character"
  | .malformedNumber => "malformed number literal"
  | .unterminatedComment => "unterminated block comment"

def code : LexFault → Code
  | .invalidCharacter => .invalidCharacter
  | .malformedNumber => .malformedNumber
  | .unterminatedComment => .unterminatedComment

end LexFault

/-- A fault with the text that it covers and its place. -/
structure LexError where
  fault : LexFault
  text : String
  span : Span
  position : Position
deriving DecidableEq

namespace LexError

/-- What the error says, with the text at fault and its place. -/
def message (e : LexError) : String :=
  e.fault.message ++ " `" ++ e.text ++ "` at " ++ e.position.text

/-- A diagnostic quotes at most 24 characters and points at a comment's two opening
characters only. -/
def diagnostic (e : LexError) : Diagnostic :=
  let excerpt := String.ofList (e.text.toList.take 24)
  let d := (Diagnostic.error e.fault.code).withMessage (e.fault.message ++ ": `" ++ excerpt ++ "`")
  match e.fault with
  | .unterminatedComment =>
    d.withLabel ⟨e.span.start, min (e.span.start + 2) Span.limit⟩ "comment starts here"
  | .invalidCharacter | .malformedNumber => d.withLabel e.span "here"

end LexError

namespace Lexer

/-- A character that only separates tokens. -/
def isBlank (c : Char) : Bool :=
  c = ' ' || c = '\t' || c = '\r' || c = '\n' || c = '\x0c'

/-- A character that an identifier starts with. -/
def isWordStart (c : Char) : Bool :=
  ('a' ≤ c && c ≤ 'z') || ('A' ≤ c && c ≤ 'Z') || c = '_'

/-- A character that an identifier goes on with. -/
def isWordChar (c : Char) : Bool := isWordStart c || Number.isDigit c

/-- The word of a keyword or an identifier. -/
def word (cs : List Char) : Kind :=
  let text := String.ofList cs
  match Keyword.ofText? text with
  | some k => .keyword k
  | none => .ident text

/-- The longest symbol at the head of a text. -/
def symbol? (cs : List Char) : Option Symbol :=
  match Symbol.ofChars? (cs.take 2) with
  | some s => some s
  | none => Symbol.ofChars? (cs.take 1)

/-- The number of characters up to and including the first `*/`. -/
def commentLength? : List Char → Option Nat
  | '*' :: '/' :: _ => some 2
  | _ :: rest => (commentLength? rest).map (· + 1)
  | [] => none

/-- What stands at the head of a text, with its number of characters. -/
inductive Piece where
  | skip (length : Nat)
  | token (kind : Kind) (length : Nat)
  | fault (fault : LexFault) (length : Nat)

/-- A number, unless more characters of a word or a point follow it directly. -/
def number (literal : Number.Literal) (cs : List Char) : Piece :=
  let trailing := (cs.drop literal.length).takeWhile fun c => isWordChar c || c = '.'
  if trailing.isEmpty then
    match literal.kind? with
    | some kind => .token kind literal.length
    | none => .fault .malformedNumber literal.length
  else .fault .malformedNumber (literal.length + trailing.length)

/-- The first piece of a text that is not empty. -/
def piece : List Char → Piece
  | [] => .skip 0
  | cs@(c :: _) =>
    if isBlank c then .skip 1
    else if isWordStart c then
      let letters := cs.takeWhile isWordChar
      .token (word letters) letters.length
    else
      match cs with
      | '/' :: '/' :: rest => .skip (2 + (rest.takeWhile (· != '\n')).length)
      | '/' :: '*' :: rest =>
        match commentLength? rest with
        | some n => .skip (2 + n)
        | none => .fault .unterminatedComment (2 + rest.length)
      | _ =>
        match Number.literal? cs with
        | some literal => number literal cs
        | none =>
          match symbol? cs with
          | some s => .token (.symbol s) s.chars.length
          | none => .fault .invalidCharacter 1

/-- The bytes of a text. -/
def byteLength (cs : List Char) : Nat := cs.foldr (fun c n => c.utf8Size + n) 0

/-- The tokens of a text that starts at a byte offset and a position.  Every piece has a
character, so the number of characters bounds the number of steps. -/
def scan : Nat → Nat → Position → List Char → Except LexError (List Token)
  | 0, offset, position, _ | _ + 1, offset, position, [] =>
    .ok [⟨.eof, Span.ofRange offset offset, position⟩]
  | fuel + 1, offset, position, cs@(_ :: _) =>
    let after (length : Nat) := offset + byteLength (cs.take length)
    let place (length : Nat) := (cs.take length).foldl Position.advance position
    match piece cs with
    | .skip length => scan fuel (after length) (place length) (cs.drop length)
    | .token kind length => do
      let rest ← scan fuel (after length) (place length) (cs.drop length)
      return ⟨kind, Span.ofRange offset (after length), position⟩ :: rest
    | .fault fault length =>
      .error ⟨fault, String.ofList (cs.take length), Span.ofRange offset (after length), position⟩

end Lexer

/-- Reads a source text into tokens, the last of which marks the end of the file. -/
def tokenize (source : String) : Except LexError (List Token) :=
  let cs := source.toList
  Lexer.scan cs.length 0 Position.origin cs

end Shading
