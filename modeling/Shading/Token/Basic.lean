import Shading.Binary32.Shortest
import Shading.Source.Span

/-!
# Tokens

Type names and built-in function names are plain identifiers.  Literals carry no sign;
an integer literal may be one larger than the largest integer, for the sake of the
smallest one, and the parser checks it once the sign is known.
-/

namespace Shading

/-- A word that is no identifier. -/
inductive Keyword where
  | struct | input | output | external | option | optional | const | include | if | else
  | for | while | do | break | continue | return | discard | true | false
deriving DecidableEq

namespace Keyword

def all : List Keyword :=
  [.struct, .input, .output, .external, .option, .optional, .const, .include, .if, .else,
    .for, .while, .do, .break, .continue, .return, .discard, .true, .false]

/-- How the keyword is written. -/
def text : Keyword → String
  | .struct => "struct"
  | .input => "input"
  | .output => "output"
  | .external => "external"
  | .option => "option"
  | .optional => "optional"
  | .const => "const"
  | .include => "include"
  | .if => "if"
  | .else => "else"
  | .for => "for"
  | .while => "while"
  | .do => "do"
  | .break => "break"
  | .continue => "continue"
  | .return => "return"
  | .discard => "discard"
  | .true => "true"
  | .false => "false"

/-- The keyword that is written so. -/
def ofText? (text : String) : Option Keyword := all.find? fun k => k.text = text

theorem ofText?_text (k : Keyword) : ofText? k.text = some k := by
  cases k <;> decide

end Keyword

/-- A delimiter or an operator. -/
inductive Symbol where
  | lparen | rparen | lbrace | rbrace | lbracket | rbracket | comma | semicolon | colon
  | dot | question | eq | eqEq | notEq | lt | ltEq | gt | gtEq | plus | minus | star | slash
  | percent | bang | tilde | amp | pipe | caret | ampAmp | pipePipe | shl | shr
  | plusEq | minusEq | starEq | slashEq
deriving DecidableEq

namespace Symbol

def all : List Symbol :=
  [.lparen, .rparen, .lbrace, .rbrace, .lbracket, .rbracket, .comma, .semicolon, .colon,
    .dot, .question, .eq, .eqEq, .notEq, .lt, .ltEq, .gt, .gtEq, .plus, .minus, .star, .slash,
    .percent, .bang, .tilde, .amp, .pipe, .caret, .ampAmp, .pipePipe, .shl, .shr,
    .plusEq, .minusEq, .starEq, .slashEq]

/-- The one or two characters of a symbol. -/
def chars : Symbol → List Char
  | .lparen => ['(']
  | .rparen => [')']
  | .lbrace => ['{']
  | .rbrace => ['}']
  | .lbracket => ['[']
  | .rbracket => [']']
  | .comma => [',']
  | .semicolon => [';']
  | .colon => [':']
  | .dot => ['.']
  | .question => ['?']
  | .eq => ['=']
  | .eqEq => ['=', '=']
  | .notEq => ['!', '=']
  | .lt => ['<']
  | .ltEq => ['<', '=']
  | .gt => ['>']
  | .gtEq => ['>', '=']
  | .plus => ['+']
  | .minus => ['-']
  | .star => ['*']
  | .slash => ['/']
  | .percent => ['%']
  | .bang => ['!']
  | .tilde => ['~']
  | .amp => ['&']
  | .pipe => ['|']
  | .caret => ['^']
  | .ampAmp => ['&', '&']
  | .pipePipe => ['|', '|']
  | .shl => ['<', '<']
  | .shr => ['>', '>']
  | .plusEq => ['+', '=']
  | .minusEq => ['-', '=']
  | .starEq => ['*', '=']
  | .slashEq => ['/', '=']

/-- How the symbol is written. -/
def text (s : Symbol) : String := String.ofList s.chars

/-- The symbol that is written so. -/
def ofChars? (cs : List Char) : Option Symbol := all.find? fun s => s.chars = cs

theorem ofChars?_chars (s : Symbol) : ofChars? s.chars = some s := by
  cases s <;> decide

end Symbol

/-- What a token is. No literal carries a sign, so the value of an integer is a natural
number; a minus sign before it is a symbol of its own. -/
inductive Kind where
  | int (value : Nat)
  | uint (value : UInt32)
  | float (value : Binary32)
  | ident (name : String)
  | keyword (k : Keyword)
  | symbol (s : Symbol)
  | eof
deriving DecidableEq

namespace Kind

/-- The name of a kind of token, whatever its payload. -/
def displayName : Kind → String
  | .int _ => "integer"
  | .uint _ => "unsigned integer"
  | .float _ => "float"
  | .ident _ => "identifier"
  | .keyword k => "`" ++ k.text ++ "`"
  | .symbol s => "`" ++ s.text ++ "`"
  | .eof => "end of file"

/-- A token as a message names it: names and literals with their text. -/
def describe : Kind → String
  | .ident name => "identifier `" ++ name ++ "`"
  | .int v => "integer `" ++ toString v ++ "`"
  | .uint v => "integer `" ++ toString v.toNat ++ "u`"
  | .float x => "float `" ++ x.text ++ "`"
  | k => k.displayName

/-- A token as a listing shows it. -/
def listing : Kind → String
  | .int v => "Int(" ++ toString v ++ ")"
  | .uint v => "UInt(" ++ toString v.toNat ++ ")"
  | .float x => "Float(" ++ x.text ++ ")"
  | .ident name => "Ident(" ++ name ++ ")"
  | k => k.displayName

end Kind

/-- A token and where it stands. -/
structure Token where
  kind : Kind
  span : Span
  position : Position
deriving DecidableEq

namespace Token

/-- The end of the input where no token marks it. -/
def eof : Token := ⟨.eof, Span.dummy, Position.nowhere⟩

end Token

/-- The tokens without an end-of-file token at the end. -/
def withoutEof (tokens : List Token) : List Token :=
  match tokens.getLast? with
  | some t => if t.kind = .eof then tokens.dropLast else tokens
  | none => tokens

end Shading
