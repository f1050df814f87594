/-!
# Destinations of generated text

An emitter collects text piece by piece.  A backend renders a whole text first and then
feeds it in line by line, so a failed generation leaves the emitter as it was.
-/

namespace Shading

/-- Where generated text goes. -/
structure Emitter where
  text : String
deriving DecidableEq, Inhabited

namespace Emitter

def empty : Emitter := ⟨""⟩

/-- Adds text at the end. -/
def emit (e : Emitter) (text : String) : Emitter := ⟨e.text ++ text⟩

/-- Ends the current line. -/
def newline (e : Emitter) : Emitter := e.emit "\n"

/-- Adds the spaces that a line starts with. -/
def indent (e : Emitter) (spaces : Nat) : Emitter :=
  e.emit (String.ofList (List.replicate spaces ' '))

/-- Makes the text end in exactly one line feed; an empty text stays empty. -/
def endLine (e : Emitter) : Emitter :=
  if e.text.isEmpty then e
  else
    let body := (e.text.toList.reverse.dropWhile (· = '\n')).reverse
    ⟨String.ofList (body ++ ['\n'])⟩

/-- The lines of a text.  A line ends at a line feed, with a carriage return right before
it if there is one; the end of the text ends a line that has characters. -/
def linesOf (line : List Char) : List Char → List (List Char)
  | [] => if line.isEmpty then [] else [line.reverse]
  | '\n' :: rest =>
    let content :=
      match line with
      | '\r' :: line => line
      | line => line
    content.reverse :: linesOf [] rest
  | c :: rest => linesOf (c :: line) rest

/-- One line: its leading spaces as indentation, then the rest and a line feed. -/
def emitLine (e : Emitter) (line : List Char) : Emitter :=
  let content := line.dropWhile (· = ' ')
  ((e.indent (line.length - content.length)).emit (String.ofList content)).newline

/-- Feeds a rendered text in line by line. -/
def emitLines (e : Emitter) (text : String) : Emitter :=
  (linesOf [] text.toList).foldl emitLine e

end Emitter

end Shading
