/-!
# Laying out lines

A writer remembers the text so far, the depth of its indentation and whether the current
line is open, that is, has begun and has no line feed yet.
-/

namespace Shading

/-- The text is kept with its last character first. -/
structure Writer where
  reversed : List Char
  depth : Nat
  isOpen : Bool

namespace Writer

def empty : Writer := ⟨[], 0, false⟩

/-- What has been written. -/
def text (w : Writer) : String := String.ofList w.reversed.reverse

/-- Adds characters where the text ends, whatever the state of the line. -/
def append (w : Writer) (s : String) : Writer :=
  { w with reversed := s.toList.reverse ++ w.reversed }

/-- Adds text to the current line; a new line starts with four spaces per level. -/
def push (w : Writer) (s : String) : Writer :=
  if w.isOpen then w.append s
  else
    { w with
      reversed := s.toList.reverse ++ (List.replicate (4 * w.depth) ' ' ++ w.reversed)
      isOpen := true }

/-- Ends the current line if it is open. -/
def close (w : Writer) : Writer :=
  if w.isOpen then { w with reversed := '\n' :: w.reversed, isOpen := false } else w

/-- Writes a line and ends it. -/
def line (w : Writer) (s : String) : Writer := (w.push s).close

/-- Leaves one blank line, except at the start and after another blank line. -/
def blankLine (w : Writer) : Writer :=
  let w := w.close
  match w.reversed with
  | [] | '\n' :: '\n' :: _ => w
  | _ => { w with reversed := '\n' :: w.reversed }

/-- One level deeper from the next line on. -/
def indent (w : Writer) : Writer := { w with depth := w.depth + 1 }

/-- One level up from the next line on. -/
def dedent (w : Writer) : Writer := { w with depth := w.depth - 1 }

/-- Continues an open line after a space, else starts a new line. -/
def follow (w : Writer) (s : String) : Writer :=
  (if w.isOpen then w.append " " else w).push s

/-- Lines one level deeper. -/
def nested (w : Writer) (lines : List String) : Writer :=
  (lines.foldl Writer.line w.indent).dedent

end Writer

end Shading
