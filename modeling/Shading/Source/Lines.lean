import Shading.Source.Span

/-!
# Lines of a source text

The line and the column of a byte offset.  The column counts characters; an
offset inside a character has none, and there the column counts bytes instead.
-/

namespace Shading

namespace Lines

/-- The number of lines: one more than the line feeds. -/
def count (source : List Char) : Nat := source.count '\n' + 1

/-- Where a byte offset falls, walking the text from `pos` with `lineBytes`
bytes of the current line already passed. -/
def locate (pos : Position) (lineBytes : Nat) : List Char → Nat → Position
  | [], _ => pos
  | c :: rest, offset =>
    if offset = 0 then pos
    else if offset < c.utf8Size then .ofCounts pos.line (lineBytes + offset + 1)
    else locate (pos.advance c) (if c = '\n' then 0 else lineBytes + c.utf8Size) rest
      (offset - c.utf8Size)

/-- The line and column of a byte offset; an offset past the end means the end. -/
def position (source : List Char) (offset : Nat) : Position :=
  locate Position.origin 0 source offset

theorem position_zero (source : List Char) : position source 0 = Position.origin := by
  cases source <;> simp [position, locate]

end Lines

end Shading
