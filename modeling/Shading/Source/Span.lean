/-!
# Places in a source text

A span is a half-open range of byte offsets; a position is a line and a column,
both counted from one.  Offsets, lines and columns are recorded up to a limit.  Nodes
that no text stands behind carry the dummy span.
-/

namespace Shading

/-- A range of byte offsets, `stop` exclusive. -/
structure Span where
  start : Nat
  stop : Nat
deriving DecidableEq, Inhabited

namespace Span

/-- The span of a node that was made rather than read. -/
def dummy : Span := ⟨0, 0⟩

/-- The largest offset that a span records. -/
def limit : Nat := 4294967295

/-- The span of a byte range; offsets past the limit are recorded as the limit. -/
def ofRange (start stop : Nat) : Span := ⟨min start limit, min stop limit⟩

/-- The smallest span that covers both. -/
def merge (a b : Span) : Span := ⟨min a.start b.start, max a.stop b.stop⟩

/-- The number of bytes covered; a reversed span covers none. -/
def length (s : Span) : Nat := s.stop - s.start

/-- A span is empty when it ends where it starts or before. -/
def isEmpty (s : Span) : Bool := s.stop ≤ s.start

/-- The span written `start..stop`. -/
def text (s : Span) : String := toString s.start ++ ".." ++ toString s.stop

theorem isEmpty_iff (s : Span) : s.isEmpty = true ↔ s.length = 0 := by
  simp [isEmpty, length]; omega

theorem merge_self (s : Span) : s.merge s = s := by
  simp [merge]

theorem merge_assoc (a b c : Span) : (a.merge b).merge c = a.merge (b.merge c) := by
  simp [merge, Nat.min_assoc, Nat.max_assoc]

theorem ofRange_of_le {start stop : Nat} (h₁ : start ≤ limit) (h₂ : stop ≤ limit) :
    ofRange start stop = ⟨start, stop⟩ := by
  simp [ofRange, Nat.min_eq_left h₁, Nat.min_eq_left h₂]

end Span

/-- A line and a column of a source text, both counted from one. -/
structure Position where
  line : Nat
  column : Nat
deriving DecidableEq, Inhabited

namespace Position

/-- The position of a token that stands in no text. -/
def nowhere : Position := ⟨0, 0⟩

/-- Where a source text begins. -/
def origin : Position := ⟨1, 1⟩

/-- The largest line and the largest column that a position records. -/
def limit : Nat := 4294967295

/-- The position of a line and a column; what is past the limit is recorded as the limit. -/
def ofCounts (line column : Nat) : Position := ⟨min line limit, min column limit⟩

/-- The position after one more character: a line feed opens a new line. -/
def advance (p : Position) (c : Char) : Position :=
  if c = '\n' then ofCounts (p.line + 1) 1 else ofCounts p.line (p.column + 1)

/-- The position written `line:column`. -/
def text (p : Position) : String := toString p.line ++ ":" ++ toString p.column

theorem ofCounts_of_le {line column : Nat} (h₁ : line ≤ limit) (h₂ : column ≤ limit) :
    ofCounts line column = ⟨line, column⟩ := by
  simp [ofCounts, Nat.min_eq_left h₁, Nat.min_eq_left h₂]

end Position

end Shading
