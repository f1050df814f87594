import Shading.Parse.Error

/-!
# Reading tokens one by one

A cursor holds the tokens that are left and the span of the last one taken.  Past the
end it shows an end of file; an end of file is never taken.
-/

namespace Shading

/-- A place among the tokens of a file. -/
structure Cursor where
  rest : List Token
  /-- The span of the last token taken, or of the first token before any is. -/
  previous : Span

namespace Cursor

/-- The cursor at the first token. -/
def ofTokens (tokens : List Token) : Cursor := ⟨tokens, (tokens.headD Token.eof).span⟩

/-- The token at the cursor. -/
def current (c : Cursor) : Token := c.rest.headD Token.eof

/-- The kind of the token after the current one. -/
def nextKind (c : Cursor) : Kind := ((c.rest.drop 1).headD Token.eof).kind

/-- Takes the current token unless it is an end of file. -/
def advance (c : Cursor) : Cursor :=
  match c.rest with
  | [] => c
  | t :: rest => if t.kind = .eof then c else ⟨rest, t.span⟩

theorem advance_of_kind_ne {c : Cursor} {t : Token} {rest : List Token} (h : c.rest = t :: rest)
    (hk : t.kind ≠ .eof) : c.advance = ⟨rest, t.span⟩ := by
  simp [advance, h, hk]

theorem advance_of_eof {c : Cursor} (h : c.current.kind = .eof) : c.advance = c := by
  unfold advance current at *
  cases hr : c.rest with
  | nil => rfl
  | cons t rest => simp_all

end Cursor

/-- A production: reads from a cursor and gives a value and the cursor after it. -/
abbrev Parse (α : Type) := StateT Cursor (Except ParseError) α

namespace Parse

variable {α : Type}

/-- The current token, which stays. -/
def look : Parse Token := fun c => .ok (c.current, c)

/-- The kind of the current token. -/
def kind : Parse Kind := fun c => .ok (c.current.kind, c)

/-- Takes the current token. -/
def take : Parse Unit := fun c => .ok ((), c.advance)

/-- Fails at a token. -/
def failAt (t : Token) (fault : ParseFault) : Parse α := fun _ =>
  .error ⟨fault, t.span, t.position⟩

/-- Fails at the current token, which is not what was expected. -/
def unexpected (expected : Expected) : Parse α := fun c =>
  .error ⟨.unexpected expected c.current.kind, c.current.span, c.current.position⟩

/-- Fails at the current token because no fuel is left. -/
def spent : Parse α := fun c => .error ⟨.spent, c.current.span, c.current.position⟩

/-- Takes the current token if it is the symbol. -/
def eat (s : Symbol) : Parse Bool := fun c =>
  if c.current.kind = .symbol s then .ok (true, c.advance) else .ok (false, c)

/-- Takes the current token if it is the keyword. -/
def eatKeyword (k : Keyword) : Parse Bool := fun c =>
  if c.current.kind = .keyword k then .ok (true, c.advance) else .ok (false, c)

/-- Takes the symbol. -/
def expect (s : Symbol) : Parse Unit := do
  if ← eat s then return () else unexpected (.symbol s)

/-- Takes the keyword. -/
def expectKeyword (k : Keyword) : Parse Unit := do
  if ← eatKeyword k then return () else unexpected (.keyword k)

/-- Takes an identifier and gives its name and its span. -/
def identifier : Parse (String × Span) := do
  let t ← look
  match t.kind with
  | .ident name => do
    take
    return (name, t.span)
  | _ => unexpected .identifier

/-- The span from a place to the end of the last token taken. -/
def spanFrom (start : Span) : Parse Span := fun c => .ok (start.merge c.previous, c)

/-- One or more items between commas; each of them takes fuel. -/
def separated (item : Parse α) : Nat → Parse (List α)
  | 0 => spent
  | fuel + 1 => do
    let a ← item
    if ← eat .comma then return a :: (← separated item fuel) else return [a]

/-- Items up to a closing token or the end of the file; each of them takes fuel, and so does
the end. -/
def upTo (stop : Kind) (item : Parse α) : Nat → Parse (List α)
  | 0 => spent
  | fuel + 1 => do
    let k ← kind
    if k = stop ∨ k = .eof then return []
    else
      let a ← item
      return a :: (← upTo stop item fuel)

end Parse

end Shading
