import Shading.Parse.File

/-!
# Libraries

A library directive is replaced by the tokens of the library before the grammar runs, and
a library that was included before is passed over.  What stems from a library is placed at
the directive of the file itself that pulled it in, errors included.
-/

namespace Shading

/-- Sources of libraries by dotted name, the latest first. -/
structure Libraries where
  sources : List (String × String)

namespace Libraries

def empty : Libraries := ⟨[]⟩

/-- Adds a library; it takes the place of an earlier one of the same name. -/
def insert (ls : Libraries) (name source : String) : Libraries := ⟨(name, source) :: ls.sources⟩

/-- The source of the library with the name. -/
def source? (ls : Libraries) (name : String) : Option String := ls.sources.lookup name

/-- The error of a directive at a token; past the end it is located at the last token. -/
def directiveError (all : List Token) (expected : Expected) (rest : List Token) : ParseError :=
  let t := (rest.head?.or all.getLast?).getD Token.eof
  ⟨.unexpected expected t.kind, t.span, t.position⟩

/-- The parts of a library name, the semicolon after them and the tokens after that. -/
def directivePath (all : List Token) :
    List Token → Except ParseError (List String × Token × List Token)
  | [] => .error (directiveError all .libraryName [])
  | t :: rest =>
    match t.kind with
    | .ident part =>
      match rest with
      | [] => .error (directiveError all .dotOrSemicolon [])
      | u :: rest =>
        match u.kind with
        | .symbol .semicolon => .ok ([part], u, rest)
        | .symbol .dot => do
          let (parts, semicolon, rest) ← directivePath all rest
          return (part :: parts, semicolon, rest)
        | _ => .error (directiveError all .dotOrSemicolon (u :: rest))
    | _ => .error (directiveError all .libraryName (t :: rest))

/-- Where the text of a library is placed: nowhere for the file itself, else at the
directive of the file that pulled it in. -/
abbrev Origin := Option (Span × Position)

/-- Puts a token at the origin. -/
def placeToken (origin : Origin) (t : Token) : Token :=
  match origin with
  | some (span, position) => ⟨t.kind, span, position⟩
  | none => t

/-- Puts an error at the origin. -/
def placeError (origin : Origin) (e : ParseError) : ParseError :=
  match origin with
  | some (span, position) => e.relocate span position
  | none => e

/-- The tokens of a library without the end of the file, or why there are none. -/
def tokens (ls : Libraries) (name : String) (span : Span) (position : Position) :
    Except ParseError (List Token) :=
  match ls.source? name with
  | none => .error ⟨.unresolvedLibrary name, span, position⟩
  | some source =>
    match tokenize source with
    | .ok ts => .ok (withoutEof ts)
    | .error e => .error ((ParseError.ofLexical e).relocate span position)

/-- Expands one text.  `enter` expands the text of a library at an origin; `all` is the
whole text, `rest` what is left of it, and `included` the libraries met so far. -/
def expand (ls : Libraries) (stack : List String) (origin : Origin) (all : List Token)
    (enter : String → Origin → List String → List Token →
      Except ParseError (List Token × List String)) :
    Nat → List String → List Token → Except ParseError (List Token × List String)
  | _, included, [] => .ok ([], included)
  | 0, included, _ => .ok ([], included)
  | fuel + 1, included, t :: rest =>
    if t.kind = .keyword .include then do
      let (parts, semicolon, rest) ←
        match directivePath all rest with
        | .ok path => pure path
        | .error e => .error (placeError origin e)
      let name := dotted parts
      let (span, position) := origin.getD (t.span.merge semicolon.span, t.position)
      if name ∈ stack then .error ⟨.libraryCycle name, span, position⟩
      else if name ∈ included then expand ls stack origin all enter fuel included rest
      else do
        let library ← ls.tokens name span position
        let (inner, included) ← enter name (some (span, position)) (name :: included) library
        let (outer, included) ← expand ls stack origin all enter fuel included rest
        return (inner ++ outer, included)
    else do
      let (out, included) ← expand ls stack origin all enter fuel included rest
      return (placeToken origin t :: out, included)

/-- Expands a text and the libraries in it.  Every level has entered one more library, so
the number of libraries bounds the depth and the innermost level enters none. -/
def expandAll (ls : Libraries) : Nat → List String → Origin → List String → List Token →
    Except ParseError (List Token × List String)
  | 0, stack, origin, included, all =>
    expand ls stack origin all (fun _ _ included _ => .ok ([], included)) all.length included all
  | depth + 1, stack, origin, included, all =>
    expand ls stack origin all (fun name => expandAll ls depth (name :: stack)) all.length
      included all

/-- Replaces every library directive by the tokens of the library. -/
def splice (ls : Libraries) (tokens : List Token) : Except ParseError (List Token) := do
  let (out, _) ← ls.expandAll ls.sources.length [] none [] tokens
  return out

end Libraries

/-- Reads the tokens of a file with the libraries it includes. -/
def parseWithLibraries (tokens : List Token) (registry : Registry) (libraries : Libraries) :
    Except ParseError Stmt := do
  parseTokens (← libraries.splice tokens) registry

end Shading
