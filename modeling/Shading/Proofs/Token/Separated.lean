import Shading.Proofs.Token.Pieces
import Shading.Proofs.Token.Reading

/-!
# Separated spellings

Tokens with blanks and comments between them. A separator starts with a blank, so nothing
that stands around a token has a say in how it is read: the lexer gives back any tokens that
can be spelled, whatever the separators are and whatever the comments say.
-/

namespace Shading

/-- What the lexer passes over as a whole: a blank, a comment up to the end of its line and
that end, or a comment up to its first end mark. -/
inductive Filler where
  | blank (c : Char) (hc : Lexer.isBlank c = true)
  | lineComment (text : List Char) (htext : '\n' ∉ text)
  | blockComment (text : List Char) (htext : ¬['*', '/'] <:+: text)

namespace Filler

/-- The text of a filler, comment marks and line end included. -/
def chars : Filler → List Char
  | .blank c _ => [c]
  | .lineComment text _ => '/' :: '/' :: (text ++ ['\n'])
  | .blockComment text _ => '/' :: '*' :: (text ++ ['*', '/'])

end Filler

/-- A blank and any mix of blanks and comments after it. -/
structure Separator where
  first : Char
  isBlank : Lexer.isBlank first = true
  more : List Filler

namespace Separator

/-- The text of a separator. -/
def chars (s : Separator) : List Char := s.first :: s.more.flatMap Filler.chars

end Separator

namespace Lexer

/-- The spellings of some tokens, the separator of each one after it but for the last. -/
def joined : List (Kind × Separator) → List Char
  | [] => []
  | [(k, _)] => k.spelling
  | (k, s) :: next :: rest => k.spelling ++ (s.chars ++ joined (next :: rest))

/-- A joined text starts with the spelling of its first kind. -/
theorem joined_cons (k : Kind) (s : Separator) (rest : List (Kind × Separator)) :
    ∃ tail, joined ((k, s) :: rest) = k.spelling ++ tail ∧
      (rest = [] ∧ tail = [] ∨ tail = s.chars ++ joined rest) := by
  cases rest with
  | nil => exact ⟨[], (List.append_nil _).symm, .inl ⟨rfl, rfl⟩⟩
  | cons next rest => exact ⟨_, rfl, .inr rfl⟩

section Fillers

variable {text cs : List Char}

/-- A line comment leaves the end of its line. -/
theorem piece_lineComment (htext : '\n' ∉ text) :
    piece ('/' :: '/' :: text ++ '\n' :: cs) = .skip ('/' :: '/' :: text).length := by
  have hrun : (text ++ '\n' :: cs).takeWhile (· != '\n') = text := by
    apply Stops.takeWhile_append (.cons rfl)
    intro c hc
    have hne : c ≠ '\n' := ne_of_mem_of_not_mem hc htext
    simpa using hne
  simp [piece, hrun, isBlank, isWordStart]
  omega

/-- A comment ends at the first end mark, whatever stands before it. -/
theorem commentLength?_append (htext : ¬['*', '/'] <:+: text) :
    commentLength? (text ++ '*' :: '/' :: cs) = some (text.length + 2) := by
  induction text with
  | nil => rfl
  | cons c text ih =>
      have hrest : ¬['*', '/'] <:+: text := fun h =>
        htext (h.trans (List.suffix_cons c text).isInfix)
      have hmark : ∀ rest, c = '*' → text ++ '*' :: '/' :: cs ≠ '/' :: rest := by
        rintro rest rfl heq
        cases text with
        | nil => cases heq
        | cons d text =>
            obtain rfl : d = '/' := (List.cons.inj heq).1
            exact htext ⟨[], text, rfl⟩
      rw [List.cons_append, commentLength?.eq_2 _ _ hmark, ih hrest, Option.map_some,
        List.length_cons, Nat.add_right_comm]

/-- A comment ends at the first mark that ends it. -/
theorem piece_blockComment (htext : ¬['*', '/'] <:+: text) :
    piece ('/' :: '*' :: (text ++ ['*', '/']) ++ cs)
      = .skip ('/' :: '*' :: (text ++ ['*', '/'])).length := by
  simp [piece, commentLength?_append htext, isBlank, isWordStart]
  omega

/-- Filler before a text changes nothing. -/
theorem Yields.filler {ks : List Kind} (f : Filler) (h : Yields cs ks) :
    Yields (f.chars ++ cs) ks := by
  cases f with
  | blank c hc => exact h.blank hc
  | lineComment text htext =>
      have hend : Yields ('\n' :: cs) ks := h.blank rfl
      have hsplit : Filler.chars (.lineComment text htext) ++ cs
          = '/' :: '/' :: text ++ '\n' :: cs := by
        simp [Filler.chars]
      rw [hsplit]
      exact Yields.skip (by simp) (piece_lineComment htext) hend
  | blockComment text htext =>
      exact Yields.skip (by simp [Filler.chars]) (piece_blockComment htext) h

theorem Yields.separator {ks : List Kind} (s : Separator) (h : Yields cs ks) :
    Yields (s.chars ++ cs) ks := by
  have hmore : Yields (s.more.flatMap Filler.chars ++ cs) ks := by
    induction s.more with
    | nil => exact h
    | cons f fs ih =>
        rw [List.flatMap_cons, List.append_assoc]
        exact ih.filler f
  exact hmore.blank s.isBlank

end Fillers

section Tokens

variable {k : Kind} {tail : List Char}

/-- The text is empty or starts with a blank. -/
def Breaks (cs : List Char) : Prop := ∀ c ∈ cs.head?, isBlank c = true

/-- A blank ends any symbol, the dot among them. -/
theorem symbolEnds_of_isBlank (s : Symbol) {c : Char} (h : isBlank c = true) :
    symbolEnds s c := by
  refine ⟨fun hone => ?_, fun _ => ?_, fun _ => ?_⟩
  · obtain ⟨a, ha⟩ := List.length_eq_one_iff.mp hone
    rw [ha]
    exact ofChars?_pair_eq_none (not_fuses_of_isBlank h)
  · constructor <;> rintro rfl <;> exact absurd h (by decide)
  · cases hd : Number.isDigit c with
    | false => rfl
    | true => exact absurd h (by simp [not_isBlank_of_isWordChar (isWordChar_of_isDigit hd)])

/-- Where a blank or nothing follows, the lexer takes the spelling of any token. -/
theorem piece_of_breaks (hk : k.Spellable) (hsize : k.isTooLarge = false) (htail : Breaks tail) :
    piece (k.spelling ++ tail) = .token k k.spelling.length := by
  by_cases hsymbol : ∃ s, k = .symbol s
  · obtain ⟨s, rfl⟩ := hsymbol
    exact piece_symbol fun c hc => symbolEnds_of_isBlank s (htail c hc)
  · apply piece_spelling hk _ hsize
    · intro _ c hc
      refine decide_eq_false ?_
      rintro rfl
      exact absurd (htail _ hc) (by decide)
    · intro c hc
      have hblank : (isBlank c || isDelimiter c) = true := by simp [htail c hc]
      cases k with
      | symbol s => exact absurd ⟨s, rfl⟩ hsymbol
      | int _ | uint _ | float _ | ident _ | keyword _ | eof => exact hblank

/-- A spelling before a break gives its kind. -/
theorem Yields.spelling {ks : List Kind} (hk : k.Spellable) (hsize : k.isTooLarge = false)
    (htail : Breaks tail) (h : Yields tail ks) : Yields (k.spelling ++ tail) (k :: ks) := by
  obtain ⟨c, cs, hspell, -, -⟩ := spelling_eq_cons hk
  exact h.token (by simp [hspell]) (piece_of_breaks hk hsize htail)

end Tokens

/-- The lexer undoes spelling: one step for each token, its separator passed over after it. -/
theorem yields_joined {parts : List (Kind × Separator)}
    (h : ∀ part ∈ parts, part.1.Spellable ∧ part.1.isTooLarge = false) :
    Yields (joined parts) (parts.map Prod.fst) := by
  induction parts with
  | nil => exact .nil
  | cons part rest ih =>
      obtain ⟨k, s⟩ := part
      obtain ⟨hk, hsize⟩ := h (k, s) List.mem_cons_self
      have hrest := ih fun part hpart => h part (List.mem_cons_of_mem _ hpart)
      obtain ⟨tail, hjoined, htail⟩ := joined_cons k s rest
      rw [hjoined, List.map_cons]
      rcases htail with ⟨rfl, rfl⟩ | rfl
      · exact hrest.spelling hk hsize (by simp [Breaks])
      · refine (hrest.separator s).spelling hk hsize ?_
        intro c hc
        obtain rfl : s.first = c := by simpa [Separator.chars] using hc
        exact s.isBlank

end Lexer

/-- Tokens that can be spelled are read back from their spellings, whatever blanks and
comments separate them. -/
theorem tokenize_joined (parts : List (Kind × Separator))
    (h : ∀ part ∈ parts, part.1.Spellable ∧ part.1.isTooLarge = false) :
    ∃ ts, tokenize (String.ofList (Lexer.joined parts)) = .ok ts ∧
      ts.map Token.kind = parts.map Prod.fst ++ [.eof] := by
  obtain ⟨ts, hts, hkinds⟩ := Lexer.yields_joined h _ 0 Position.origin le_rfl
  refine ⟨ts, ?_, hkinds⟩
  rw [tokenize, String.toList_ofList]
  exact hts

/-- Numbers and a point, where comments are what keeps them apart. -/
def separatedParts : List (Kind × Separator) :=
  let comment : Filler := .blockComment ['/', '/', '*'] (by decide +kernel)
  let line : Filler := .lineComment ['*', '/', '1'] (by decide +kernel)
  [(.float ⟨0x3fc00000⟩, ⟨'\t', rfl, []⟩), (.symbol .dot, ⟨' ', rfl, [comment, comment]⟩),
    (.int 2147483648, ⟨'\n', rfl, [line, .blank '\r' rfl]⟩),
    (.symbol .slash, ⟨' ', rfl, [comment]⟩),
    (.symbol .star, ⟨' ', rfl, []⟩), (.ident "ifs", ⟨' ', rfl, []⟩)]

/-- Comments that look like tokens, and tokens that would be others without a blank. -/
theorem separatedParts_reread :
    (∀ part ∈ separatedParts, part.1.Spellable ∧ part.1.isTooLarge = false) ∧
    String.ofList (Lexer.joined separatedParts)
      = "1.5\t. /*//**//*//**/2147483648\n//*/1\n\r/ /*//**/* ifs" ∧
    ∃ ts, tokenize (String.ofList (Lexer.joined separatedParts)) = .ok ts ∧
      ts.map Token.kind = separatedParts.map Prod.fst ++ [.eof] := by
  have hfloat : (Kind.float ⟨0x3fc00000⟩).Spellable := ⟨by decide +kernel, by decide +kernel⟩
  have hname : (Kind.ident "ifs").Spellable := by
    change Lexer.isName "ifs" = true
    decide +kernel
  have h : ∀ part ∈ separatedParts, part.1.Spellable ∧ part.1.isTooLarge = false := by
    simp only [separatedParts, List.forall_mem_cons, List.not_mem_nil, false_implies,
      implies_true, and_true]
    exact ⟨⟨hfloat, rfl⟩, ⟨trivial, rfl⟩, ⟨trivial, rfl⟩, ⟨trivial, rfl⟩, ⟨trivial, rfl⟩, hname,
      rfl⟩
  exact ⟨h, by decide +kernel, tokenize_joined separatedParts h⟩

end Shading
