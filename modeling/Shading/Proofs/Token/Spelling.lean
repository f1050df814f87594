import Shading.Proofs.Token.Float

/-!
# Spellings of tokens

How a token is written, what may stand right after it, and that the lexer takes exactly
the spelling off a text that starts with it.
-/

namespace Shading

namespace Lexer

/-- Whether a text is a word that is no keyword. -/
def isName (name : String) : Bool :=
  match name.toList with
  | [] => false
  | c :: cs => isWordStart c && cs.all isWordChar && (Keyword.ofText? name).isNone

/-- A character that no word and no number contains or runs into. -/
def isDelimiter (c : Char) : Bool := c ∈ ['(', ')', '[', ']', '\x7b', '\x7d', ',', ';', ':', '.']

end Lexer

namespace Symbol

/-- The delimiters but the dot: anything may follow them. -/
def delimiters : List Symbol :=
  [.lparen, .rparen, .lbrace, .rbrace, .lbracket, .rbracket, .comma, .semicolon, .colon]

/-- The symbols that stand right before an operand. -/
def prefixes : List Symbol := [.minus, .bang, .tilde]

end Symbol

namespace Kind

open Lexer

/-- The characters that a token is written with. -/
def spelling : Kind → List Char
  | .int n => Nat.toDigits 10 n
  | .uint n => Nat.toDigits 10 n.toNat ++ ['u']
  | .float x => x.text.toList
  | .ident name => name.toList
  | .keyword k => k.text.toList
  | .symbol s => s.chars
  | .eof => []

/-- A token that its spelling stands for if it is not too large a number. -/
def Spellable : Kind → Prop
  | .float x => x.isFinite = true ∧ x.isNegative = false
  | .ident name => isName name = true
  | .eof => False
  | _ => True

/-- Whether the token is a number that no literal has. -/
def isTooLarge : Kind → Bool
  | .int n => Number.intLimit < n
  | _ => false

/-- Whether the token is a number. -/
def isNumber : Kind → Bool
  | .int _ | .uint _ | .float _ => true
  | _ => false

/-- Whether a character may stand right after the token. -/
def mayPrecede : Kind → Char → Bool
  | .symbol .dot, c => isWordStart c
  | .symbol s, c =>
    isBlank c || s ∈ Symbol.delimiters || (s ∈ Symbol.prefixes && c ≠ '=')
  | _, c => isBlank c || isDelimiter c

/-- The text is empty or starts with a character that may follow the token. -/
def Before (k : Kind) (cs : List Char) : Prop := ∀ c ∈ cs.head?, k.mayPrecede c = true

end Kind

namespace Lexer

theorem not_isWordChar_of_isBlank {c : Char} (h : isBlank c = true) : isWordChar c = false := by
  simp only [isBlank, Bool.or_eq_true, decide_eq_true_eq] at h
  rcases h with (((rfl | rfl) | rfl) | rfl) | rfl <;> rfl

theorem not_isWordChar_of_isDelimiter {c : Char} (h : isDelimiter c = true) :
    isWordChar c = false := by
  simp only [isDelimiter, decide_eq_true_eq, List.mem_cons, List.not_mem_nil, or_false] at h
  rcases h with rfl | rfl | rfl | rfl | rfl | rfl | rfl | rfl | rfl | rfl <;> rfl

/-- No word character follows a word or a number. -/
theorem stops_of_before {k : Kind} {cs : List Char} (hk : ∀ s, k ≠ .symbol s) (h : k.Before cs) :
    Stops isWordChar cs := by
  intro c hc
  have hbefore := h c hc
  have hplain : (isBlank c || isDelimiter c) = true := by
    unfold Kind.mayPrecede at hbefore
    split at hbefore
    · exact absurd rfl (hk _)
    · exact absurd rfl (hk _)
    · exact hbefore
  rcases Bool.or_eq_true_iff.mp hplain with hblank | hdelimiter
  · exact not_isWordChar_of_isBlank hblank
  · exact not_isWordChar_of_isDelimiter hdelimiter

section Words

variable {c : Char}

theorem not_isBlank_of_isWordChar (h : isWordChar c = true) : isBlank c = false := by
  cases hb : isBlank c with
  | false => rfl
  | true => exact absurd h (by simp [not_isWordChar_of_isBlank hb])

theorem isWordChar_of_isWordStart (h : isWordStart c = true) : isWordChar c = true := by
  simp [isWordChar, h]

theorem isWordChar_of_isDigit (h : Number.isDigit c = true) : isWordChar c = true := by
  simp [isWordChar, h]

theorem not_isWordStart_of_isDigit (h : Number.isDigit c = true) : isWordStart c = false := by
  have hdigit : '0' ≤ c ∧ c ≤ '9' := by simpa [Number.isDigit] using h
  have hlow : ¬ 'a' ≤ c := fun hc => absurd (Char.le_trans hc hdigit.2) (by decide)
  have hhigh : ¬ 'A' ≤ c := fun hc => absurd (Char.le_trans hc hdigit.2) (by decide)
  have hline : c ≠ '_' := by
    rintro rfl
    exact absurd hdigit.2 (by decide)
  simp [isWordStart, hlow, hhigh, hline]

/-- A word that ends where the text stops is taken as a whole. -/
theorem piece_word {w rest : List Char} (hc : isWordStart c = true)
    (hw : ∀ d ∈ w, isWordChar d = true) (hstop : Stops isWordChar rest) :
    piece (c :: w ++ rest) = .token (word (c :: w)) (c :: w).length := by
  have hall : ∀ d ∈ c :: w, isWordChar d = true := by
    intro d hd
    rcases List.mem_cons.mp hd with rfl | hd
    · exact isWordChar_of_isWordStart hc
    · exact hw d hd
  have hrun := hstop.takeWhile_append hall
  have hblank := not_isBlank_of_isWordChar (isWordChar_of_isWordStart hc)
  rw [List.cons_append] at hrun ⊢
  simp only [piece, hblank, Bool.false_eq_true, if_false, hc, if_true, hrun]

/-- A text that starts with a digit starts with a number. -/
theorem piece_of_isDigit {cs : List Char} (hc : Number.isDigit c = true) {literal : Number.Literal}
    (h : Number.literal? (c :: cs) = some literal) :
    piece (c :: cs) = number literal (c :: cs) := by
  have hblank := not_isBlank_of_isWordChar (isWordChar_of_isDigit hc)
  have hslash : c ≠ '/' := by
    rintro rfl
    exact absurd hc (by decide)
  unfold piece
  simp only [hblank, not_isWordStart_of_isDigit hc, Bool.false_eq_true, if_false, h]
  split
  · rename_i heq _
    exact absurd (List.cons.inj heq).1 hslash
  · rename_i heq _
    exact absurd (List.cons.inj heq).1 hslash
  · rfl

end Words

section Numbers

open Number (literal? ofDigits)

/-- What makes a number that it follows malformed. -/
def trailsNumber (c : Char) : Bool := isWordChar c || c = '.'

theorem number_of_stops {text rest : List Char} {length : Nat} {kind : Kind}
    (hlength : length = text.length) (hstop : Stops trailsNumber rest) :
    number ⟨length, some kind⟩ (text ++ rest) = .token kind length := by
  have htrail : rest.takeWhile (fun c => isWordChar c || c = '.') = [] := hstop.takeWhile_eq_nil
  simp [number, hlength, htrail]

/-- A literal whose value does not fit is a fault, whatever follows it. -/
theorem number_of_none (length : Nat) (cs : List Char) :
    ∃ n, number ⟨length, none⟩ cs = .fault .malformedNumber n := by
  simp only [number]
  split
  · exact ⟨_, rfl⟩
  · exact ⟨_, rfl⟩

/-- A literal that runs into a point or a word is a fault. -/
theorem number_of_trails {literal : Number.Literal} {text rest : List Char} {c : Char}
    (hlength : literal.length = text.length) (hc : trailsNumber c = true) :
    ∃ n, number literal (text ++ c :: rest) = .fault .malformedNumber n := by
  have htrail : ((c :: rest).takeWhile fun c => isWordChar c || c = '.').isEmpty = false := by
    have : (isWordChar c || decide (c = '.')) = true := hc
    simp [this]
  unfold number
  simp only [hlength, List.drop_left, htrail, Bool.false_eq_true, if_false]
  exact ⟨_, rfl⟩

/-- Where a number may end, its digits are an integer literal. -/
theorem literal?_int (n : Nat) {rest : List Char} (hstop : Stops trailsNumber rest) :
    literal? (Nat.toDigits 10 n ++ rest)
      = some ⟨(Nat.toDigits 10 n).length, if n ≤ Number.intLimit then some (.int n) else none⟩ := by
  have hword : Stops isWordChar rest := hstop.mono fun c hc => by simp [trailsNumber, hc]
  have hdot : Stops (· = '.') rest := hstop.mono fun c hc => by
    simp only [trailsNumber, Bool.or_eq_true]
    exact .inr hc
  have hcontinue : Stops Number.continuesDigits rest := hword.mono fun c hc => by
    simp only [Number.continuesDigits, Bool.or_eq_true, decide_eq_true_eq] at hc
    rcases hc with (hc | rfl) | rfl
    · exact isWordChar_of_isDigit hc
    · rfl
    · rfl
  have hletter : ∀ tail, rest ≠ 'u' :: tail ∧ rest ≠ 'U' :: tail := by
    refine fun tail => ⟨?_, ?_⟩ <;> rintro rfl <;> exact absurd (hword _ rfl) (by decide)
  rw [Number.literal?_of_digits Nat.toDigits_ne_nil (fun c => Number.isDigit_of_mem_toDigits)
    hcontinue, Number.ofDigits_of_ne_dot hdot, Number.exponent?_eq_none hword]
  simp only [Option.isSome_none, Bool.false_eq_true, if_false, Number.value_toDigits,
    Number.integer]
  split
  · exact absurd rfl (hletter _).1
  · exact absurd rfl (hletter _).2
  · rfl

/-- Digits and the letter of an unsigned number are an unsigned literal. -/
theorem literal?_uint (n : UInt32) (rest : List Char) :
    literal? (Nat.toDigits 10 n.toNat ++ 'u' :: rest)
      = some ⟨(Nat.toDigits 10 n.toNat).length + 1, some (.uint n)⟩ := by
  have hlt : n.toNat < Number.uintBound := n.toNat_lt
  have hexp : Number.exponent? ('u' :: rest) = none := by simp [Number.exponent?]
  rw [Number.literal?_of_digits Nat.toDigits_ne_nil (fun c => Number.isDigit_of_mem_toDigits)
    (.cons (by decide)), Number.ofDigits_of_ne_dot (.cons (by decide)), hexp]
  simp only [Option.isSome_none, Bool.false_eq_true, if_false, Number.value_toDigits,
    Number.integer, hlt, if_true]
  simp

/-- The literal at the head of a text that starts with the spelling of a number. -/
theorem literal?_spelling {k : Kind} (hnumber : k.isNumber = true) (hk : k.Spellable)
    {rest : List Char} (hbefore : k.Before rest) (hdot : Stops (· = '.') rest) :
    literal? (k.spelling ++ rest)
      = some ⟨k.spelling.length, if k.isTooLarge then none else some k⟩ := by
  have hword : Stops isWordChar rest := stops_of_before (by rintro s rfl; cases hnumber) hbefore
  have hstop : Stops trailsNumber rest := by
    intro c hc
    have hw := hword c hc
    have hd := hdot c hc
    simp only [trailsNumber, hw, Bool.false_or]
    exact hd
  cases k with
  | int n =>
      rw [Kind.spelling, literal?_int n hstop]
      simp only [Kind.isTooLarge, decide_eq_true_eq]
      by_cases hn : n ≤ Number.intLimit
      · rw [if_pos hn, if_neg (by omega)]
      · rw [if_neg hn, if_pos (by omega)]
  | uint n =>
      have hlit := literal?_uint n rest
      simpa [Kind.spelling, Kind.isTooLarge] using hlit
  | float x => exact Number.literal?_text hk.1 hk.2 hword
  | ident _ | keyword _ | symbol _ | eof => cases hnumber

/-- The spelling of a number starts with a digit. -/
theorem spelling_of_isNumber {k : Kind} (hnumber : k.isNumber = true) (hk : k.Spellable) :
    ∃ c cs, k.spelling = c :: cs ∧ Number.isDigit c = true := by
  have hdigits (n : Nat) : ∃ c cs, Nat.toDigits 10 n = c :: cs ∧ Number.isDigit c = true := by
    obtain ⟨c, cs, hcs⟩ := List.exists_cons_of_ne_nil (Nat.toDigits_ne_nil (n := n) (b := 10))
    exact ⟨c, cs, hcs, Number.isDigit_of_mem_toDigits (n := n) (by simp [hcs])⟩
  cases k with
  | int n => exact hdigits n
  | uint n =>
      obtain ⟨c, cs, hcs, hc⟩ := hdigits n.toNat
      exact ⟨c, cs ++ ['u'], by simp [Kind.spelling, hcs], hc⟩
  | float x => exact Number.text_eq_cons hk.1 hk.2
  | ident _ | keyword _ | symbol _ | eof => cases hnumber

end Numbers

section Symbols

variable {s : Symbol} {rest : List Char}

/-- What must follow a symbol for the lexer to take it and nothing longer. -/
def symbolEnds (s : Symbol) (c : Char) : Prop :=
  (s.chars.length = 1 → Symbol.ofChars? (s.chars ++ [c]) = none) ∧
    (s = .slash → c ≠ '/' ∧ c ≠ '*') ∧ (s = .dot → Number.isDigit c = false)

theorem chars_length (s : Symbol) : s.chars.length = 1 ∨ s.chars.length = 2 := by
  cases s <;> simp [Symbol.chars]

theorem symbol?_chars (h : ∀ c ∈ rest.head?, symbolEnds s c) :
    symbol? (s.chars ++ rest) = some s := by
  have hself := Symbol.ofChars?_chars s
  rcases chars_length s with hone | htwo
  · cases rest with
    | nil =>
        have htake : (s.chars ++ []).take 2 = s.chars := by
          rw [List.append_nil, List.take_of_length_le (by omega)]
        simp only [symbol?, htake, hself]
    | cons c rest =>
        have htake : (s.chars ++ c :: rest).take 2 = s.chars ++ [c] := by
          rw [List.take_append, hone, List.take_of_length_le (by omega)]
          rfl
        have hshort : (s.chars ++ c :: rest).take 1 = s.chars := by
          rw [List.take_append, hone, List.take_of_length_le (by omega), Nat.sub_self,
            List.take_zero, List.append_nil]
        simp only [symbol?, htake, (h c rfl).1 hone, hshort, hself]
  · have htake : (s.chars ++ rest).take 2 = s.chars := by
      rw [List.take_append, htwo, List.take_of_length_le (by omega), Nat.sub_self,
        List.take_zero, List.append_nil]
    simp only [symbol?, htake, hself]

theorem chars_of_ofChars?_eq_some {cs : List Char} (h : Symbol.ofChars? cs = some s) :
    s.chars = cs := by
  unfold Symbol.ofChars? at h
  simpa using List.find?_some h

/-- A character that is the second one of some symbol. -/
def fuses (c : Char) : Bool := c ∈ ['=', '&', '|', '<', '>']

theorem ofChars?_pair_eq_none {a c : Char} (h : fuses c = false) :
    Symbol.ofChars? [a, c] = none := by
  cases hs : Symbol.ofChars? [a, c] with
  | none => rfl
  | some t =>
      have ht := chars_of_ofChars?_eq_some hs
      have hfuses : fuses c = true := by
        cases t <;> cases ht <;> rfl
      exact absurd hfuses (by simp [h])

theorem ofChars?_delimiter_eq_none (hs : s ∈ Symbol.delimiters) (c : Char) :
    Symbol.ofChars? (s.chars ++ [c]) = none := by
  cases ht : Symbol.ofChars? (s.chars ++ [c]) with
  | none => rfl
  | some t =>
      have hchars := chars_of_ofChars?_eq_some ht
      simp only [Symbol.delimiters, List.mem_cons, List.not_mem_nil, or_false] at hs
      rcases hs with rfl | rfl | rfl | rfl | rfl | rfl | rfl | rfl | rfl <;>
        cases t <;> simp [Symbol.chars] at hchars

theorem ofChars?_prefix_eq_none (hs : s ∈ Symbol.prefixes) {c : Char} (hc : c ≠ '=') :
    Symbol.ofChars? (s.chars ++ [c]) = none := by
  cases ht : Symbol.ofChars? (s.chars ++ [c]) with
  | none => rfl
  | some t =>
      have hchars := chars_of_ofChars?_eq_some ht
      simp only [Symbol.prefixes, List.mem_cons, List.not_mem_nil, or_false] at hs
      rcases hs with rfl | rfl | rfl <;>
        cases t <;> simp [Symbol.chars] at hchars <;> exact absurd hchars.symm hc

theorem not_fuses_of_isBlank {c : Char} (h : isBlank c = true) : fuses c = false := by
  simp only [isBlank, Bool.or_eq_true, decide_eq_true_eq] at h
  rcases h with (((rfl | rfl) | rfl) | rfl) | rfl <;> rfl

theorem not_fuses_of_isWordChar {c : Char} (h : isWordChar c = true) : fuses c = false := by
  cases hf : fuses c with
  | false => rfl
  | true =>
      simp only [fuses, decide_eq_true_eq, List.mem_cons, List.not_mem_nil, or_false] at hf
      rcases hf with rfl | rfl | rfl | rfl | rfl <;> exact absurd h (by decide)

/-- Nothing that may follow a symbol makes a longer one of it. -/
theorem symbolEnds_of_mayPrecede {c : Char} (h : (Kind.symbol s).mayPrecede c = true) :
    symbolEnds s c := by
  have hpair (hone : s.chars.length = 1) (hf : fuses c = false) :
      Symbol.ofChars? (s.chars ++ [c]) = none := by
    obtain ⟨a, ha⟩ := List.length_eq_one_iff.mp hone
    rw [ha]
    exact ofChars?_pair_eq_none hf
  by_cases hdot : s = .dot
  · subst hdot
    have hstart : isWordStart c = true := h
    refine ⟨fun hone => hpair hone (not_fuses_of_isWordChar (isWordChar_of_isWordStart hstart)),
      (by simp), fun _ => ?_⟩
    cases hd : Number.isDigit c with
    | false => rfl
    | true => exact absurd hstart (by simp [not_isWordStart_of_isDigit hd])
  have hplain : (isBlank c || decide (s ∈ Symbol.delimiters) ||
      (decide (s ∈ Symbol.prefixes) && decide (c ≠ '='))) = true := by
    unfold Kind.mayPrecede at h
    split at h
    · rename_i heq
      exact absurd (Kind.symbol.inj heq) hdot
    · rename_i heq
      exact Kind.symbol.inj heq ▸ h
    · rename_i _ hs
      exact absurd rfl (hs s)
  simp only [Bool.or_eq_true, Bool.and_eq_true, decide_eq_true_eq] at hplain
  refine ⟨fun hone => ?_, ?_, fun hs => absurd hs hdot⟩
  · rcases hplain with (hblank | hdelimiter) | ⟨hsign, hc⟩
    · exact hpair hone (not_fuses_of_isBlank hblank)
    · exact ofChars?_delimiter_eq_none hdelimiter c
    · exact ofChars?_prefix_eq_none hsign hc
  · rintro rfl
    rcases hplain with (hblank | hdelimiter) | ⟨hsign, _⟩
    · constructor <;> rintro rfl <;> exact absurd hblank (by decide)
    · exact absurd hdelimiter (by decide)
    · exact absurd hsign (by decide)

/-- No symbol starts like a word, a number or a blank. -/
theorem head_chars {a : Char} {cs : List Char} (h : s.chars = a :: cs) :
    isBlank a = false ∧ isWordStart a = false ∧ Number.isDigit a = false ∧
      (a = '/' → s = .slash ∨ s = .slashEq) ∧ (a = '.' → s = .dot) := by
  cases s <;> cases h <;> decide

theorem piece_symbol (h : ∀ c ∈ rest.head?, symbolEnds s c) :
    piece (s.chars ++ rest) = .token (.symbol s) s.chars.length := by
  obtain ⟨a, cs, hcs⟩ : ∃ a cs, s.chars = a :: cs := by
    cases s <;> exact ⟨_, _, rfl⟩
  obtain ⟨hblank, hstart, hdigit, hslash, hdot⟩ := head_chars hcs
  have hsymbol := symbol?_chars h
  have hliteral : Number.literal? (a :: (cs ++ rest)) = none := by
    have hrun : (a :: (cs ++ rest)).takeWhile Number.isDigit = [] := by simp [hdigit]
    unfold Number.literal?
    simp only [hrun, List.isEmpty_nil, if_true, List.length_nil, List.drop_zero]
    split
    · rename_i tail heq
      obtain ⟨rfl, htail⟩ := List.cons.inj heq
      obtain rfl := hdot rfl
      have hnil : cs = [] := (List.cons.inj hcs).2.symm
      subst hnil
      have hfraction : tail.takeWhile Number.isDigit = [] := by
        rw [← htail]
        cases rest with
        | nil => rfl
        | cons c rest => simp [(h c rfl).2.2 rfl]
      simp [hfraction]
    · rfl
  have hcomment : ∀ d tail, a :: (cs ++ rest) = '/' :: d :: tail → d ≠ '/' ∧ d ≠ '*' := by
    intro d tail heq
    obtain ⟨rfl, htail⟩ := List.cons.inj heq
    rcases hslash rfl with rfl | rfl
    · have hnil : cs = [] := (List.cons.inj hcs).2.symm
      subst hnil
      exact (h d (by simp [show rest = d :: tail from htail])).2.1 rfl
    · have heq : cs = ['='] := (List.cons.inj hcs).2.symm
      subst heq
      obtain rfl := (List.cons.inj htail).1
      decide
  rw [hcs, List.cons_append] at hsymbol ⊢
  unfold piece
  simp only [hblank, hstart, Bool.false_eq_true, if_false, hliteral, hsymbol]
  split
  · rename_i heq _
    exact absurd rfl (hcomment _ _ heq).1
  · rename_i heq _
    exact absurd rfl (hcomment _ _ heq).2
  · rw [hcs]

end Symbols

/-- The lexer takes the spelling of a token off a text if what follows may follow it, and
the token is no number that is too large or runs into a point. -/
theorem piece_spelling {k : Kind} {rest : List Char} (hk : k.Spellable)
    (hbefore : k.Before rest) (hsize : k.isTooLarge = false)
    (hdot : k.isNumber = true → Stops (· = '.') rest) :
    piece (k.spelling ++ rest) = .token k k.spelling.length := by
  by_cases hnumber : k.isNumber = true
  · have hliteral := literal?_spelling hnumber hk hbefore (hdot hnumber)
    have hword : Stops isWordChar rest := stops_of_before (by rintro s rfl; cases hnumber) hbefore
    have hstop : Stops trailsNumber rest := by
      intro c hc
      simp only [trailsNumber, hword c hc, Bool.false_or]
      exact hdot hnumber c hc
    obtain ⟨c, cs, hcs, hc⟩ := spelling_of_isNumber hnumber hk
    have htoken : number ⟨k.spelling.length, some k⟩ (k.spelling ++ rest)
        = .token k k.spelling.length := number_of_stops rfl hstop
    rw [hsize, if_neg (by decide)] at hliteral
    rw [hcs, List.cons_append] at hliteral htoken ⊢
    rw [piece_of_isDigit hc hliteral, htoken]
  · cases k with
    | int _ | uint _ | float _ => exact absurd rfl hnumber
    | ident name =>
        have hname : isName name = true := hk
        have hword : Stops isWordChar rest := stops_of_before (by rintro s hs; cases hs) hbefore
        unfold isName at hname
        split at hname
        · cases hname
        · rename_i c cs hcs
          simp only [Bool.and_eq_true, List.all_eq_true, Option.isNone_iff_eq_none] at hname
          have htoken : word (c :: cs) = .ident name := by
            simp [word, ← hcs, hname.2]
          simp only [Kind.spelling]
          rw [hcs, piece_word hname.1.1 hname.1.2 hword, htoken]
    | keyword k =>
        have hword : Stops isWordChar rest := stops_of_before (by rintro s hs; cases hs) hbefore
        have htoken : word k.text.toList = .keyword k := by
          simp [word, Keyword.ofText?_text]
        obtain ⟨c, cs, hcs, hstart, hrest⟩ : ∃ c cs, k.text.toList = c :: cs ∧
            isWordStart c = true ∧ ∀ d ∈ cs, isWordChar d = true := by
          cases k <;> exact ⟨_, _, rfl, by decide, List.all_eq_true.mp (by decide)⟩
        simp only [Kind.spelling]
        rw [hcs] at htoken ⊢
        rw [piece_word hstart hrest hword, htoken]
    | symbol s => exact piece_symbol fun c hc => symbolEnds_of_mayPrecede (hbefore c hc)
    | eof => exact hk.elim

end Lexer

end Shading
