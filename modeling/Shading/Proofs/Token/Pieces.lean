import Mathlib.Tactic.Common
import Shading.Proofs.Token.Literal

/-!
# Pieces of a text

A piece takes at least one character and no more than there are. What it passes over is a
blank, a line comment up to the end of its line, or a block comment up to its first end mark.
-/

namespace Shading

/-- A run of characters and what follows it are the whole text. -/
theorem List.length_takeWhile_add_drop {α : Type} (p : α → Bool) (cs : List α) :
    (cs.takeWhile p).length + (cs.drop (cs.takeWhile p).length).length = cs.length := by
  have hle : (cs.takeWhile p).length ≤ cs.length := (List.takeWhile_prefix p).length_le
  rw [List.length_drop]
  omega

namespace Number

theorem exponent?_length {cs : List Char} {length : Nat} {e : Int}
    (h : exponent? cs = some (length, e)) : length ≤ cs.length := by
  cases cs with
  | nil => cases h
  | cons c cs =>
      -- the digits come after the sign, if there is one
      have hrun (sign : Nat) (rest : List Char) (value : Int)
          (hrest : sign + rest.length ≤ cs.length)
          (h : (if (rest.takeWhile isDigit).isEmpty = true then none
            else some (1 + sign + (rest.takeWhile isDigit).length, value)) = some (length, e)) :
          length ≤ (c :: cs).length := by
        have hdigits : (rest.takeWhile isDigit).length ≤ rest.length :=
          (List.takeWhile_prefix _).length_le
        split at h
        · cases h
        · obtain ⟨rfl, -⟩ := Prod.mk.inj (Option.some.inj h)
          rw [List.length_cons]
          omega
      simp only [exponent?] at h
      split at h
      · split at h
        · apply hrun 1 _ _ _ h
          simp; omega
        · apply hrun 1 _ _ _ h
          simp; omega
        · apply hrun 0 _ _ _ h
          simp
      · cases h

/-- A floating-point literal ends within the text. -/
theorem float_length (length : Nat) (whole fraction rest : List Char) :
    length ≤ (float length whole fraction rest).length ∧
      (float length whole fraction rest).length ≤ length + rest.length := by
  have hexp : ((exponent? rest).getD (0, 0)).1 ≤ rest.length := by
    cases h : exponent? rest with
    | none => exact Nat.zero_le _
    | some p => exact exponent?_length h
  simp only [float]
  generalize (exponent? rest).getD (0, 0) = p at hexp ⊢
  have hletter {c : Char} {tail : List Char} (h : rest.drop p.1 = c :: tail) :
      p.1 + 1 ≤ rest.length := by
    have hdrop := congrArg List.length h
    rw [List.length_drop, List.length_cons] at hdrop
    omega
  split
  · rename_i heq
    have := hletter heq
    constructor <;> omega
  · rename_i heq
    have := hletter heq
    constructor <;> omega
  · constructor <;> omega

theorem integer_length (length magnitude : Nat) (rest : List Char) :
    length ≤ (integer length magnitude rest).length ∧
      (integer length magnitude rest).length ≤ length + rest.length := by
  unfold integer
  split <;> constructor <;> simp

/-- Digits make a literal that is no shorter than them and ends within the text. -/
theorem ofDigits_length (whole rest : List Char) :
    whole.length ≤ (ofDigits whole rest).length ∧
      (ofDigits whole rest).length ≤ whole.length + rest.length := by
  unfold ofDigits
  split
  · rename_i rest
    have hfraction := List.length_takeWhile_add_drop isDigit rest
    have hfloat := float_length (whole.length + 1 + (rest.takeWhile isDigit).length) whole
      (rest.takeWhile isDigit) (rest.drop (rest.takeWhile isDigit).length)
    rw [List.length_cons]
    dsimp only
    constructor <;> omega
  · split
    · exact float_length whole.length whole [] _
    · exact integer_length whole.length _ _

/-- A literal takes a character at least, and no more than the text has. -/
theorem literal?_length {cs : List Char} {l : Literal} (h : literal? cs = some l) :
    0 < l.length ∧ l.length ≤ cs.length := by
  have hwhole := List.length_takeWhile_add_drop isDigit cs
  simp only [literal?] at h
  generalize cs.takeWhile isDigit = whole at h hwhole
  generalize cs.drop whole.length = rest at h hwhole
  split at h
  · -- no digit: a point and the digits after it
    split at h
    · rename_i rest'
      split at h
      · cases h
      · cases h
        have hfraction := List.length_takeWhile_add_drop isDigit rest'
        have hfloat := float_length (1 + (rest'.takeWhile isDigit).length) []
          (rest'.takeWhile isDigit) (rest'.drop (rest'.takeWhile isDigit).length)
        simp only [List.length_cons] at hwhole
        constructor <;> omega
    · cases h
  · rename_i hne
    have hpos : 0 < whole.length := by
      apply List.length_pos_iff.mpr
      intro hnil
      exact hne (by rw [hnil]; rfl)
    have hbase (hex : List Char) (decimal : Option Literal)
        (hhex : hex ≠ [] → 2 + hex.length ≤ cs.length)
        (hdecimal : decimal = some (ofDigits whole rest))
        (h : (if hex.isEmpty = true then decimal else
          some (integer (2 + hex.length) (value 16 hex) (cs.drop (2 + hex.length)))) = some l) :
        0 < l.length ∧ l.length ≤ cs.length := by
      split at h
      · rw [hdecimal] at h
        cases h
        have hdigits := ofDigits_length whole rest
        constructor <;> omega
      · rename_i hsome
        cases h
        have hle := hhex (by simpa using hsome)
        have hinteger := integer_length (2 + hex.length) (value 16 hex) (cs.drop (2 + hex.length))
        rw [List.length_drop] at hinteger
        constructor <;> omega
    apply hbase _ _ _ _ h
    · intro hsome
      split at hsome
      · rename_i x tail
        have htail : (tail.takeWhile isHexDigit).length ≤ tail.length :=
          (List.takeWhile_prefix _).length_le
        split at hsome
        · rename_i hmark
          simp only [hmark, if_true, List.length_cons]
          omega
        · exact absurd rfl hsome
      · exact absurd rfl hsome
    · split
      · rfl
      · rename_i hdot
        rw [ofDigits.eq_2 _ _ hdot]
        split <;> rfl

end Number

namespace Lexer

/-- The characters before a block comment's end mark have no end mark among them. -/
theorem of_commentLength? {cs : List Char} {n : Nat} (h : commentLength? cs = some n) :
    ∃ text rest, cs = text ++ '*' :: '/' :: rest ∧ n = text.length + 2 ∧
      ¬['*', '/'] <:+: text := by
  induction cs using commentLength?.induct generalizing n with
  | case1 rest =>
      cases h
      exact ⟨[], rest, rfl, rfl, by simp⟩
  | case2 c cs hmark ih =>
      rw [commentLength?.eq_2 c cs hmark] at h
      obtain ⟨m, hm, rfl⟩ := Option.map_eq_some_iff.mp h
      obtain ⟨text, rest, rfl, rfl, htext⟩ := ih hm
      refine ⟨c :: text, rest, rfl, rfl, ?_⟩
      intro hinfix
      rcases List.infix_cons_iff.mp hinfix with hprefix | hinfix
      · obtain ⟨rfl, hslash⟩ := List.cons_prefix_cons.mp hprefix
        obtain ⟨tail, rfl⟩ := hslash
        exact hmark _ rfl rfl
      · exact htext hinfix
  | case3 => cases h

/-- A blank or a comment right before the text `next`. -/
inductive Trivium (next : List Char) : List Char → Prop
  | blank {c : Char} (hc : isBlank c = true) : Trivium next [c]
  | lineComment {text : List Char} (htext : '\n' ∉ text) (hend : ∀ c ∈ next.head?, c = '\n') :
      Trivium next ('/' :: '/' :: text)
  | blockComment {text : List Char} (htext : ¬['*', '/'] <:+: text) :
      Trivium next ('/' :: '*' :: (text ++ ['*', '/']))

/-- What a piece takes off the head of a text. -/
def Piece.Takes (text rest : List Char) : Piece → Prop
  | .skip length => text.length = length ∧ Trivium rest text
  | .token _ length | .fault _ length => text.length = length ∧ text ≠ []

theorem exists_take {length : Nat} {cs : List Char} (hpos : 0 < length) (hle : length ≤ cs.length) :
    ∃ text rest, cs = text ++ rest ∧ text.length = length ∧ text ≠ [] := by
  have htake : (cs.take length).length = length := List.length_take_of_le hle
  refine ⟨cs.take length, cs.drop length, (List.take_append_drop length cs).symm, htake, ?_⟩
  apply List.ne_nil_of_length_pos
  omega

/-- A number takes its own text. -/
theorem takes_number {cs : List Char} {l : Number.Literal} (h : Number.literal? cs = some l) :
    ∃ text rest, cs = text ++ rest ∧ (number l cs).Takes text rest := by
  obtain ⟨hpos, hle⟩ := Number.literal?_length h
  unfold number
  dsimp only
  split
  · split
    · exact exists_take hpos hle
    · exact exists_take hpos hle
  · apply exists_take
    · omega
    · have htrailing : ((cs.drop l.length).takeWhile fun c => isWordChar c || c = '.').length
          ≤ (cs.drop l.length).length := (List.takeWhile_prefix _).length_le
      rw [List.length_drop] at htrailing
      omega

/-- A symbol takes its characters. -/
theorem symbol?_length {cs : List Char} {s : Symbol} (h : symbol? cs = some s) :
    0 < s.chars.length ∧ s.chars.length ≤ cs.length := by
  have hchars {ds : List Char} (hds : Symbol.ofChars? ds = some s) : s.chars = ds := by
    simpa using List.find?_some hds
  have hpos : 0 < s.chars.length := by cases s <;> decide
  refine ⟨hpos, ?_⟩
  unfold symbol? at h
  split at h
  · rename_i hpair
    cases h
    rw [hchars hpair]
    exact List.length_take_le' _ _
  · rw [hchars h]
    exact List.length_take_le' _ _

theorem takes_lineComment (cs : List Char) :
    ∃ text rest, '/' :: '/' :: cs = text ++ rest ∧
      (Piece.skip (2 + (cs.takeWhile (· != '\n')).length)).Takes text rest := by
  refine ⟨'/' :: '/' :: cs.takeWhile (· != '\n'), cs.dropWhile (· != '\n'), ?_, ?_, ?_⟩
  · rw [List.cons_append, List.cons_append, List.takeWhile_append_dropWhile]
  · simp only [List.length_cons]
    omega
  · apply Trivium.lineComment
    · intro hmem
      have hne := List.all_eq_true.mp (List.all_takeWhile (p := (· != '\n')) (l := cs)) _ hmem
      simp at hne
    · intro c hc
      have hstop := List.head?_dropWhile_not (· != '\n') cs
      rw [Option.mem_def.mp hc] at hstop
      simpa using hstop

/-- A comment takes the text to its end. -/
theorem takes_blockComment {cs : List Char} {n : Nat} (h : commentLength? cs = some n) :
    ∃ text rest, '/' :: '*' :: cs = text ++ rest ∧ (Piece.skip (2 + n)).Takes text rest := by
  obtain ⟨text, rest, rfl, rfl, htext⟩ := of_commentLength? h
  refine ⟨'/' :: '*' :: (text ++ ['*', '/']), rest, ?_, ?_, .blockComment htext⟩
  · simp
  · simp only [List.length_cons, List.length_append, List.length_nil]
    omega

/-- Every piece takes some characters off the head of a text. -/
theorem takes_piece (c : Char) (cs : List Char) :
    ∃ text rest, c :: cs = text ++ rest ∧ (piece (c :: cs)).Takes text rest := by
  simp only [piece]
  split
  · rename_i hblank
    exact ⟨[c], cs, rfl, rfl, .blank hblank⟩
  split
  · rename_i hstart
    have hrun : (c :: cs).takeWhile isWordChar = c :: cs.takeWhile isWordChar := by
      simp [isWordChar, hstart]
    apply exists_take
    · simp [hrun]
    · exact (List.takeWhile_prefix _).length_le
  split
  · rename_i rest _ heq _
    rw [heq]
    exact takes_lineComment rest
  · rename_i rest _ heq _
    rw [heq]
    split
    · rename_i n hn
      exact takes_blockComment hn
    · apply exists_take
      · omega
      · simp only [List.length_cons]
        omega
  · split
    · rename_i literal hliteral
      exact takes_number hliteral
    · split
      · rename_i s hs
        obtain ⟨hpos, hle⟩ := symbol?_length hs
        exact exists_take hpos hle
      · exact exists_take (by omega) (by simp)

end Lexer

end Shading
