import Shading.Proofs.Except
import Shading.Proofs.Token.Spelling

/-!
# Tokens that are read can be written

Whatever the lexer takes off a text, it is a word, a symbol or a number that some text spells:
no name is a keyword, and no float carries a sign or is out of range. A list of tokens ends
with the end of the file and has no other one in it.
-/

namespace Shading

namespace Number

open Kind (Spellable)

theorem spellable_integer {length magnitude : Nat} {rest : List Char} {k : Kind}
    (h : (integer length magnitude rest).kind? = some k) : k.Spellable := by
  unfold integer at h
  split at h <;> dsimp only at h <;> split at h <;> cases h <;> trivial

theorem spellable_float {length : Nat} {whole fraction rest : List Char} {k : Kind}
    (h : (float length whole fraction rest).kind? = some k) : k.Spellable := by
  simp only [float] at h
  split at h
  · rename_i hfinite
    cases h
    exact ⟨hfinite, Binary32.isNegative_ofDecimal _ _⟩
  · cases h

/-- The token of a literal can be written. -/
theorem spellable_literal? {cs : List Char} {literal : Literal} {k : Kind}
    (h : literal? cs = some literal) (hk : literal.kind? = some k) : k.Spellable := by
  have hbased {hex rest : List Char} {plain : Option Literal}
      (hplain : plain = some literal → k.Spellable)
      (h : (if hex.isEmpty then plain
        else some (integer (2 + hex.length) (value 16 hex) rest)) = some literal) :
      k.Spellable := by
    split at h
    · exact hplain h
    · cases h
      exact spellable_integer hk
  unfold literal? at h
  dsimp only at h
  split at h
  · split at h
    · split at h <;> cases h
      exact spellable_float hk
    · cases h
  · refine hbased (fun hplain => ?_) h
    split at hplain
    · cases hplain
      exact spellable_float hk
    · split at hplain <;> cases hplain
      · exact spellable_float hk
      · exact spellable_integer hk

end Number

namespace Lexer

open Kind (Spellable)

/-- The letters of a word are a keyword or a name. -/
theorem spellable_word {c : Char} {cs : List Char} (hc : isWordStart c = true)
    (hcs : ∀ d ∈ cs, isWordChar d = true) : (word (c :: cs)).Spellable := by
  unfold word
  dsimp only
  split
  · trivial
  · rename_i hnone
    have hall : cs.all isWordChar = true := List.all_eq_true.mpr hcs
    simp only [Spellable, isName, String.toList_ofList, hc, hall, hnone, Option.isNone_none,
      Bool.and_self]

/-- Every token at the head of a text can be written. -/
theorem spellable_piece {cs : List Char} {k : Kind} {length : Nat}
    (h : piece cs = .token k length) : k.Spellable := by
  cases cs with
  | nil => cases h
  | cons c cs =>
      simp only [piece] at h
      split at h
      · cases h
      split at h
      · rename_i hc
        have hletters : (c :: cs).takeWhile isWordChar = c :: cs.takeWhile isWordChar := by
          simp [isWordChar_of_isWordStart hc]
        rw [hletters] at h
        cases h
        exact spellable_word hc (List.all_eq_true.mp List.all_takeWhile)
      split at h
      · cases h
      · split at h <;> cases h
      · split at h
        · rename_i literal hliteral
          unfold number at h
          dsimp only at h
          split at h
          · split at h
            · rename_i k' hk
              cases h
              exact Number.spellable_literal? hliteral hk
            · cases h
          · cases h
        · split at h <;> cases h
          trivial

/-- The tokens of a text can be written, all but the end of the file after them. -/
theorem spellable_scan {fuel offset : Nat} {position : Position} {cs : List Char}
    {ts : List Token} (h : scan fuel offset position cs = .ok ts) :
    ∃ ks, ts.map Token.kind = ks ++ [.eof] ∧ ∀ k ∈ ks, k.Spellable := by
  induction fuel generalizing offset position cs ts with
  | zero =>
      cases h
      exact ⟨[], rfl, by simp⟩
  | succ fuel ih =>
      cases cs with
      | nil =>
          cases h
          exact ⟨[], rfl, by simp⟩
      | cons c cs =>
          simp only [scan] at h
          split at h
          · exact ih h
          · rename_i k length hpiece
            obtain ⟨rest, hrest, hout⟩ := Except.bind_eq_ok_iff.mp h
            cases hout
            obtain ⟨ks, hks, hall⟩ := ih hrest
            refine ⟨k :: ks, by simp [hks], ?_⟩
            intro l hl
            rcases List.mem_cons.mp hl with rfl | hl
            · exact spellable_piece hpiece
            · exact hall l hl
          · cases h

end Lexer

/-- A text is read as tokens that can be written and the end of the file. -/
theorem spellable_tokenize {source : String} {ts : List Token} (h : tokenize source = .ok ts) :
    ∃ ks, ts.map Token.kind = ks ++ [.eof] ∧ ∀ k ∈ ks, k.Spellable :=
  Lexer.spellable_scan h

end Shading
