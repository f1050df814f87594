import Shading.Print.Source
import Shading.Proofs.Print.Relaxed
import Shading.Proofs.Print.Stmt
import Shading.Proofs.Token.Misreading
import Shading.Proofs.Token.Spellable

/-!
# The tokens of a source text

Every tree has a source text. The lexer gives exactly the tokens of its pieces if and only if all
of them can be written, none is too large a number and no number stands right before a point.
-/

namespace Shading

open Kind (Writable)
open Piece (spell)

namespace Kind

@[simp] theorem isTooLarge_symbol (s : Symbol) : (symbol s).isTooLarge = false := rfl

@[simp] theorem isNumber_symbol (s : Symbol) : (symbol s).isNumber = false := rfl

@[simp] theorem isTooLarge_ident (name : String) : (ident name).isTooLarge = false := rfl

@[simp] theorem isNumber_ident (name : String) : (ident name).isNumber = false := rfl

end Kind

namespace Constant

/-- The magnitude of the least integer is the limit of the literals. -/
@[simp] theorem isTooLarge_magnitude (c : Constant) : c.magnitude.isTooLarge = false := by
  cases c with
  | int i =>
      have hlow : -2147483648 ≤ i.toInt := i.le_toInt
      have hhigh : i.toInt < 2147483648 := i.toInt_lt
      exact decide_eq_false (by simp only [Number.intLimit]; omega)
  | _ => rfl

theorem magnitude_ne_symbol (c : Constant) (s : Symbol) : c.magnitude ≠ .symbol s := by
  cases c <;> simp [magnitude]

end Constant

namespace Piece

/-- Whether the piece ends in a number; a negative value ends in a parenthesis. -/
def isNumber : Piece → Bool
  | .token k => k.isNumber
  | .value _ c => !c.isNegative && c.magnitude.isNumber
  | .reference .. => false

/-- No token is too large a number, and no number, be it a value or not, stands right before a
point. -/
def Faultless : List Piece → Prop
  | [] => True
  | a :: ps =>
    (∀ k, a = .token k → k.isTooLarge = false) ∧
      (a.isNumber = true → ps.head? ≠ some (symbol .dot)) ∧ Faultless ps

theorem head?_spell (ps : List Piece) :
    (spell ps).head? = some (.symbol .dot) ↔ ps.head? = some (symbol .dot) := by
  cases ps with
  | nil => simp
  | cons a ps =>
      cases a with
      | token k => simp [symbol]
      | reference s n => simp [symbol]
      | value s c =>
          have hne := c.magnitude_ne_symbol .dot
          cases hsign : c.isNegative <;>
            simp [symbol, Constant.literal, Kind.parenthesized, hsign, hne]

/-- A value is never too large, and a negative one may stand before a point. -/
theorem faultless_spell (ps : List Piece) : Lexer.Faultless (spell ps) ↔ Faultless ps := by
  induction ps with
  | nil => simp [Lexer.Faultless, Faultless]
  | cons a ps ih =>
      have hhead := head?_spell ps
      cases a with
      | token k => simp [Lexer.Faultless, Faultless, isNumber, hhead, ih]
      | reference s n => simp [Lexer.Faultless, Faultless, isNumber, ih]
      | value s c =>
          cases hsign : c.isNegative <;>
            simp [Constant.literal, Kind.parenthesized, hsign, Lexer.Faultless, Faultless,
              isNumber, hhead, ih]

end Piece

theorem Dialect.source_total :
    source.Relaxed (fun _ => False) (fun _ => False) source :=
  ⟨fun _ _ => .ok, fun _ => .ok⟩

namespace Stmt

theorem failsWithin_writeItems (items : List Stmt) (w : Writer) :
    Except.FailsWithin (fun _ => False) (writeItems items w) := by
  induction items generalizing w with
  | nil => exact .ok trivial
  | cons s rest ih =>
      have hopen := (Dialect.relaxed_openStmt Dialect.source_total s w.blankLine w).failsWithin
      rw [writeItems, Dialect.stmt, bind_assoc]
      exact hopen.andThen fun v => ih v.close

/-- The source dialect refuses nothing. -/
theorem exists_sourceText (tree : Stmt) : ∃ text, tree.sourceText = .ok text := by
  have hwrite := failsWithin_writeItems tree.items Writer.empty
  unfold sourceText
  cases h : writeItems tree.items Writer.empty with
  | ok w => exact ⟨w.text, rfl⟩
  | error e => exact (hwrite.of_error h).elim

theorem tokenize_sourceText_iff {tree : Stmt} {text : String} (htext : tree.sourceText = .ok text) :
    (∃ ts, tokenize text = .ok ts ∧ ts.map Token.kind = spell tree.filePieces ++ [.eof]) ↔
      Writable (spell tree.filePieces) ∧ Piece.Faultless tree.filePieces := by
  rw [← Piece.faultless_spell]
  have hspells (h : Writable (spell tree.filePieces)) :
      Lexer.Spells [] text.toList (spell tree.filePieces) := by
    obtain ⟨text', htext', hspells⟩ := spells_sourceText h
    obtain rfl := Except.ok.inj (htext.symm.trans htext')
    exact hspells
  constructor
  · rintro ⟨ts, hts, hkinds⟩
    obtain ⟨ks, hks, hspellable⟩ := spellable_tokenize hts
    obtain rfl : ks = spell tree.filePieces := List.append_cancel_right (hks.symm.trans hkinds)
    refine ⟨hspellable, ?_⟩
    by_contra hfault
    have hless := (Lexer.count_dot_of_scan (hspells hspellable) (Nat.le_refl _) hts).2 hfault
    rw [hkinds] at hless
    simp at hless
  · rintro ⟨hwritable, hfaultless⟩
    exact Lexer.scan_of_spells (hspells hwritable) hfaultless _ (Nat.le_refl _) 0 Position.origin

end Stmt

end Shading
