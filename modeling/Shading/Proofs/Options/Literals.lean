import Shading.Proofs.Options.Replaced
import Shading.Proofs.Options.Survivors
import Shading.Proofs.Print.RoundTrip
import Shading.Proofs.Print.Tokenized

/-!
# Option values in the printed text

The source text of a specialized tree has a literal in the place of every reference that gave
way to a value. The lexer gives these literals back unless a number stands right before a point
or a number is not finite.
-/

namespace Shading

open Kind (Writable)
open Parse
open Piece (spell symbol)
open Stmt (writtenAs_list)

/-- Only a float may have no literal. -/
theorem Constant.spellable_magnitude (c : Constant) :
    c.magnitude.Spellable ↔ ∀ x, c = .float x → x.isFinite = true := by
  cases c with
  | bool _ | int _ | uint _ => simp [magnitude, Kind.Spellable]
  | float x => simp [magnitude, Kind.Spellable, x.isFinite_ofParts, x.isNegative_ofParts]

namespace Permutation

variable {p : Permutation} {ps qs : List Piece}

/-- A chosen piece is a brace or what became of a piece of the source. -/
theorem Chooses.of_mem (h : p.Chooses ps qs) {b : Piece} (hb : b ∈ qs) :
    (b = symbol .lbrace ∨ b = symbol .rbrace) ∨ ∃ a ∈ ps, p.Becomes a b := by
  induction h with
  | nil => cases hb
  | keep hac _ ih =>
      rcases List.mem_cons.mp hb with rfl | hb
      · exact .inr ⟨_, List.mem_cons_self, hac⟩
      · rcases ih hb with hbrace | ⟨a, ha, hab⟩
        · exact .inl hbrace
        · exact .inr ⟨a, List.mem_cons_of_mem _ ha, hab⟩
  | leave _ ih =>
      rcases ih hb with hbrace | ⟨a, ha, hab⟩
      · exact .inl hbrace
      · exact .inr ⟨a, List.mem_cons_of_mem _ ha, hab⟩
  | brace hc _ ih =>
      rcases List.mem_cons.mp hb with rfl | hb
      · exact .inl hc
      · exact ih hb

/-- Out of pieces that can be written, all can be written again but values that are not
finite. -/
theorem Chooses.writable_iff (h : p.Chooses ps qs) (hps : Writable (spell ps)) :
    Writable (spell qs) ↔ ∀ s x, Piece.value s (.float x) ∈ qs → x.isFinite = true := by
  simp only [spell, Kind.writable_flatMap] at hps ⊢
  constructor
  · intro hqs s x hx
    have hliteral : Writable (Constant.float x).literal := hqs _ hx
    rw [Constant.writable_literal, Constant.spellable_magnitude] at hliteral
    exact hliteral x rfl
  · intro hfinite b hb
    rcases h.of_mem hb with (rfl | rfl) | ⟨a, ha, hab⟩
    · simp [Piece.literal, symbol]
    · simp [Piece.literal, symbol]
    · cases hab with
      | same => exact hps b ha
      | @chosen s n v _ =>
          rw [Piece.literal, Constant.writable_literal, Constant.spellable_magnitude]
          rintro x rfl
          exact hfinite s x hb

end Permutation

/-- Of a file that was read all pieces can be written. -/
theorem Stmt.writable_filePieces {source : String} {file : Stmt}
    (h : parseSource source Registry.standard = .ok file) : Writable (spell file.filePieces) := by
  obtain ⟨tokens, htokens, hparse⟩ := parseSource_eq_ok_iff.mp h
  obtain ⟨ks, hks, hwritable⟩ := spellable_tokenize htokens
  obtain ⟨p, items, rfl, hitems, -⟩ := legible_of_parseTokens hks hwritable hparse
  obtain ⟨heq, hitems⟩ := writtenAs_list fun i hi => (hitems i hi).writtenAs
  exact heq ▸ hitems

namespace Specializer

theorem exists_process {source : String} {z : Specializer} {ps : List Piece}
    (h : ((parseSource source Registry.standard).toOption.bind fun file =>
      (z.process file).toOption.map Stmt.filePieces) = some ps) :
    ∃ file tree, parseSource source Registry.standard = .ok file ∧ z.process file = .ok tree ∧
      tree.filePieces = ps := by
  cases hparse : parseSource source Registry.standard with
  | error e =>
      rw [hparse] at h
      cases h
  | ok file =>
      rw [hparse] at h
      change (z.process file).toOption.map Stmt.filePieces = some ps at h
      cases hprocess : z.process file with
      | error e =>
          rw [hprocess] at h
          cases h
      | ok tree =>
          rw [hprocess] at h
          exact ⟨file, tree, rfl, hprocess, Option.some.inj h⟩

/-- A specialized tree has a source text, and its pieces are pieces of the tree before, with
values in the place of references to options. The text is read as the tokens of these pieces, each
value as one literal, a negative one with a minus and parentheses, if and only if all of them can
be written, no token is too large a number and no number stands right before a point. If the pieces
of the tree before can be written, then so can all but values that are not finite. -/
theorem process_literals {file tree : Stmt} {z : Specializer}
    (hprocess : z.process file = .ok tree) :
    ∃ p text, Permutation.of z file = .ok p ∧ tree.sourceText = .ok text ∧
      p.Chooses file.filePieces tree.filePieces ∧
      ((∃ ts, tokenize text = .ok ts ∧ ts.map Token.kind = spell tree.filePieces ++ [.eof]) ↔
        Writable (spell tree.filePieces) ∧ Piece.Faultless tree.filePieces) ∧
      (Writable (spell file.filePieces) → (Writable (spell tree.filePieces) ↔
        ∀ s x, Piece.value s (.float x) ∈ tree.filePieces → x.isFinite = true)) := by
  obtain ⟨p, scopes, hp, -, hrun⟩ := of_process hprocess
  obtain ⟨text, htext⟩ := tree.exists_sourceText
  have hchooses := Permutation.chooses_filePieces hrun
  exact ⟨p, text, hp, htext, hchooses, Stmt.tokenize_sourceText_iff htext, hchooses.writable_iff⟩

/-- A member of an option, which no integer literal can stand in for. -/
def memberSource : String := "option \x7b int S; \x7d void f() \x7b int a = S.x; \x7d"

/-- The pieces of the function with a value in the place of `S`. -/
def memberPieces (v : Constant) : List Piece :=
  Piece.tokens [.ident "void", .ident "f", .symbol .lparen, .symbol .rparen, .symbol .lbrace,
      .ident "int", .ident "a", .symbol .eq] ++
    .value (Span.ofRange 37 38) v ::
      Piece.tokens [.symbol .dot, .ident "x", .symbol .semicolon, .symbol .rbrace]

/-- A negative value is read back before a point. A positive one is not, as it gets no
parentheses there. -/
theorem member_literals :
    (∃ file tree text ts, parseSource memberSource Registry.standard = .ok file ∧
      process ⟨[("S", .int (-1))], ⟨false, false⟩, .newest⟩ file = .ok tree ∧
      tree.sourceText = .ok text ∧ tokenize text = .ok ts ∧
      ts.map Token.kind = spell (memberPieces (.int (-1))) ++ [.eof]) ∧
    ∃ file tree text, parseSource memberSource Registry.standard = .ok file ∧
      process ⟨[("S", .int 1)], ⟨false, false⟩, .newest⟩ file = .ok tree ∧
      tree.sourceText = .ok text ∧
      ¬∃ ts, tokenize text = .ok ts ∧
        ts.map Token.kind = spell (memberPieces (.int 1)) ++ [.eof] := by
  constructor
  · obtain ⟨file, tree, hparse, hprocess, hpieces⟩ : ∃ file tree,
        parseSource memberSource Registry.standard = .ok file ∧
        process ⟨[("S", .int (-1))], ⟨false, false⟩, .newest⟩ file = .ok tree ∧
        tree.filePieces = memberPieces (.int (-1)) := exists_process (by decide +kernel)
    obtain ⟨p, text, _, htext, _, htokens, hfinite⟩ := process_literals hprocess
    rw [hpieces] at htokens hfinite
    have hwritable := (hfinite (Stmt.writable_filePieces hparse)).mpr
      (by simp [memberPieces, Piece.tokens])
    have hfaultless : Piece.Faultless (memberPieces (.int (-1))) :=
      (Piece.faultless_spell _).mp (by decide +kernel)
    obtain ⟨ts, hts, hkinds⟩ := htokens.mpr ⟨hwritable, hfaultless⟩
    exact ⟨file, tree, text, ts, hparse, hprocess, htext, hts, hkinds⟩
  · obtain ⟨file, tree, hparse, hprocess, hpieces⟩ : ∃ file tree,
        parseSource memberSource Registry.standard = .ok file ∧
        process ⟨[("S", .int 1)], ⟨false, false⟩, .newest⟩ file = .ok tree ∧
        tree.filePieces = memberPieces (.int 1) := exists_process (by decide +kernel)
    obtain ⟨p, text, _, htext, _, htokens, _⟩ := process_literals hprocess
    rw [hpieces, ← Piece.faultless_spell] at htokens
    exact ⟨file, tree, text, hparse, hprocess, htext, fun h =>
      absurd (htokens.mp h).2 (by decide +kernel)⟩

end Specializer

end Shading
