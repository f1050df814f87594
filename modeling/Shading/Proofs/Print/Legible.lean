import Shading.Proofs.Parse.Legible
import Shading.Proofs.Print.Stmt

/-!
# Legible trees as spelled text

The pieces of a legible tree are written with its tokens, and these can all be written. So its
source text spells the tokens that the tree is read back from.
-/

namespace Shading

open Kind (Writable)
open Lexer (isName)
open Piece (spell)

/-- The pieces are written with the tokens, and all of these can be written. -/
def Piece.WrittenAs (ps : List Piece) (ks : List Kind) : Prop := spell ps = ks ∧ Writable ks

open Piece (WrittenAs)

variable {names : Names}

section Parts

theorem Expr.Legible.writtenAs {e : Expr} (h : e.Legible names) : WrittenAs e.pieces e.kinds :=
  ⟨e.spell_pieces h.writable, h.writable⟩

/-- An initializer is written with the kinds that lead it. -/
theorem Expr.writtenAs_after {e : Option Expr} (lead : List Kind) (hlead : Writable lead)
    (h : ∀ x, e = some x → x.Legible names) :
    WrittenAs (piecesAfter lead e) (kindsAfter lead e) := by
  cases e with
  | none => simp [WrittenAs, piecesAfter, kindsAfter]
  | some x =>
      obtain ⟨hx, hwritable⟩ := (h x rfl).writtenAs
      simp [WrittenAs, piecesAfter, kindsAfter, hx, hwritable, hlead]

theorem Declares.writable {name : String} {type : Ty} (h : Declares names name type) :
    Writable type.kinds ∧ (Kind.ident name).Spellable := ⟨h.type.writable, h.name⟩

theorem VariableDeclaration.Legible.writtenAs {d : VariableDeclaration} (h : d.Legible names) :
    WrittenAs d.pieces d.kinds := by
  obtain ⟨hinit, hwritable⟩ := Expr.writtenAs_after [.symbol .eq] (by simp) h.initializer
  have hconst : Writable (if d.isConst then [Kind.keyword .const] else []) := by
    split <;> simp
  exact ⟨by simp [pieces, kinds, hinit], by simpa [kinds, hconst, hwritable] using
    h.declares.writable⟩

theorem OptionDeclaration.Legible.writtenAs {d : OptionDeclaration} (h : d.Legible names) :
    WrittenAs d.pieces d.kinds := by
  obtain ⟨hdefault, hwritable⟩ := Expr.writtenAs_after [.symbol .eq] (by simp) h.default
  exact ⟨by simp [pieces, kinds, hdefault], by simpa [kinds, hwritable] using h.declares.writable⟩

theorem ConstDeclaration.Legible.writtenAs {d : ConstDeclaration} (h : d.Legible names) :
    WrittenAs d.pieces d.kinds := by
  obtain ⟨hvalue, hwritable⟩ := h.value.writtenAs
  exact ⟨by simp [pieces, kinds, hvalue], by simpa [kinds, hwritable] using h.declares.writable⟩

/-- Kinds that a text spells can be written. -/
theorem Lexer.Spells.writable {next cs : List Char} {ks : List Kind} (h : Spells next cs ks) :
    Writable ks := by
  induction h with
  | nil => simp
  | blank _ _ _ ih => exact ih
  | token hk _ _ ih => exact Kind.writable_cons.mpr ⟨hk, ih⟩

theorem Lexer.Phrase.writable {p : Char → Bool} {s : String} {ks : List Kind}
    (h : Phrase p s ks) : Writable ks := Spells.writable (h [] (by simp))

theorem InterfaceVariable.Legible.writable {v : InterfaceVariable} (h : v.Legible names) :
    Writable v.kinds := by
  simpa [kinds, v.slot.phrase_text.writable] using h.declares.writable

theorem ExternalVariable.Legible.writable {v : ExternalVariable} (h : v.Legible names) :
    Writable v.kinds := by
  have hnames : isName "set" = true ∧ isName "binding" = true ∧ isName "storage" = true := by decide
  have hattributes : Writable (Parse.bracketed v.attributes) := by
    unfold attributes
    split <;> simp [Parse.bracketed, Parse.attributeKinds, Parse.commas, AttributeArgument.kind,
      Kind.spellable_ident, hnames]
  simpa [kinds, hattributes] using h.declares.writable

/-- The header of a function that can be read can be written. -/
theorem Signature.Legible.writable {f : Signature} (h : f.Legible names) : Writable f.kinds := by
  have hentry : Writable (entryKinds f.entry) := by
    cases f.entry with
    | none => simp [entryKinds]
    | some e => exact e.phrase_line.1.writable
  have hparameters : ∀ p ∈ f.parameters, Writable p.kinds := by
    intro p hp
    simpa [Parameter.kinds] using (h.parameters p hp).writable
  obtain ⟨htype, hname⟩ := h.declares.writable
  simp only [kinds, Kind.writable_append, Kind.writable_cons, Kind.writable_argumentList,
    List.forall_mem_map]
  exact ⟨hentry, htype, hname, hparameters⟩

theorem writable_dottedKinds {path : List String} (h : ∀ part ∈ path, isName part = true) :
    Writable (dottedKinds path) := by
  induction path with
  | nil => simp [dottedKinds]
  | cons part rest ih =>
      have hpart : (Kind.ident part).Spellable := h part (by simp)
      have hrest := ih fun q hq => h q (List.mem_cons_of_mem _ hq)
      cases rest with
      | nil => simpa [dottedKinds] using hpart
      | cons q rest => simpa [dottedKinds] using ⟨hpart, hrest⟩

end Parts

theorem writtenAs_flatMap {α : Type} {xs : List α} {f : α → List Piece} {g : α → List Kind}
    (h : ∀ x ∈ xs, WrittenAs (f x) (g x)) : WrittenAs (xs.flatMap f) (xs.flatMap g) := by
  induction xs with
  | nil => simp [WrittenAs]
  | cons x xs ih =>
      obtain ⟨hx, hwritable⟩ := h x (by simp)
      obtain ⟨hxs, hrest⟩ := ih fun y hy => h y (List.mem_cons_of_mem _ hy)
      exact ⟨by simp only [List.flatMap_cons, Piece.spell_append, hx, hxs],
        by simpa using ⟨hwritable, hrest⟩⟩

namespace Stmt

theorem writtenAs_list {ss : List Stmt} (h : ∀ s ∈ ss, WrittenAs s.pieces s.kinds) :
    WrittenAs (piecesList ss) (kindsList ss) := by
  rw [piecesList_eq_flatMap, kindsList_eq_flatMap]
  exact writtenAs_flatMap h

theorem writtenAs_arms {arms : List (Expr × Stmt)} (hconditions : ∀ a ∈ arms, a.1.Legible names)
    (h : ∀ a ∈ arms, WrittenAs a.2.pieces a.2.kinds) (lead : List Kind) (hlead : Writable lead) :
    WrittenAs (piecesArms lead arms) (kindsArms lead arms) := by
  induction arms generalizing lead with
  | nil => simp [WrittenAs, piecesArms, kindsArms]
  | cons a rest ih =>
      obtain ⟨hc, hcondition⟩ := (hconditions a (by simp)).writtenAs
      obtain ⟨hs, hwritable⟩ := h a (by simp)
      obtain ⟨hrest, htail⟩ := ih (fun b hb => hconditions b (List.mem_cons_of_mem _ hb))
        (fun b hb => h b (List.mem_cons_of_mem _ hb)) [.keyword .else, .keyword .if] (by simp)
      exact ⟨by simp [piecesArms, kindsArms, hc, hs, hrest],
        by simpa [kindsArms] using ⟨hlead, hcondition, hwritable, htail⟩⟩

theorem writtenAs_else {otherwise : Option Stmt}
    (h : ∀ o, otherwise = some o → WrittenAs o.pieces o.kinds) :
    WrittenAs (piecesElse otherwise) (kindsElse otherwise) := by
  cases otherwise with
  | none => simp [WrittenAs, piecesElse, kindsElse]
  | some o =>
      obtain ⟨ho, hwritable⟩ := h o rfl
      exact ⟨by simp [piecesElse, kindsElse, ho], by simpa [kindsElse] using hwritable⟩

theorem writtenAs_block {s : Span} {items : List Stmt}
    (h : ∀ i ∈ items, WrittenAs i.pieces i.kinds) :
    WrittenAs (pieces (.block s items)) (kinds (.block s items)) := by
  obtain ⟨hitems, hwritable⟩ := writtenAs_list h
  exact ⟨by simp [pieces, kinds, hitems], by simpa [kinds] using hwritable⟩

/-- An optional block is written where its branches are. -/
theorem writtenAs_optional {s : Span} {c : Expr} {b : Stmt} {otherwise : Option Stmt}
    (hc : c.Legible names) (hbody : WrittenAs b.pieces b.kinds)
    (h : ∀ o, otherwise = some o → WrittenAs o.pieces o.kinds) :
    WrittenAs (pieces (.optional s c b otherwise)) (kinds (.optional s c b otherwise)) := by
  obtain ⟨hc, hcondition⟩ := hc.writtenAs
  obtain ⟨hbody, hwritable⟩ := hbody
  obtain ⟨hotherwise, hrest⟩ := writtenAs_else h
  exact ⟨by simp [pieces, kinds, hc, hbody, hotherwise],
    by simpa [kinds] using ⟨hcondition, hwritable, hrest⟩⟩

theorem LegibleInit.writtenAs {init : Option Stmt} (h : LegibleInit names init) :
    WrittenAs (piecesInit init) (kindsInit init) := by
  cases h with
  | none => simp [WrittenAs, piecesInit, kindsInit]
  | var hd =>
      obtain ⟨heq, hwritable⟩ := hd.writtenAs
      exact ⟨by simp [piecesInit, endsClause, kindsInit, pieces, kinds, heq], hwritable⟩
  | expr he =>
      obtain ⟨heq, hwritable⟩ := he.writtenAs
      exact ⟨by simp [piecesInit, endsClause, kindsInit, pieces, kinds, heq],
        by simpa [kindsInit, kinds] using hwritable⟩

/-- One case for each form of a legible statement. -/
theorem Legible.writtenAs {place : Place} {s : Stmt} (h : Legible names place s) :
    WrittenAs s.pieces s.kinds := by
  induction h with
  | var hd => exact hd.writtenAs
  | optional hc _ ih => exact writtenAs_optional hc (writtenAs_block ih) (by simp)
  | optionalBlock hc _ _ ih ihothers =>
      refine writtenAs_optional hc (writtenAs_block ih) ?_
      rintro _ ⟨⟩
      exact writtenAs_block ihothers
  | optionalChain hc _ _ ih ihnext =>
      refine writtenAs_optional hc (writtenAs_block ih) ?_
      rintro _ ⟨⟩
      exact ihnext
  | block _ ih => exact writtenAs_block ih
  | branch _ hconditions _ _ _ _ ih ihotherwise =>
      obtain ⟨harms, hwritable⟩ :=
        writtenAs_arms hconditions ih [.keyword .if] (by simp)
      obtain ⟨hotherwise, hrest⟩ := writtenAs_else ihotherwise
      exact ⟨by simp [pieces, kinds, harms, hotherwise],
        by simpa [kinds] using ⟨hwritable, hrest⟩⟩
  | forLoop hinit hcondition hstep _ ih =>
      obtain ⟨hinit, hfirst⟩ := hinit.writtenAs
      obtain ⟨hcondition, hsecond⟩ := Expr.writtenAs_after [] (by simp) hcondition
      obtain ⟨hstep, hthird⟩ := Expr.writtenAs_after [] (by simp) hstep
      obtain ⟨hbody, hwritable⟩ := ih
      exact ⟨by simp [pieces, kinds, hinit, hcondition, hstep, hbody],
        by simpa [kinds] using ⟨hfirst, hsecond, hthird, hwritable⟩⟩
  | whileLoop hc _ ih =>
      obtain ⟨hc, hcondition⟩ := hc.writtenAs
      obtain ⟨hbody, hwritable⟩ := ih
      exact ⟨by simp [pieces, kinds, hc, hbody], by simpa [kinds] using ⟨hcondition, hwritable⟩⟩
  | doWhile _ hc ih =>
      obtain ⟨hc, hcondition⟩ := hc.writtenAs
      obtain ⟨hbody, hwritable⟩ := ih
      exact ⟨by simp [pieces, kinds, hc, hbody], by simpa [kinds] using ⟨hwritable, hcondition⟩⟩
  | expr he =>
      obtain ⟨heq, hwritable⟩ := he.writtenAs
      exact ⟨by simp [pieces, kinds, heq], by simpa [kinds] using hwritable⟩
  | leaveLoop | nextRound | discard => exact ⟨by simp [pieces], by simp [kinds]⟩
  | ret hvalue =>
      obtain ⟨hvalue, hwritable⟩ := Expr.writtenAs_after [] (by simp) hvalue
      exact ⟨by simp [pieces, kinds, hvalue], by simpa [kinds] using hwritable⟩
  | @struct _ d hname hfields =>
      have hall : ∀ f ∈ d.fields, Writable (StructField.kinds f) := by
        intro f hf
        obtain ⟨htype, hname⟩ := (hfields f hf).writable
        simpa [StructField.kinds] using ⟨hname, htype⟩
      exact ⟨by simp [pieces], by simpa [kinds, Kind.writable_flatMap] using ⟨hname, hall⟩⟩
  | inputs hall | outputs hall =>
      have hwritable : ∀ v ∈ _, Writable (InterfaceVariable.kinds v) :=
        fun v hv => (hall v hv).writable
      exact ⟨by simp [pieces], by simpa [kinds, Kind.writable_flatMap] using hwritable⟩
  | externals hall =>
      have hwritable : ∀ v ∈ _, Writable (ExternalVariable.kinds v) :=
        fun v hv => (hall v hv).writable
      exact ⟨by simp [pieces], by simpa [kinds, Kind.writable_flatMap] using hwritable⟩
  | options hall =>
      obtain ⟨hentries, hwritable⟩ := writtenAs_flatMap fun d hd => (hall d hd).writtenAs
      exact ⟨by rw [pieces, Piece.spell_keyword, Piece.spell_inBraces, hentries, kinds],
        by simpa [kinds] using hwritable⟩
  | consts hall =>
      obtain ⟨hentries, hwritable⟩ := writtenAs_flatMap fun d hd => (hall d hd).writtenAs
      exact ⟨by rw [pieces, Piece.spell_keyword, Piece.spell_inBraces, hentries, kinds],
        by simpa [kinds] using hwritable⟩
  | function hf _ ih =>
      obtain ⟨hitems, hwritable⟩ := writtenAs_list ih
      exact ⟨by simp [pieces, kinds, hitems], by simpa [kinds] using ⟨hf.writable, hwritable⟩⟩
  | library hne hpath =>
      have hwritable : Writable (dottedKinds _) := writable_dottedKinds hpath
      exact ⟨by simp [pieces], by simpa [kinds] using hwritable⟩

/-- The source text of a tree with legible items spells the tokens of the tree. -/
theorem Legible.spells_sourceText {tree : Stmt} (h : ∀ i ∈ tree.items, Legible names .file i) :
    ∃ text, tree.sourceText = .ok text ∧ Lexer.Spells [] text.toList tree.fileKinds := by
  obtain ⟨heq, hwritable⟩ := writtenAs_list fun i hi => (h i hi).writtenAs
  rw [← heq] at hwritable
  obtain ⟨text, htext, hspells⟩ := Stmt.spells_sourceText hwritable
  exact ⟨text, htext, by rwa [filePieces, heq] at hspells⟩

end Stmt

end Shading
