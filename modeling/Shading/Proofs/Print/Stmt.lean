import Shading.Proofs.Print.Declaration

/-!
# Statements as spelled text

The source dialect prints every statement whose pieces can be written, and its text spells the
pieces of the statement after the tokens of the text before it.
-/

namespace Shading

open Lexer (Phrase Starts breaks isFree separates)
open Kind (parenthesized braced Writable)
open Piece (spell)
open Writer (Writes)

variable {p : Char → Bool} {w : Writer} {ks : List Kind}

namespace Dialect

/-- An expression on the current line. -/
theorem writes_expr {e : Expr} (he : Writable (spell e.pieces)) (hw : Writes isFree w ks) :
    ∃ w', source.expr e w = .ok w' ∧ Writes separates w' (ks ++ spell e.pieces) := by
  obtain ⟨t, ht, hoperand⟩ := e.operand_spell he
  refine ⟨w.push t, ?_, hw.push hoperand.1.separated hoperand.free⟩
  simp only [expr, ht, Except.ok_bind]
  rfl

/-- An expression after its opening parenthesis, and the closing one. -/
theorem writes_condition {c : Expr} (hc : Writable (spell c.pieces))
    (hw : Writes isFree w (ks ++ [.symbol .lparen])) {close : String}
    {ls : List Kind} (hclose : Phrase isFree close (.symbol .rparen :: ls))
    (hstart : Starts separates close) :
    ∃ w', source.expr c w = .ok w' ∧
      Writes isFree (w'.push close) (ks ++ parenthesized (spell c.pieces) ++ ls) := by
  obtain ⟨w', hrun, hw'⟩ := writes_expr hc hw
  refine ⟨w', hrun, ?_⟩
  have hpush := hw'.pushAfter hclose hstart
  simpa [parenthesized] using hpush

/-- An optional expression after its lead. -/
theorem writes_exprAfter {lead : String} {ls : List Kind} {e : Option Expr}
    (hlead : Phrase isFree lead ls) (hstart : Starts separates lead)
    (he : Writable (spell (Expr.piecesAfter ls e))) (hw : Writes separates w ks) :
    ∃ w', source.exprAfter lead e w = .ok w' ∧
      Writes separates w' (ks ++ spell (Expr.piecesAfter ls e)) := by
  cases e with
  | none => exact ⟨w, rfl, by simpa [Expr.piecesAfter] using hw⟩
  | some x =>
      simp only [Expr.piecesAfter, Piece.spell_append, Piece.spell_tokens,
        Kind.writable_append] at he ⊢
      obtain ⟨w', hrun, hw'⟩ := writes_expr he.2 (hw.pushAfter hlead hstart)
      exact ⟨w', hrun, by simpa using hw'⟩

theorem phrase_equals : Phrase isFree " = " [.symbol .eq] := .fixed (by decide)

/-- A variable declaration up to its semicolon. -/
theorem writes_variableDeclaration {d : VariableDeclaration} (hd : Writable (spell d.pieces))
    (hw : Writes isFree w ks) : ∃ w' ls, source.variableDeclaration d w = .ok w' ∧
      spell d.pieces = ls ++ [.symbol .semicolon] ∧ Writes separates w' (ks ++ ls) := by
  simp only [VariableDeclaration.pieces, Piece.spell_append, Piece.spell_tokens,
    Kind.writable_append, Kind.writable_cons, Kind.spellable_ident] at hd
  have hdeclares := operand_declared hd.1.2.1 hd.1.2.2.1
  obtain ⟨ls, hls, hconst⟩ : ∃ ls, ls = (if d.isConst then [Kind.keyword .const] else []) ∧
      Writes isFree (if d.isConst then w.push "const " else w) (ks ++ ls) := by
    refine ⟨_, rfl, ?_⟩
    cases d.isConst with
    | false => simpa using hw
    | true => exact hw.push (.fixed (by decide)) ⟨'c', rfl, rfl⟩
  have hname := hconst.push hdeclares.1.separated hdeclares.free
  obtain ⟨w', hrun, hw'⟩ := writes_exprAfter phrase_equals ⟨' ', rfl, rfl⟩ hd.2.1 hname
  refine ⟨w', _, hrun, ?_, by simpa using hw'⟩
  simp [VariableDeclaration.pieces, hls]

/-- What follows a header: nothing of the body's text is missing. -/
theorem writes_openBody {body : Stmt} (hw : Writes p w ks) (hblank : p ' ' = true)
    (hline : p '\n' = true) : Writes isFree (openBody body w) ks := by
  unfold openBody
  split
  · exact hw.space hblank
  · exact (hw.close hline).indent

theorem writes_closeBody {body : Stmt} (hw : Writes isFree w ks) :
    Writes isFree (closeBody body w) ks := by
  unfold closeBody
  split
  · exact hw
  · exact (hw.close rfl).dedent

end Dialect

open Dialect

namespace Stmt

/-- From every writer the source dialect prints the statement, an optional block also right
after an `else`. -/
def Prints (s : Stmt) : Prop :=
  ∀ (p : Char → Bool) (w : Writer) (ks : List Kind), Writes p w ks →
    (p = isFree ∨ (s.isOptional = true ∧ p = separates)) →
    ∃ w', Dialect.source.openStmt s w = .ok w' ∧ Writes isFree w' (ks ++ spell s.pieces)

/-- A body after its header. -/
theorem Prints.body {s : Stmt} (h : s.Prints) (hw : Writes p w ks) (hblank : p ' ' = true)
    (hline : p '\n' = true) : ∃ w', Dialect.source.openStmt s (openBody s w) = .ok w' ∧
      Writes isFree (closeBody s w') (ks ++ spell s.pieces) := by
  obtain ⟨w', hrun, hw'⟩ := h isFree _ ks (writes_openBody hw hblank hline) (.inl rfl)
  exact ⟨w', hrun, writes_closeBody hw'⟩

theorem writes_stmts {items : List Stmt} (h : ∀ i ∈ items, i.Prints) (hw : Writes isFree w ks) :
    ∃ w', Dialect.source.stmts items w = .ok w' ∧
      Writes isFree w' (ks ++ spell (piecesList items)) := by
  induction items generalizing w ks with
  | nil => exact ⟨w, rfl, by simpa [piecesList] using hw⟩
  | cons s ss ih =>
      obtain ⟨v, hv, hwv⟩ := h s (by simp) isFree w ks hw (.inl rfl)
      obtain ⟨w', hrun, hw'⟩ := ih (fun i hi => h i (List.mem_cons_of_mem _ hi)) (hwv.close rfl)
      refine ⟨w', ?_, by simpa [piecesList] using hw'⟩
      simp only [Dialect.stmts, hv, hrun, Except.ok_bind]

/-- What is written between braces after a header line. -/
theorem writes_nested {run : Writer → Except CodegenError Writer} {header : String}
    (ls : List Kind) {js : List Kind}
    (hrun : ∀ {w ks}, Writes isFree w ks → ∃ w', run w = .ok w' ∧ Writes isFree w' (ks ++ js))
    (hheader : Phrase isFree header (ls ++ [.symbol .lbrace])) (hstart : Starts isFree header)
    (hw : Writes isFree w ks) : ∃ w', run (w.line header).indent = .ok w' ∧
      Writes isFree (w'.dedent.push "\x7d") (ks ++ (ls ++ braced js)) := by
  have hclose : Phrase isFree "\x7d" [.symbol .rbrace] := .delimiter rfl (by decide)
  obtain ⟨w', hv, hw'⟩ := hrun (hw.line hheader hstart).indent
  refine ⟨w', hv, ?_⟩
  have hend := hw'.dedent.push hclose ⟨'\x7d', rfl, rfl⟩
  simpa [braced] using hend

/-- Statements between braces. -/
theorem writes_braced {items : List Stmt} (h : ∀ i ∈ items, i.Prints) (hw : Writes isFree w ks) :
    ∃ w', Dialect.source.stmts items (w.push "\x7b").close.indent = .ok w' ∧
      Writes isFree (w'.dedent.push "\x7d") (ks ++ braced (spell (piecesList items))) :=
  writes_nested [] (writes_stmts h) (.delimiter rfl (by decide)) ⟨'\x7b', rfl, rfl⟩ hw

theorem writes_arms {arms : List (Expr × Stmt)}
    (hconditions : ∀ a ∈ arms, Writable (spell a.1.pieces))
    (harms : ∀ a ∈ arms, a.2.Prints) {lead : String} {ls : List Kind}
    (hlead : Phrase isFree lead (ls ++ [.symbol .lparen])) (hstart : Starts isFree lead)
    (hw : Writes isFree w ks) :
    ∃ w', Dialect.source.arms lead arms w = .ok w' ∧
      Writes isFree w' (ks ++ spell (piecesArms ls arms)) := by
  induction arms generalizing lead ls w ks with
  | nil => exact ⟨w, rfl, by simpa [piecesArms] using hw⟩
  | cons a rest ih =>
      obtain ⟨c, s⟩ := a
      have hhead := hw.follow rfl hlead hstart
      rw [← List.append_assoc] at hhead
      obtain ⟨v, hv, hwv⟩ := writes_condition (hconditions (c, s) (by simp)) hhead
        (.delimiter (s := ")") rfl (by decide)) ⟨')', rfl, rfl⟩
      obtain ⟨u, hu, hwu⟩ := (harms (c, s) (by simp)).body hwv rfl rfl
      have helse : Phrase isFree "else if ("
          ([.keyword .else, .keyword .if] ++ [.symbol .lparen]) := .fixed (by decide)
      obtain ⟨w', hrun, hw'⟩ := ih (fun b hb => hconditions b (List.mem_cons_of_mem _ hb))
        (fun b hb => harms b (List.mem_cons_of_mem _ hb)) helse ⟨'e', rfl, rfl⟩ hwu
      refine ⟨w', ?_, by simpa [piecesArms] using hw'⟩
      simp only [Dialect.arms, hv, hu, hrun, Except.ok_bind]

theorem phrase_else : Phrase separates "else" [.keyword .else] := (Phrase.keyword .else).separated

theorem writes_alternative {otherwise : Option Stmt} (h : ∀ o, otherwise = some o → o.Prints)
    (hw : Writes isFree w ks) : ∃ w', Dialect.source.alternative otherwise w = .ok w' ∧
      Writes isFree w' (ks ++ spell (piecesElse otherwise)) := by
  cases otherwise with
  | none => exact ⟨w, rfl, by simpa [piecesElse] using hw⟩
  | some s =>
      obtain ⟨v, hv, hwv⟩ := (h s rfl).body (hw.follow rfl phrase_else ⟨'e', rfl, rfl⟩) rfl rfl
      refine ⟨closeBody s v, ?_, by simpa [piecesElse] using hwv⟩
      simp only [Dialect.alternative, hv, Except.ok_bind]
      rfl

/-- The alternative of an optional block, another one on the line of its `else`. -/
theorem writes_optionalAlternative {otherwise : Option Stmt}
    (h : ∀ o, otherwise = some o → o.Prints) (hw : Writes isFree w ks) :
    ∃ w', Dialect.source.optionalAlternative otherwise w = .ok w' ∧
      Writes isFree w' (ks ++ spell (piecesElse otherwise)) := by
  cases otherwise with
  | none => exact ⟨w, rfl, by simpa [piecesElse] using hw⟩
  | some s =>
      have helse := hw.follow (s := "else") rfl phrase_else ⟨'e', rfl, rfl⟩
      by_cases hs : s.isOptional = true
      · obtain ⟨w', hrun, hw'⟩ := h s rfl separates _ _ helse (.inr ⟨hs, rfl⟩)
        refine ⟨w', ?_, by simpa [piecesElse] using hw'⟩
        cases s <;> first | exact hrun | exact absurd hs (by simp [isOptional])
      · obtain ⟨v, hv, hwv⟩ := (h s rfl).body helse rfl rfl
        refine ⟨closeBody s v, ?_, by simpa [piecesElse] using hwv⟩
        rw [Dialect.optionalAlternative]
        · simp only [hv, Except.ok_bind]
          rfl
        · rintro _ _ _ _ rfl
          exact hs rfl

theorem prints_optional {s : Span} {c : Expr} {b : Stmt} {otherwise : Option Stmt}
    (hc : Writable (spell c.pieces)) (hbody : b.Prints)
    (hotherwise : ∀ o, otherwise = some o → o.Prints) :
    (Stmt.optional s c b otherwise).Prints := by
  intro p w ks hw hp
  have hblank : p ' ' = true := by
    rcases hp with rfl | ⟨-, rfl⟩ <;> rfl
  have hlead : Phrase isFree "optional (" ([.keyword .optional] ++ [.symbol .lparen]) :=
    .fixed (by decide)
  have hhead := hw.follow hblank hlead ⟨'o', rfl, rfl⟩
  rw [← List.append_assoc] at hhead
  obtain ⟨v, hv, hwv⟩ := writes_condition hc hhead (.delimiter (s := ")") rfl (by decide))
    ⟨')', rfl, rfl⟩
  obtain ⟨u, hu, hwu⟩ := hbody.body hwv rfl rfl
  obtain ⟨w', hrun, hw'⟩ := writes_optionalAlternative hotherwise hwu
  refine ⟨w', ?_, by simpa [pieces] using hw'⟩
  have hadmits : Dialect.source.admits (.optional s c b otherwise) = .ok () := rfl
  rw [Dialect.openStmt]
  simp only [hadmits, hv, Except.ok_bind, hu, hrun]

theorem phrase_semicolon : Phrase isFree ";" [.symbol .semicolon] := .delimiter rfl (by decide)

theorem writes_optionEntries {entries : List OptionDeclaration}
    (h : ∀ d ∈ entries, Writable (spell d.pieces)) (hw : Writes isFree w ks) :
    ∃ w', source.optionEntries entries w = .ok w' ∧
      Writes isFree w' (ks ++ spell (entries.flatMap OptionDeclaration.pieces)) := by
  induction entries generalizing w ks with
  | nil => exact ⟨w, rfl, by simpa using hw⟩
  | cons d ds ih =>
      have hd := h d (by simp)
      simp only [OptionDeclaration.pieces, Piece.spell_append, Piece.spell_tokens,
        Kind.writable_append, Kind.writable_cons, Kind.spellable_ident] at hd
      have hdeclares := operand_declared hd.1.1 hd.1.2.1
      have hname := hw.push hdeclares.1.separated hdeclares.free
      obtain ⟨v, hv, hwv⟩ := writes_exprAfter phrase_equals ⟨' ', rfl, rfl⟩ hd.2.1 hname
      have hline := hwv.lineAfter phrase_semicolon ⟨';', rfl, rfl⟩
      obtain ⟨w', hrun, hw'⟩ := ih (fun e he => h e (List.mem_cons_of_mem _ he)) hline
      refine ⟨w', ?_, by simpa [OptionDeclaration.pieces] using hw'⟩
      simp only [optionEntries, hv, Except.ok_bind, hrun]

theorem writes_constEntries {entries : List ConstDeclaration}
    (h : ∀ d ∈ entries, Writable (spell d.pieces)) (hw : Writes isFree w ks) :
    ∃ w', source.constEntries entries w = .ok w' ∧
      Writes isFree w' (ks ++ spell (entries.flatMap ConstDeclaration.pieces)) := by
  induction entries generalizing w ks with
  | nil => exact ⟨w, rfl, by simpa using hw⟩
  | cons d ds ih =>
      have hd := h d (by simp)
      simp only [ConstDeclaration.pieces, Piece.spell_append, Piece.spell_tokens,
        Kind.writable_append, Kind.writable_cons, Kind.spellable_ident] at hd
      have hdeclares := operand_declared hd.1.1 hd.1.2.1
      have hlead := hdeclares.append phrase_equals ⟨' ', rfl, rfl⟩
      have hname := hw.push hlead (hdeclares.free.append _)
      obtain ⟨v, hv, hwv⟩ := writes_expr hd.2.1 hname
      have hline := hwv.lineAfter phrase_semicolon ⟨';', rfl, rfl⟩
      obtain ⟨w', hrun, hw'⟩ := ih (fun e he => h e (List.mem_cons_of_mem _ he)) hline
      refine ⟨w', ?_, by simpa [ConstDeclaration.pieces] using hw'⟩
      simp only [constEntries, hv, Except.ok_bind, hrun]

/-- A fixed line without a name. -/
theorem prints_fixed {s : Stmt} {text : String}
    (hrun : ∀ w, source.openStmt s w = .ok (w.push text)) (hstart : Starts isFree text)
    (htext : Phrase isFree text (spell s.pieces)) (hs : s.isOptional = false) : s.Prints := by
  rintro p w ks hw (rfl | ⟨hopt, -⟩)
  · exact ⟨_, hrun w, hw.push htext hstart⟩
  · simp [hs] at hopt

/-- A statement that is no optional block stands where anything but a point may. -/
theorem prints_of_writes {s : Stmt} (hs : s.isOptional = false)
    (h : ∀ (w : Writer) (ks : List Kind), Writes isFree w ks →
      ∃ w', source.openStmt s w = .ok w' ∧ Writes isFree w' (ks ++ spell s.pieces)) :
    s.Prints := by
  rintro p w ks hw (rfl | ⟨hopt, -⟩)
  · exact h w ks hw
  · simp [hs] at hopt

/-- Declarations between braces after a header line. -/
theorem prints_bracedLines {α : Type} {s : Stmt} {f : α → String} {g : α → List Kind}
    {xs : List α} {header : String} (ls : List Kind)
    (hrun : ∀ w, source.openStmt s w = .ok (bracedLines header (xs.map f) w))
    (hpieces : s.pieces = Piece.tokens (ls ++ braced (xs.flatMap g))) (hs : s.isOptional = false)
    (hxs : ∀ x ∈ xs, Phrase isFree (f x) (g x) ∧ Starts isFree (f x))
    (hheader : Phrase isFree (header ++ " \x7b") (ls ++ [.symbol .lbrace]))
    (hstart : Starts isFree header) : s.Prints := by
  apply prints_of_writes hs
  intro w ks hw
  refine ⟨_, hrun w, ?_⟩
  have hlines {w : Writer} {ks : List Kind} (hw : Writes isFree w ks) :
      ∃ w', Except.ok ((xs.map f).foldl Writer.line w) = Except.ok (ε := CodegenError) w' ∧
        Writes isFree w' (ks ++ xs.flatMap g) := ⟨_, rfl, hw.lines hxs⟩
  obtain ⟨_, ⟨⟩, hw'⟩ := writes_nested ls hlines hheader (hstart.append _) hw
  rw [hpieces, Piece.spell_tokens]
  exact hw'

theorem prints_var {s : Span} {d : VariableDeclaration} (hd : Writable (spell d.pieces)) :
    (Stmt.var s d).Prints := by
  apply prints_of_writes rfl
  intro w ks hw
  obtain ⟨v, ls, hv, hls, hwv⟩ := writes_variableDeclaration hd hw
  refine ⟨v.push ";", ?_, ?_⟩
  · simp only [openStmt, hv, Except.ok_bind]
    rfl
  · rw [pieces, hls, ← List.append_assoc]
    exact hwv.pushAfter phrase_semicolon ⟨';', rfl, rfl⟩

theorem prints_expr {s : Span} {e : Expr} (he : Writable (spell e.pieces)) :
    (Stmt.expr s e).Prints := by
  apply prints_of_writes rfl
  intro w ks hw
  obtain ⟨v, hv, hwv⟩ := writes_expr he hw
  refine ⟨v.push ";", ?_, ?_⟩
  · simp only [openStmt, hv, Except.ok_bind]
    rfl
  · simpa [pieces] using hwv.pushAfter phrase_semicolon ⟨';', rfl, rfl⟩

/-- The first clause of a `for` and its semicolon. -/
theorem writes_clause {init : Option Stmt} (hinit : Writable (spell (piecesInit init)))
    (hprints : ∀ s, init = some s → s.Prints) (hw : Writes isFree w ks) :
    ∃ w', source.clause init w = .ok w' ∧
      Writes isFree (w'.push ";") (ks ++ spell (piecesInit init)) := by
  -- A statement of any other form ends its line, and the semicolon starts the next one.
  have hother {s : Stmt} (hs : s.Prints) (hends : s.endsClause = false) :
      ∃ w', source.openStmt s w = .ok w' ∧
        Writes isFree (w'.close.push ";") (ks ++ spell (piecesInit (some s))) := by
    obtain ⟨v, hv, hwv⟩ := hs isFree w ks hw (.inl rfl)
    have hend := (hwv.close rfl).push phrase_semicolon ⟨';', rfl, rfl⟩
    exact ⟨v, hv, by simpa [piecesInit, hends] using hend⟩
  cases init with
  | none => exact ⟨w, rfl, hw.push phrase_semicolon ⟨';', rfl, rfl⟩⟩
  | some s =>
      cases s with
      | var _ d =>
          simp only [piecesInit, pieces, endsClause, if_true, List.append_nil] at hinit ⊢
          obtain ⟨v, ls, hv, hls, hwv⟩ := writes_variableDeclaration hinit hw
          refine ⟨v, hv, ?_⟩
          rw [hls, ← List.append_assoc]
          exact hwv.pushAfter phrase_semicolon ⟨';', rfl, rfl⟩
      | expr _ e =>
          simp only [piecesInit, pieces, endsClause, if_true, List.append_nil, Piece.spell_append,
            Kind.writable_append] at hinit ⊢
          obtain ⟨v, hv, hwv⟩ := writes_expr hinit.1 hw
          refine ⟨v, hv, ?_⟩
          simpa using hwv.pushAfter phrase_semicolon ⟨';', rfl, rfl⟩
      | _ =>
          obtain ⟨v, hv, hwv⟩ := hother (hprints _ rfl) rfl
          refine ⟨v.close, ?_, hwv⟩
          simp only [clause, hv, Except.ok_bind]
          rfl

theorem writes_separates (hw : Writes isFree w ks) : Writes separates w ks :=
  ⟨hw.phrase.mono fun _ => Lexer.isFree_of_separates, hw.closed⟩

theorem prints_forLoop {s : Span} {init : Option Stmt} {condition step : Option Expr} {b : Stmt}
    (hinit : Writable (spell (piecesInit init))) (hprints : ∀ s, init = some s → s.Prints)
    (hcondition : Writable (spell (Expr.piecesAfter [] condition)))
    (hstep : Writable (spell (Expr.piecesAfter [] step))) (hbody : b.Prints) :
    (Stmt.forLoop s init condition step b).Prints := by
  apply prints_of_writes rfl
  intro w ks hw
  have hlead : Phrase isFree "for (" [.keyword .for, .symbol .lparen] := .fixed (by decide)
  have hblank : Phrase isFree " " [] := .fixed (by decide)
  obtain ⟨v₁, h₁, hw₁⟩ := writes_clause hinit hprints (hw.push hlead ⟨'f', rfl, rfl⟩)
  obtain ⟨v₂, h₂, hw₂⟩ := writes_exprAfter hblank ⟨' ', rfl, rfl⟩ hcondition (writes_separates hw₁)
  have hsemicolon := hw₂.pushAfter phrase_semicolon ⟨';', rfl, rfl⟩
  obtain ⟨v₃, h₃, hw₃⟩ :=
    writes_exprAfter hblank ⟨' ', rfl, rfl⟩ hstep (writes_separates hsemicolon)
  have hclose : Phrase isFree ")" [.symbol .rparen] := .delimiter rfl (by decide)
  obtain ⟨v₄, h₄, hw₄⟩ := hbody.body (hw₃.pushAfter hclose ⟨')', rfl, rfl⟩) rfl rfl
  refine ⟨closeBody b v₄, ?_, by simpa [pieces] using hw₄⟩
  simp only [openStmt, h₁, h₂, h₃, h₄, Except.ok_bind]
  rfl

theorem prints_whileLoop {s : Span} {c : Expr} {b : Stmt} (hc : Writable (spell c.pieces))
    (hbody : b.Prints) : (Stmt.whileLoop s c b).Prints := by
  apply prints_of_writes rfl
  intro w ks hw
  have hlead : Phrase isFree "while (" ([.keyword .while] ++ [.symbol .lparen]) :=
    .fixed (by decide)
  have hclose : Phrase isFree ")" [.symbol .rparen] := .delimiter rfl (by decide)
  have hhead := hw.push hlead ⟨'w', rfl, rfl⟩
  rw [← List.append_assoc] at hhead
  obtain ⟨v, hv, hwv⟩ := writes_condition hc hhead hclose ⟨')', rfl, rfl⟩
  obtain ⟨u, hu, hwu⟩ := hbody.body hwv rfl rfl
  refine ⟨closeBody b u, ?_, by simpa [pieces] using hwu⟩
  simp only [openStmt, hv, hu, Except.ok_bind]
  rfl

theorem prints_doWhile {s : Span} {b : Stmt} {c : Expr} (hbody : b.Prints)
    (hc : Writable (spell c.pieces)) : (Stmt.doWhile s b c).Prints := by
  apply prints_of_writes rfl
  intro w ks hw
  have hlead : Phrase isFree "while (" ([.keyword .while] ++ [.symbol .lparen]) :=
    .fixed (by decide)
  have hclose : Phrase isFree ");" [.symbol .rparen, .symbol .semicolon] := .fixed (by decide)
  have hdo := hw.push (Phrase.keyword .do).separated ⟨'d', rfl, rfl⟩
  obtain ⟨u, hu, hwu⟩ := hbody.body hdo rfl rfl
  have hhead := hwu.follow rfl hlead ⟨'w', rfl, rfl⟩
  rw [← List.append_assoc] at hhead
  obtain ⟨v, hv, hwv⟩ := writes_condition hc hhead hclose ⟨')', rfl, rfl⟩
  refine ⟨v.push ");", ?_, by simpa [pieces] using hwv⟩
  have hlead : (Keyword.do).text = "do" := rfl
  rw [hlead] at hu
  simp only [openStmt, hv, hu, Except.ok_bind]
  rfl

theorem prints_ret {s : Span} {value : Option Expr}
    (hvalue : Writable (spell (Expr.piecesAfter [] value))) : (Stmt.ret s value).Prints := by
  cases value with
  | none => exact prints_fixed (fun _ => rfl) ⟨'r', rfl, rfl⟩ (.fixed rfl) rfl
  | some e =>
      apply prints_of_writes rfl
      intro w ks hw
      have hlead : Phrase isFree "return " [.keyword .return] := .fixed (by decide)
      simp only [Expr.piecesAfter, Piece.spell_append, Kind.writable_append] at hvalue
      obtain ⟨v, hv, hwv⟩ := writes_expr hvalue.2 (hw.push hlead ⟨'r', rfl, rfl⟩)
      have hend := hwv.pushAfter phrase_semicolon ⟨';', rfl, rfl⟩
      refine ⟨v.push ";", ?_, by simpa [pieces, Expr.piecesAfter] using hend⟩
      simp only [openStmt, hv, Except.ok_bind]
      rfl

theorem prints_function {s : Span} {f : Signature} {items : List Stmt} (hf : Writable f.kinds)
    (hitems : ∀ i ∈ items, i.Prints) : (Stmt.function s f items).Prints := by
  apply prints_of_writes rfl
  intro w ks hw
  obtain ⟨hheader, hstart⟩ := Signature.phrase_header hf
  have hadmits : source.admits (.function s f items) = .ok () := rfl
  -- The attributes, if there are any, stand on a line of their own.
  have hrest {v : Writer} (hv : Writes isFree v (ks ++ entryKinds f.entry)) :
      ∃ u, source.stmts items ((v.push f.header).push "\x7b").close.indent = .ok u ∧
        Writes isFree (u.dedent.push "\x7d") (ks ++ spell (Stmt.function s f items).pieces) := by
    obtain ⟨u, hu, hwu⟩ := writes_braced hitems (hv.push hheader hstart)
    exact ⟨u, hu, by simpa [pieces, Signature.kinds] using hwu⟩
  cases hentry : f.entry with
  | none =>
      rw [hentry] at hrest
      obtain ⟨u, hu, hwu⟩ := hrest (v := w) (by simpa [entryKinds] using hw)
      refine ⟨u.dedent.push "\x7d", ?_, hwu⟩
      simp only [openStmt, hadmits, hentry, hu, Except.ok_bind]
      rfl
  | some e =>
      rw [hentry] at hrest
      obtain ⟨u, hu, hwu⟩ := hrest (hw.line e.phrase_line.1 e.phrase_line.2)
      refine ⟨u.dedent.push "\x7d", ?_, hwu⟩
      simp only [openStmt, hadmits, hentry, hu, Except.ok_bind]
      rfl

theorem prints_struct {s : Span} {d : StructDeclaration} (h : Writable (kinds (.struct s d))) :
    (Stmt.struct s d).Prints := by
  simp only [kinds, Kind.writable_cons, Kind.spellable_ident, Kind.writable_braced] at h
  obtain ⟨-, hname, hfields⟩ := h
  have hlead : Phrase isFree "struct " [.keyword .struct] := .fixed (by decide)
  have hbrace : Phrase isFree " \x7b" [.symbol .lbrace] := .fixed (by decide)
  have hd := Lexer.operand_name hname
  have hheader := (hlead.append hd.1 hd.free).append hbrace ⟨' ', rfl, rfl⟩
  have hstart : Starts isFree "struct " := ⟨'s', rfl, rfl⟩
  exact prints_bracedLines [.keyword .struct, .ident d.name] (fun _ => rfl) rfl rfl
    (fun f hf => StructDeclaration.phrase_fieldLine (Kind.writable_flatMap.mp hfields f hf))
    hheader (hstart.append _)

theorem prints_options {s : Span} {entries : List OptionDeclaration}
    (h : ∀ d ∈ entries, Writable (spell d.pieces)) : (Stmt.options s entries).Prints := by
  apply prints_of_writes rfl
  intro w ks hw
  have hopen : Phrase isFree "option \x7b" ([.keyword .option] ++ [.symbol .lbrace]) :=
    .fixed (by decide)
  obtain ⟨v, hv, hwv⟩ := writes_nested _ (writes_optionEntries h) hopen ⟨'o', rfl, rfl⟩ hw
  refine ⟨v.dedent.push "\x7d", ?_, by simpa [pieces] using hwv⟩
  have hadmits : source.admits (.options s entries) = .ok () := rfl
  simp only [openStmt, hadmits, hv, Except.ok_bind]
  rfl

theorem prints_consts {s : Span} {entries : List ConstDeclaration}
    (h : ∀ d ∈ entries, Writable (spell d.pieces)) : (Stmt.consts s entries).Prints := by
  apply prints_of_writes rfl
  intro w ks hw
  have hopen : Phrase isFree "const \x7b" ([.keyword .const] ++ [.symbol .lbrace]) :=
    .fixed (by decide)
  obtain ⟨v, hv, hwv⟩ := writes_nested _ (writes_constEntries h) hopen ⟨'c', rfl, rfl⟩ hw
  refine ⟨v.dedent.push "\x7d", ?_, by simpa [pieces] using hwv⟩
  have hadmits : source.admits (.consts s entries) = .ok () := rfl
  simp only [openStmt, hadmits, hv, Except.ok_bind]
  rfl

theorem prints_library {s : Span} {path : List String} (h : Writable (kinds (.library s path))) :
    (Stmt.library s path).Prints := by
  have hlead : Phrase isFree "include " [.keyword .include] := .fixed (by decide)
  have hinclude : Starts isFree "include " := ⟨'i', rfl, rfl⟩
  have hrun : ∀ w, source.openStmt (.library s path) w =
      .ok (w.push ("include " ++ dotted path ++ ";")) := fun _ => rfl
  refine prints_fixed hrun ((hinclude.append _).append _) ?_ rfl
  rw [pieces, Piece.spell_tokens]
  cases path with
  | nil => exact .fixed rfl
  | cons part parts =>
      simp only [kinds, Kind.writable_cons, Kind.writable_append] at h
      obtain ⟨hdotted, hstart⟩ := operand_dotted (List.cons_ne_nil part parts) h.2.1
      exact (hlead.append hdotted (hstart.mono fun _ hc => Lexer.isFree_of_isOperandHead
        (Lexer.isOperandHead_of_isWordChar (Lexer.isWordChar_of_isWordStart hc)))).append
        phrase_semicolon ⟨';', rfl, rfl⟩

mutual

/-- The source dialect prints every statement whose pieces can be written. -/
theorem prints (s : Stmt) (h : Writable (spell s.pieces)) : s.Prints := by
  cases s with
  | branch _ arms otherwise =>
      simp only [pieces, Piece.spell_append, Kind.writable_append] at h
      obtain ⟨hconditions, harms⟩ := prints_arms _ arms h.1
      have hotherwise := prints_else otherwise h.2
      apply prints_of_writes rfl
      intro w ks hw
      have hlead : Phrase isFree "if (" ([.keyword .if] ++ [.symbol .lparen]) := .fixed (by decide)
      obtain ⟨v, hv, hwv⟩ := writes_arms hconditions harms hlead ⟨'i', rfl, rfl⟩ hw
      obtain ⟨w', hrun, hw'⟩ := writes_alternative hotherwise hwv
      refine ⟨w', ?_, by simpa [pieces] using hw'⟩
      simp only [openStmt, hv, Except.ok_bind, hrun]
  | forLoop _ init condition step b =>
      simp only [pieces, Piece.spell_append, Piece.spell_symbol, Kind.writable_append,
        Kind.writable_cons] at h
      obtain ⟨-, hinit, hcondition, -, hstep, -, hbody⟩ := h
      exact prints_forLoop hinit (prints_init init hinit) hcondition hstep (prints b hbody)
  | whileLoop _ c b =>
      simp only [pieces, Piece.spell_keyword, Piece.spell_append, Piece.spell_enclosed,
        Kind.writable_append, Kind.writable_cons, Kind.writable_parenthesized] at h
      exact prints_whileLoop h.2.1 (prints b h.2.2)
  | doWhile _ b c =>
      simp only [pieces, Piece.spell_keyword, Piece.spell_append, Piece.spell_enclosed,
        Kind.writable_append, Kind.writable_cons, Kind.writable_parenthesized] at h
      exact prints_doWhile (prints b h.2.1) h.2.2.2.1
  | var _ d => exact prints_var h
  | struct _ d => exact prints_struct (by simpa [pieces] using h)
  | inputs _ entries =>
      simp only [pieces, Piece.spell_tokens, kinds, Kind.writable_cons, Kind.writable_braced] at h
      exact prints_bracedLines [.keyword .input] (fun _ => rfl) rfl rfl
        (fun v hv => InterfaceVariable.phrase_line (Kind.writable_flatMap.mp h.2 v hv))
        (.fixed (by decide)) ⟨'i', rfl, rfl⟩
  | outputs _ entries =>
      simp only [pieces, Piece.spell_tokens, kinds, Kind.writable_cons, Kind.writable_braced] at h
      exact prints_bracedLines [.keyword .output] (fun _ => rfl) rfl rfl
        (fun v hv => InterfaceVariable.phrase_line (Kind.writable_flatMap.mp h.2 v hv))
        (.fixed (by decide)) ⟨'o', rfl, rfl⟩
  | externals _ entries =>
      simp only [pieces, Piece.spell_tokens, kinds, Kind.writable_cons, Kind.writable_braced] at h
      exact prints_bracedLines [.keyword .external] (fun _ => rfl) rfl rfl
        (fun v hv => ExternalVariable.phrase_line (Kind.writable_flatMap.mp h.2 v hv))
        (.fixed (by decide)) ⟨'e', rfl, rfl⟩
  | options _ entries =>
      simp only [pieces, Piece.spell_keyword, Piece.spell_inBraces, Piece.spell_flatMap,
        Kind.writable_cons, Kind.writable_braced, Kind.writable_flatMap] at h
      exact prints_options h.2
  | consts _ entries =>
      simp only [pieces, Piece.spell_keyword, Piece.spell_inBraces, Piece.spell_flatMap,
        Kind.writable_cons, Kind.writable_braced, Kind.writable_flatMap] at h
      exact prints_consts h.2
  | function _ f items =>
      simp only [pieces, Piece.spell_append, Piece.spell_tokens, Piece.spell_inBraces,
        Kind.writable_append, Kind.writable_braced] at h
      exact prints_function h.1 (prints_list items h.2)
  | expr _ e =>
      simp only [pieces, Piece.spell_append, Kind.writable_append] at h
      exact prints_expr h.1
  | leaveLoop _ => exact prints_fixed (fun _ => rfl) ⟨'b', rfl, rfl⟩ (.fixed rfl) rfl
  | nextRound _ => exact prints_fixed (fun _ => rfl) ⟨'c', rfl, rfl⟩ (.fixed rfl) rfl
  | discard _ => exact prints_fixed (fun _ => rfl) ⟨'d', rfl, rfl⟩ (.fixed rfl) rfl
  | ret _ value =>
      simp only [pieces, Piece.spell_keyword, Piece.spell_append, Kind.writable_cons,
        Kind.writable_append] at h
      exact prints_ret h.2.1
  | block _ items =>
      simp only [pieces, Piece.spell_inBraces, Kind.writable_braced] at h
      have hitems := prints_list items h
      apply prints_of_writes rfl
      intro w ks hw
      obtain ⟨v, hv, hwv⟩ := writes_braced hitems hw
      refine ⟨v.dedent.push "\x7d", ?_, by simpa [pieces] using hwv⟩
      simp only [openStmt, hv, Except.ok_bind]
      rfl
  | optional _ c b otherwise =>
      simp only [pieces, Piece.spell_keyword, Piece.spell_append, Piece.spell_enclosed,
        Kind.writable_append, Kind.writable_cons, Kind.writable_parenthesized] at h
      exact prints_optional h.2.1 (prints b h.2.2.1) (prints_else otherwise h.2.2.2)
  | library _ path => exact prints_library (by simpa [pieces] using h)

theorem prints_list (ss : List Stmt) (h : Writable (spell (piecesList ss))) :
    ∀ s ∈ ss, s.Prints := by
  cases ss with
  | nil => simp
  | cons s ss =>
      simp only [piecesList, Piece.spell_append, Kind.writable_append] at h
      exact List.forall_mem_cons.mpr ⟨prints s h.1, prints_list ss h.2⟩

theorem prints_arms (lead : List Kind) (arms : List (Expr × Stmt))
    (h : Writable (spell (piecesArms lead arms))) :
    (∀ a ∈ arms, Writable (spell a.1.pieces)) ∧ ∀ a ∈ arms, a.2.Prints := by
  match arms with
  | [] => simp
  | (c, s) :: rest =>
      simp only [piecesArms, Piece.spell_append, Piece.spell_enclosed, Kind.writable_append,
        Kind.writable_parenthesized] at h
      obtain ⟨hconditions, harms⟩ := prints_arms _ rest h.2.2.2
      exact ⟨List.forall_mem_cons.mpr ⟨h.2.1, hconditions⟩,
        List.forall_mem_cons.mpr ⟨prints s h.2.2.1, harms⟩⟩

theorem prints_else (o : Option Stmt) (h : Writable (spell (piecesElse o))) :
    ∀ s, o = some s → s.Prints := by
  cases o with
  | none => simp
  | some s =>
      simp only [piecesElse, Piece.spell_keyword, Kind.writable_cons] at h
      rintro _ ⟨⟩
      exact prints s h.2

theorem prints_init (o : Option Stmt) (h : Writable (spell (piecesInit o))) :
    ∀ s, o = some s → s.Prints := by
  cases o with
  | none => simp
  | some s =>
      simp only [piecesInit, Piece.spell_append, Kind.writable_append] at h
      rintro _ ⟨⟩
      exact prints s h.1

end

theorem writes_writeItems {items : List Stmt} (h : ∀ i ∈ items, i.Prints)
    (hw : Writes isFree w ks) : ∃ w', writeItems items w = .ok w' ∧
      Writes isFree w' (ks ++ spell (piecesList items)) := by
  induction items generalizing w ks with
  | nil => exact ⟨w, rfl, by simpa [piecesList] using hw⟩
  | cons s ss ih =>
      obtain ⟨v, hv, hwv⟩ := h s (by simp) isFree _ ks hw.blankLine (.inl rfl)
      obtain ⟨w', hrun, hw'⟩ := ih (fun i hi => h i (List.mem_cons_of_mem _ hi)) (hwv.close rfl)
      refine ⟨w', ?_, by simpa [piecesList] using hw'⟩
      have hstmt : source.stmt s w.blankLine = .ok v.close := by
        simp only [Dialect.stmt, hv, Except.ok_bind]
        rfl
      simp only [writeItems, hstmt, Except.ok_bind, hrun]

/-- The source text of a tree whose pieces can be written spells the pieces. -/
theorem spells_sourceText {tree : Stmt} (h : Writable (spell tree.filePieces)) :
    ∃ text, tree.sourceText = .ok text ∧
      Lexer.Spells [] text.toList (spell tree.filePieces) := by
  obtain ⟨w, hw, hwrites⟩ := writes_writeItems (prints_list _ h) Writes.empty
  refine ⟨w.text, ?_, hwrites.phrase [] (by simp)⟩
  simp only [sourceText, hw, Except.ok_bind]
  rfl

end Stmt

end Shading
