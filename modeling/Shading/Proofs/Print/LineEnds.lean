import Shading.Print.Source
import Shading.Proofs.Print.Clear
import Shading.Proofs.Print.Writer

/-!
# Line ends of printed text

A writer whose line is not open is at the start of a line, and its text has no pair as long as
the names that are pushed have none. Every statement is written that way, so a text that is
written to its end is a row of whole lines.
-/

namespace Shading

open Kind (AllClear)
open Piece (spell)

variable {H : Prop} {d : Dialect}

/-- A dialect that spells a name without pairs as a text without pairs. -/
structure Dialect.KeepsClear (H : Prop) (d : Dialect) : Prop where
  builtin (f : BuiltinFunction) (s : Span) : Except.Gives (Clear H) (d.builtin f s)
  reference {name : String} (h : Clear H name) : Clear H (d.reference name)
  declarator {t : Ty} {name : String} (ht : Clear H t.baseName)
    (h : Clear H name) : Clear H (d.declarator t name)

namespace Expr

/-- Parentheses around a clear text are clear. -/
theorem clear_wrap {text : String} (h : Clear H text) (parens : Bool) :
    Clear H (wrap parens text) := by
  cases parens with
  | false => exact h
  | true => exact (((Sealed.word (by decide)).append h).word (by decide)).clear

/-- A negative constant stands in parentheses. -/
theorem clear_operandText (c : Constant) : Clear H c.operandText := by
  have htext : Clear H c.text := .of_isInline (isInline_text c)
  exact clear_wrap htext c.isNegative

mutual

/-- An expression is printed as a clear text if its tokens are clear and the dialect adds no pair.
-/
theorem clear_text (hd : d.KeepsClear H) (e : Expr) (h : AllClear H (spell e.pieces)) :
    Except.Gives (Clear H) (e.text d) := by
  cases e with
  | constant s v => exact .ok (clear_operandText v)
  | ref s n =>
      have hn : Clear H n := by simpa [pieces] using h
      exact .ok (hd.reference hn)
  | index s base place =>
      obtain ⟨hbase, hplace⟩ :
          AllClear H (spell base.pieces) ∧ AllClear H (spell place.pieces) := by
        simpa [pieces] using h
      rw [text]
      refine (clear_text hd base hbase).bind fun b hb => ?_
      refine (clear_text hd place hplace).bind fun p hp => .ok ?_
      exact (((clear_wrap hb _).between (by decide) hp).word (by decide)).clear
  | field s base n =>
      obtain ⟨hbase, hn⟩ : AllClear H (spell base.pieces) ∧ Clear H n := by
        simpa [pieces] using h
      rw [text]
      refine (clear_text hd base hbase).bind fun b hb => .ok ?_
      exact (clear_wrap hb _).between (by decide) hn
  | swizzle s base w =>
      obtain ⟨hbase, -⟩ : AllClear H (spell base.pieces) ∧ Clear H w.text := by
        simpa [pieces] using h
      rw [text]
      refine (clear_text hd base hbase).bind fun b hb => .ok ?_
      exact ((clear_wrap hb _).word (by decide)).clear.inline (isInline_swizzle w)
  | assign s op target value =>
      obtain ⟨htarget, hvalue⟩ :
          AllClear H (spell target.pieces) ∧ AllClear H (spell value.pieces) := by
        simpa [pieces] using h
      have hop : isWord op.symbol = true := by cases op <;> decide
      rw [text]
      refine (clear_text hd target htarget).bind fun t ht => ?_
      refine (clear_text hd value hvalue).bind fun v hv => .ok ?_
      exact ((clear_wrap ht _).between (by decide) (Sealed.word hop).clear).between (by decide) hv
  | unary s op operand =>
      have hoperand : AllClear H (spell operand.pieces) := by simpa [pieces] using h
      have hop : isWord op.symbol = true := by cases op <;> decide
      rw [text]
      refine (clear_text hd operand hoperand).bind fun o ho => .ok ?_
      exact (Sealed.word hop).append (clear_wrap ho _)
  | binary s op left right =>
      obtain ⟨hleft, hright⟩ :
          AllClear H (spell left.pieces) ∧ AllClear H (spell right.pieces) := by
        simpa [pieces] using h
      have hop : isWord op.symbol = true := by cases op <;> decide
      rw [text]
      refine (clear_text hd left hleft).bind fun l hl => ?_
      refine (clear_text hd right hright).bind fun r hr => .ok ?_
      exact ((clear_wrap hl _).between (by decide) (Sealed.word hop).clear).between (by decide)
        (clear_wrap hr _)
  | call s n args =>
      obtain ⟨hn, hargs⟩ : Clear H n ∧ ∀ ps ∈ piecesList args, AllClear H (spell ps) := by
        simpa [pieces] using h
      rw [text]
      exact (clear_textList hd args hargs).bind fun ts hts => .ok (hn.list hts).clear
  | builtin s f args =>
      obtain ⟨-, hargs⟩ :
          Clear H f.name ∧ ∀ ps ∈ piecesList args, AllClear H (spell ps) := by
        simpa [pieces] using h
      rw [text]
      refine (hd.builtin f s).bind fun n hn => ?_
      exact (clear_textList hd args hargs).bind fun ts hts => .ok (hn.list hts).clear
  | cast s t args =>
      obtain ⟨ht, hargs⟩ :
          Clear H t.baseName ∧ ∀ ps ∈ piecesList args, AllClear H (spell ps) := by
        simpa [pieces] using h
      rw [text]
      exact (clear_textList hd args hargs).bind fun ts hts => .ok (ht.type.list hts).clear
  | ternary s c t f =>
      obtain ⟨hc, ht, hf⟩ : AllClear H (spell c.pieces) ∧ AllClear H (spell t.pieces) ∧
          AllClear H (spell f.pieces) := by
        simpa [pieces] using h
      rw [text]
      refine (clear_text hd c hc).bind fun ct hct => ?_
      refine (clear_text hd t ht).bind fun tt htt => ?_
      refine (clear_text hd f hf).bind fun ft hft => .ok ?_
      exact ((clear_wrap hct _).between (by decide) htt).between (by decide) (clear_wrap hft _)

theorem clear_textList (hd : d.KeepsClear H) (es : List Expr)
    (h : ∀ ps ∈ piecesList es, AllClear H (spell ps)) :
    Except.Gives (fun ts => ∀ t ∈ ts, Clear H t) (textList d es) := by
  cases es with
  | nil => exact .ok (by simp)
  | cons e rest =>
      rw [piecesList, List.forall_mem_cons] at h
      rw [textList]
      refine (clear_text hd e h.1).bind fun t ht => ?_
      exact (clear_textList hd rest h.2).bind fun ts hts =>
        .ok (List.forall_mem_cons.mpr ⟨ht, hts⟩)

end

end Expr

namespace Writer

variable {P : String → Prop} {w : Writer} {s : String}

/-- The text has the property, and where no line is open the last one is closed. -/
structure Tidy (P : String → Prop) (w : Writer) : Prop where
  text : P w.text
  closed : w.isOpen = false → EndsLine w.text.toList

/-- The text is a row of whole lines without pairs. -/
structure Whole (H : Prop) (w : Writer) : Prop where
  clear : Clear H w.text
  ends : EndsLine w.text.toList

@[simp] theorem isOpen_push (w : Writer) (s : String) : (w.push s).isOpen = true := by
  cases hopen : w.isOpen <;> simp [push, hopen, append]

@[simp] theorem isOpen_follow (w : Writer) (s : String) : (w.follow s).isOpen = true :=
  isOpen_push _ s

/-- The indentation of the current line, if it is still to come. -/
def lead (w : Writer) : String :=
  if w.isOpen then "" else String.ofList (List.replicate (4 * w.depth) ' ')

/-- A line starts with nothing but spaces. -/
theorem isInline_lead (w : Writer) : isInline w.lead = true := by
  unfold lead
  split
  · decide
  · simp [staysOnLine]

/-- What is pushed stands behind the lead of its line. -/
theorem text_push (w : Writer) (s : String) : (w.push s).text = w.text ++ w.lead ++ s := by
  cases hopen : w.isOpen with
  | true => simp [text_push_of_isOpen, hopen, lead]
  | false => simp [text_push_of_not_isOpen, hopen, lead, String.append_assoc]

namespace Whole

theorem empty : Whole H Writer.empty :=
  ⟨.of_isInline (by decide), by simp [EndsLine, Writer.empty, text]⟩

theorem tidy (h : Whole H w) : Tidy (Sealed H) w :=
  ⟨h.clear.sealed h.ends, fun _ => h.ends⟩

theorem indent (h : Whole H w) : Whole H w.indent := ⟨h.clear, h.ends⟩

theorem dedent (h : Whole H w) : Whole H w.dedent := ⟨h.clear, h.ends⟩

/-- A line feed ends the last line. -/
theorem of_newline (h : Sealed H w.text) {w' : Writer} (htext : w'.text = w.text ++ "\n") :
    Whole H w' := by
  constructor
  · intro hH
    simpa [htext] using h hH
  · simp [EndsLine, htext]

end Whole

namespace Tidy

theorem clear (h : Tidy (Sealed H) w) : Tidy (Clear H) w := ⟨h.text.clear, h.closed⟩

theorem of_isOpen (h : P w.text) (hopen : w.isOpen = true) : Tidy P w :=
  ⟨h, fun hclosed => by simp [hopen] at hclosed⟩

/-- Any clear text may follow a sealed one. -/
theorem push (h : Tidy (Sealed H) w) (hs : Clear H s) : Tidy (Clear H) (w.push s) := by
  refine .of_isOpen ?_ (isOpen_push w s)
  rw [text_push]
  exact (h.text.concat (.of_isInline w.isInline_lead)).append hs

/-- A sealed text may follow a sealed one. -/
theorem pushSealed (h : Tidy (Sealed H) w) (hs : Sealed H s) : Tidy (Sealed H) (w.push s) := by
  refine .of_isOpen ?_ (isOpen_push w s)
  rw [text_push]
  exact (h.text.concat (.of_isInline w.isInline_lead)).concat hs

/-- A word may follow a name. -/
theorem pushWord (h : Tidy (Clear H) w) (hs : isWord s = true) : Tidy (Sealed H) (w.push s) := by
  refine .of_isOpen ?_ (isOpen_push w s)
  rw [text_push]
  exact (h.text.inline w.isInline_lead).word hs

/-- A space seals a clear text. -/
theorem space (h : Tidy (Clear H) w) (hopen : w.isOpen = true) :
    Tidy (Sealed H) (w.append " ") := by
  refine .of_isOpen ?_ hopen
  rw [text_append]
  exact h.text.word (by decide)

/-- A word that follows seals a clear text. -/
theorem follow (h : Tidy (Clear H) w) (hs : isWord s = true) : Tidy (Sealed H) (w.follow s) := by
  unfold Writer.follow
  cases hopen : w.isOpen with
  | true => exact (h.space hopen).clear.pushWord hs
  | false => exact h.pushWord hs

/-- A line feed behind a sealed text makes no pair. -/
theorem close (h : Tidy (Sealed H) w) : Whole H w.close := by
  cases hopen : w.isOpen with
  | true =>
      have htext : w.close.text = w.text ++ "\n" := by simp [Writer.close, hopen, Writer.text]
      exact .of_newline h.text htext
  | false =>
      have heq : w.close = w := by simp [Writer.close, hopen]
      rw [heq]
      exact ⟨h.text.clear, h.closed hopen⟩

theorem line (h : Tidy (Sealed H) w) (hs : Sealed H s) : Whole H (w.line s) :=
  (h.pushSealed hs).close

/-- The end of a line that a name may end. -/
theorem lineWord (h : Tidy (Clear H) w) (hs : isWord s = true) : Whole H (w.line s) :=
  (h.pushWord hs).close

/-- A blank line makes a whole text. -/
theorem blankLine (h : Tidy (Sealed H) w) : Whole H w.blankLine := by
  have hclose := h.close
  unfold Writer.blankLine
  dsimp only
  split
  · exact hclose
  · exact hclose
  · exact .of_newline hclose.tidy.text (by simp [Writer.text])

end Tidy

/-- Lines one after another. -/
theorem Whole.lines {lines : List String} (h : Whole H w) (hlines : ∀ l ∈ lines, Sealed H l) :
    Whole H (lines.foldl Writer.line w) := by
  induction lines generalizing w with
  | nil => exact h
  | cons l rest ih =>
      rw [List.forall_mem_cons] at hlines
      exact ih (h.tidy.line hlines.1) hlines.2

theorem Whole.nested {lines : List String} (h : Whole H w) (hlines : ∀ l ∈ lines, Sealed H l) :
    Whole H (w.nested lines) := (h.indent.lines hlines).dedent

end Writer

open Writer (Tidy Whole)

namespace Dialect

variable {w : Writer}

section Parts

variable (hd : d.KeepsClear H)

include hd

theorem gives_expr {e : Expr} (he : AllClear H (spell e.pieces)) (hw : Tidy (Sealed H) w) :
    Except.Gives (Tidy (Clear H)) (d.expr e w) :=
  (e.clear_text hd he).bind fun _ ht => .ok (hw.push ht)

/-- The lead before an expression keeps it apart from what stands there. -/
theorem gives_exprAfter {lead : String} (hlead : isWord lead = true) {e : Option Expr}
    {ks : List Kind} (he : AllClear H (spell (Expr.piecesAfter ks e)))
    (hw : Tidy (Clear H) w) :
    Except.Gives (Tidy (Clear H)) (d.exprAfter lead e w) := by
  cases e with
  | none => exact .ok hw
  | some e =>
      obtain ⟨-, he⟩ : AllClear H ks ∧ AllClear H (spell e.pieces) := by
        simpa [Expr.piecesAfter] using he
      exact gives_expr hd he (hw.pushWord hlead)

/-- A declaration is written behind a sealed text. -/
theorem gives_variableDeclaration {v : VariableDeclaration} (hv : AllClear H (spell v.pieces))
    (hw : Tidy (Sealed H) w) :
    Except.Gives (Tidy (Clear H)) (d.variableDeclaration v w) := by
  obtain ⟨-, ht, hn, he⟩ : AllClear H (if v.isConst then [.keyword .const] else []) ∧
      Clear H v.type.baseName ∧ Clear H v.name ∧
      AllClear H (spell (Expr.piecesAfter [.symbol .eq] v.initializer)) := by
    simpa [VariableDeclaration.pieces, and_assoc] using hv
  unfold variableDeclaration
  dsimp only
  refine gives_exprAfter hd (by decide) he (Tidy.push ?_ (hd.declarator ht hn))
  split
  · exact hw.pushSealed (.word (by decide))
  · exact hw

/-- Each entry of an option block is a whole line. -/
theorem gives_optionEntries {os : List OptionDeclaration}
    (hos : ∀ o ∈ os, AllClear H (spell o.pieces)) (hw : Whole H w) :
    Except.Gives (Whole H) (d.optionEntries os w) := by
  induction os generalizing w with
  | nil => exact .ok hw
  | cons o rest ih =>
      obtain ⟨ho, hrest⟩ := List.forall_mem_cons.mp hos
      obtain ⟨ht, hn, he⟩ : Clear H o.type.baseName ∧ Clear H o.name ∧
          AllClear H (spell (Expr.piecesAfter [.symbol .eq] o.default)) := by
        simpa [OptionDeclaration.pieces, and_assoc] using ho
      rw [optionEntries]
      refine (gives_exprAfter hd (by decide) he ?_).bind fun v hv => ih hrest ?_
      · exact hw.tidy.push (ht.type.between (by decide) hn)
      · exact hv.lineWord (by decide)

/-- Each entry of a block of constants is a whole line. -/
theorem gives_constEntries {cs : List ConstDeclaration}
    (hcs : ∀ c ∈ cs, AllClear H (spell c.pieces)) (hw : Whole H w) :
    Except.Gives (Whole H) (d.constEntries cs w) := by
  induction cs generalizing w with
  | nil => exact .ok hw
  | cons c rest ih =>
      obtain ⟨hc, hrest⟩ := List.forall_mem_cons.mp hcs
      obtain ⟨ht, hn, he⟩ : Clear H c.type.baseName ∧ Clear H c.name ∧
          AllClear H (spell c.value.pieces) := by
        simpa [ConstDeclaration.pieces, and_assoc] using hc
      rw [constEntries]
      refine (gives_expr hd he ?_).bind fun v hv => ih hrest (hv.lineWord (by decide))
      exact hw.tidy.pushSealed ((ht.type.between (by decide) hn).word (by decide))

end Parts

section Lines

/-- The fields of a struct end in a semicolon. -/
theorem sealed_fieldLines {s : StructDeclaration}
    (h : AllClear H (s.fields.flatMap StructField.kinds)) : ∀ l ∈ s.fieldLines, Sealed H l := by
  intro l hl
  obtain ⟨f, hf, rfl⟩ := List.mem_map.mp hl
  obtain ⟨hn, ht⟩ : Clear H f.name ∧ Clear H f.type.baseName := by
    simpa [StructField.kinds] using Kind.allClear_flatMap.mp h f hf
  exact (hn.between (by decide) ht.type).word (by decide)

theorem clear_interfaceVariable {v : InterfaceVariable} (h : AllClear H v.kinds) :
    Clear H v.type.baseName ∧ Clear H v.name := by
  have hparts : AllClear H (Parse.bracketed v.slot.attributes) ∧
      Clear H v.type.baseName ∧ Clear H v.name := by
    simpa [InterfaceVariable.kinds] using h
  exact hparts.2

theorem clear_externalVariable {v : ExternalVariable} (h : AllClear H v.kinds) :
    Clear H v.type.baseName ∧ Clear H v.name := by
  have hparts : AllClear H (Parse.bracketed v.attributes) ∧
      Clear H v.type.baseName ∧ Clear H v.name := by
    simpa [ExternalVariable.kinds] using h
  exact hparts.2

/-- A slot is written with words of the language. -/
theorem isInline_slot (s : Slot) : isInline s.text = true := by
  cases s with
  | location n =>
      simp only [Slot.text, isInline_append, isInline_toString]
      decide
  | builtin b => cases b <;> decide

/-- A type and a name after attributes. -/
theorem sealed_attributed {attributes : String} (hattributes : isInline attributes = true)
    {t : Ty} {name : String} (ht : Clear H t.baseName) (hname : Clear H name) :
    Sealed H (attributes ++ t.text ++ " " ++ name ++ ";") :=
  Clear.word (.between ((Sealed.of_isInline hattributes).append ht.type) (by decide) hname)
    (by decide)

/-- An entry of an input or output block ends in a semicolon. -/
theorem sealed_interfaceLine {v : InterfaceVariable} (h : AllClear H v.kinds) :
    Sealed H v.line := by
  obtain ⟨ht, hn⟩ := clear_interfaceVariable h
  refine sealed_attributed ?_ ht hn
  simp only [isInline_append, isInline_slot]
  decide

/-- An entry of a block of external variables ends in a semicolon. -/
theorem sealed_externalLine {v : ExternalVariable} (h : AllClear H v.kinds) :
    Sealed H v.line := by
  obtain ⟨ht, hn⟩ := clear_externalVariable h
  refine sealed_attributed ?_ ht hn
  simp only [isInline_append, isInline_toString]
  cases v.storage <;> decide

/-- The attributes of an entry end in a bracket. -/
theorem sealed_entryLine (e : EntryPoint) : Sealed H e.line := by
  refine .of_isInline ?_
  unfold EntryPoint.line
  split
  · simp only [isInline_append, isInline_toString]
    cases e.stage <;> decide
  · simp only [isInline_append]
    cases e.stage <;> decide

theorem clear_signature {f : Signature} (h : AllClear H f.kinds) :
    Clear H f.returnType.baseName ∧ Clear H f.name ∧
      ∀ q ∈ f.parameters, Clear H q.type.baseName ∧ Clear H q.name := by
  have hparts : AllClear H (entryKinds f.entry) ∧ Clear H f.returnType.baseName ∧
      Clear H f.name ∧
      ∀ q ∈ f.parameters, Clear H q.type.baseName ∧ Clear H q.name := by
    simpa [Signature.kinds, Parameter.kinds] using h
  exact hparts.2

/-- A function's header ends in a space. -/
theorem sealed_header {f : Signature} (h : AllClear H f.kinds) : Sealed H f.header := by
  obtain ⟨ht, hn, hparameters⟩ := clear_signature h
  have hlead : Clear H (f.returnType.text ++ " " ++ f.name) :=
    ht.type.between (by decide) hn
  refine (hlead.list ?_).clear.word (by decide)
  intro text htext
  obtain ⟨q, hq, rfl⟩ := List.mem_map.mp htext
  obtain ⟨hqt, hqn⟩ := hparameters q hq
  exact hqt.type.between (by decide) hqn

/-- Lines between braces under a header. -/
theorem tidy_bracedLines {header : String} (hheader : Clear H header)
    {lines : List String} (hlines : ∀ l ∈ lines, Sealed H l) (hw : Tidy (Sealed H) w) :
    Tidy (Sealed H) (bracedLines header lines w) := by
  have hhead := hw.line (hheader.word (t := " \x7b") (by decide))
  exact (hhead.nested hlines).tidy.pushSealed (.word (by decide))

/-- A body begins with a brace or on a line of its own, which leaves the text sealed. -/
theorem tidy_openBody (body : Stmt) (hw : Tidy (Sealed H) w) (hopen : w.isOpen = true) :
    Tidy (Sealed H) (openBody body w) := by
  cases body with
  | block b items => exact hw.clear.space hopen
  | _ => exact hw.close.indent.tidy

theorem tidy_closeBody (body : Stmt) (hw : Tidy (Sealed H) w) :
    Tidy (Sealed H) (closeBody body w) := by
  cases body with
  | block b items => exact hw
  | _ => exact hw.close.dedent.tidy

end Lines

mutual

/-- A statement ends on a sealed line, so anything may follow it. -/
theorem gives_openStmt (hd : d.KeepsClear H) (s : Stmt) (h : AllClear H (spell s.pieces))
    {w : Writer} (hw : Tidy (Sealed H) w) : Except.Gives (Tidy (Sealed H)) (d.openStmt s w) := by
  match s with
  | .branch p arms otherwise =>
      obtain ⟨harms, hother⟩ : AllClear H (spell (Stmt.piecesArms [.keyword .if] arms)) ∧
          AllClear H (spell (Stmt.piecesElse otherwise)) := by
        simpa [Stmt.pieces] using h
      rw [openStmt]
      exact (gives_arms hd (by decide) arms harms hw).bind fun _ hw =>
        gives_alternative hd otherwise hother hw
  | .forLoop p init condition step body =>
      obtain ⟨hinit, hcondition, hstep, hbody⟩ : AllClear H (spell (Stmt.piecesInit init)) ∧
          AllClear H (spell (Expr.piecesAfter [] condition)) ∧
          AllClear H (spell (Expr.piecesAfter [] step)) ∧ AllClear H (spell body.pieces) := by
        simpa [Stmt.pieces] using h
      rw [openStmt]
      refine (gives_clause hd init hinit (hw.pushSealed (.word (by decide)))).bind fun _ hw => ?_
      refine (gives_exprAfter hd (by decide) hcondition
        (hw.pushWord (by decide)).clear).bind fun _ hw => ?_
      refine (gives_exprAfter hd (by decide) hstep
        (hw.pushWord (by decide)).clear).bind fun _ hw => ?_
      have hopen := tidy_openBody body (hw.pushWord (s := ")") (by decide)) (by simp)
      exact (gives_openStmt hd body hbody hopen).bind fun _ hw => .ok (tidy_closeBody body hw)
  | .whileLoop p condition body =>
      obtain ⟨hcondition, hbody⟩ :
          AllClear H (spell condition.pieces) ∧ AllClear H (spell body.pieces) := by
        simpa [Stmt.pieces] using h
      rw [openStmt]
      refine (gives_expr hd hcondition (hw.pushSealed (.word (by decide)))).bind fun _ hw => ?_
      have hopen := tidy_openBody body (hw.pushWord (s := ")") (by decide)) (by simp)
      exact (gives_openStmt hd body hbody hopen).bind fun _ hw => .ok (tidy_closeBody body hw)
  | .doWhile p body condition =>
      obtain ⟨hbody, hcondition⟩ :
          AllClear H (spell body.pieces) ∧ AllClear H (spell condition.pieces) := by
        simpa [Stmt.pieces] using h
      have hopen := tidy_openBody body (hw.pushSealed (s := "do") (.word (by decide))) (by simp)
      rw [openStmt]
      refine (gives_openStmt hd body hbody hopen).bind fun _ hw => ?_
      have hfollow := (tidy_closeBody body hw).clear.follow (s := "while (") (by decide)
      exact (gives_expr hd hcondition hfollow).bind fun _ hw => .ok (hw.pushWord (by decide))
  | .var p v =>
      rw [openStmt]
      exact (gives_variableDeclaration hd h hw).bind fun _ hw => .ok (hw.pushWord (by decide))
  | .expr p e =>
      have he : AllClear H (spell e.pieces) := by simpa [Stmt.pieces] using h
      rw [openStmt]
      exact (gives_expr hd he hw).bind fun _ hw => .ok (hw.pushWord (by decide))
  | .leaveLoop p | .nextRound p | .discard p | .ret p none =>
      exact .ok (hw.pushSealed (.word (by decide)))
  | .ret p (some e) =>
      have he : AllClear H (spell e.pieces) := by simpa [Stmt.pieces, Expr.piecesAfter] using h
      exact (gives_expr hd he (hw.pushSealed (.word (by decide)))).bind fun _ hw =>
        .ok (hw.pushWord (by decide))
  | .block p items =>
      have hitems : AllClear H (spell (Stmt.piecesList items)) := by simpa [Stmt.pieces] using h
      rw [openStmt]
      refine (gives_stmts hd items hitems (hw.line (.word (by decide))).indent).bind fun _ hw => ?_
      exact .ok (hw.dedent.tidy.pushSealed (.word (by decide)))
  | .struct p s =>
      obtain ⟨hn, hfields⟩ :
          Clear H s.name ∧ AllClear H (s.fields.flatMap StructField.kinds) := by
        simpa [Stmt.pieces, Stmt.kinds] using h
      rw [openStmt]
      exact (Except.gives_any _).andThen fun _ =>
        .ok (tidy_bracedLines ((Sealed.word (by decide)).append hn) (sealed_fieldLines hfields) hw)
  | .inputs p vs | .outputs p vs =>
      have hvs : ∀ v ∈ vs, AllClear H v.kinds := by simpa [Stmt.pieces, Stmt.kinds] using h
      rw [openStmt]
      refine (Except.gives_any _).andThen fun _ =>
        .ok (tidy_bracedLines (Sealed.word (by decide)).clear ?_ hw)
      exact List.forall_mem_map.mpr fun v hv => sealed_interfaceLine (hvs v hv)
  | .externals p vs =>
      have hvs : ∀ v ∈ vs, AllClear H v.kinds := by simpa [Stmt.pieces, Stmt.kinds] using h
      rw [openStmt]
      refine (Except.gives_any _).andThen fun _ =>
        .ok (tidy_bracedLines (Sealed.word (by decide)).clear ?_ hw)
      exact List.forall_mem_map.mpr fun v hv => sealed_externalLine (hvs v hv)
  | .library p path =>
      have hpath : ∀ part ∈ path, Clear H part := by
        simpa [Stmt.pieces, Stmt.kinds] using h
      rw [openStmt]
      refine (Except.gives_any _).andThen fun _ => .ok (hw.pushSealed ?_)
      have hlead : Sealed H "include " := .word (by decide)
      exact (hlead.append (Clear.intercalate (by decide) hpath)).word (by decide)
  | .options p os =>
      have hos : ∀ o ∈ os, AllClear H (spell o.pieces) := by simpa [Stmt.pieces] using h
      rw [openStmt]
      refine (Except.gives_any _).andThen fun _ => ?_
      refine (gives_optionEntries hd hos (hw.line (.word (by decide))).indent).bind fun _ hw => ?_
      exact .ok (hw.dedent.tidy.pushSealed (.word (by decide)))
  | .consts p cs =>
      have hcs : ∀ c ∈ cs, AllClear H (spell c.pieces) := by simpa [Stmt.pieces] using h
      rw [openStmt]
      refine (Except.gives_any _).andThen fun _ => ?_
      refine (gives_constEntries hd hcs (hw.line (.word (by decide))).indent).bind fun _ hw => ?_
      exact .ok (hw.dedent.tidy.pushSealed (.word (by decide)))
  | .function p f items =>
      obtain ⟨hf, hitems⟩ : AllClear H f.kinds ∧ AllClear H (spell (Stmt.piecesList items)) := by
        simpa [Stmt.pieces] using h
      rw [openStmt]
      refine (Except.gives_any _).andThen fun _ => ?_
      have hentry : Tidy (Sealed H)
          (match f.entry with
            | some entry => w.line entry.line
            | none => w) := by
        cases f.entry with
        | none => exact hw
        | some entry => exact (hw.line (sealed_entryLine entry)).tidy
      have hbrace := (hentry.pushSealed (sealed_header hf)).line (s := "\x7b") (.word (by decide))
      refine (gives_stmts hd items hitems hbrace.indent).bind fun _ hw => ?_
      exact .ok (hw.dedent.tidy.pushSealed (.word (by decide)))
  | .optional p condition body otherwise =>
      obtain ⟨hcondition, hbody, hother⟩ : AllClear H (spell condition.pieces) ∧
          AllClear H (spell body.pieces) ∧ AllClear H (spell (Stmt.piecesElse otherwise)) := by
        simpa [Stmt.pieces] using h
      rw [openStmt]
      refine (Except.gives_any _).andThen fun _ => ?_
      refine (gives_expr hd hcondition (hw.clear.follow (by decide))).bind fun _ hw => ?_
      have hopen := tidy_openBody body (hw.pushWord (s := ")") (by decide)) (by simp)
      refine (gives_openStmt hd body hbody hopen).bind fun _ hw => ?_
      exact gives_optionalAlternative hd otherwise hother (tidy_closeBody body hw)

theorem gives_stmts (hd : d.KeepsClear H) (ss : List Stmt)
    (h : AllClear H (spell (Stmt.piecesList ss))) {w : Writer} (hw : Whole H w) :
    Except.Gives (Whole H) (d.stmts ss w) := by
  match ss with
  | [] => exact .ok hw
  | s :: rest =>
      obtain ⟨hs, hrest⟩ :
          AllClear H (spell s.pieces) ∧ AllClear H (spell (Stmt.piecesList rest)) := by
        simpa [Stmt.piecesList] using h
      rw [stmts]
      exact (gives_openStmt hd s hs hw.tidy).bind fun _ hw => gives_stmts hd rest hrest hw.close

theorem gives_arms (hd : d.KeepsClear H) {lead : String} (hlead : isWord lead = true)
    {ks : List Kind} (as : List (Expr × Stmt)) (h : AllClear H (spell (Stmt.piecesArms ks as)))
    {w : Writer} (hw : Tidy (Sealed H) w) :
    Except.Gives (Tidy (Sealed H)) (d.arms lead as w) := by
  match as with
  | [] => exact .ok hw
  | (c, s) :: rest =>
      obtain ⟨-, hc, hs, hrest⟩ : AllClear H ks ∧ AllClear H (spell c.pieces) ∧
          AllClear H (spell s.pieces) ∧
          AllClear H (spell (Stmt.piecesArms [.keyword .else, .keyword .if] rest)) := by
        simpa [Stmt.piecesArms] using h
      rw [arms]
      refine (gives_expr hd hc (hw.clear.follow hlead)).bind fun _ hw => ?_
      have hopen := tidy_openBody s (hw.pushWord (s := ")") (by decide)) (by simp)
      refine (gives_openStmt hd s hs hopen).bind fun _ hw => ?_
      exact gives_arms hd (by decide) rest hrest (tidy_closeBody s hw)

theorem gives_alternative (hd : d.KeepsClear H) (s : Option Stmt)
    (h : AllClear H (spell (Stmt.piecesElse s))) {w : Writer} (hw : Tidy (Sealed H) w) :
    Except.Gives (Tidy (Sealed H)) (d.alternative s w) := by
  match s with
  | none => exact .ok hw
  | some s =>
      have hs : AllClear H (spell s.pieces) := by simpa [Stmt.piecesElse] using h
      have hopen := tidy_openBody s (hw.clear.follow (s := "else") (by decide)) (by simp)
      rw [alternative]
      exact (gives_openStmt hd s hs hopen).bind fun _ hw => .ok (tidy_closeBody s hw)

theorem gives_optionalAlternative (hd : d.KeepsClear H) (s : Option Stmt)
    (h : AllClear H (spell (Stmt.piecesElse s))) {w : Writer} (hw : Tidy (Sealed H) w) :
    Except.Gives (Tidy (Sealed H)) (d.optionalAlternative s w) := by
  match s with
  | none => exact .ok hw
  | some s =>
      have hs : AllClear H (spell s.pieces) := by simpa [Stmt.piecesElse] using h
      have helse := hw.clear.follow (s := "else") (by decide)
      have hopen := tidy_openBody s helse (by simp)
      have hbody := fun {v : Writer} (hv : Tidy (Sealed H) v) => gives_openStmt hd s hs hv
      cases s with
      | optional p c b o => exact hbody helse
      | _ => exact (hbody hopen).bind fun _ hw => .ok (tidy_closeBody _ hw)

theorem gives_clause (hd : d.KeepsClear H) (s : Option Stmt)
    (h : AllClear H (spell (Stmt.piecesInit s))) {w : Writer} (hw : Tidy (Sealed H) w) :
    Except.Gives (Tidy (Clear H)) (d.clause s w) := by
  match s with
  | none => exact .ok hw.clear
  | some s =>
      obtain ⟨hs, -⟩ : AllClear H (spell s.pieces) ∧
          AllClear H (spell (if s.endsClause then [] else [Piece.symbol .semicolon])) := by
        simpa [Stmt.piecesInit] using h
      have hstmt := gives_openStmt hd s hs hw
      cases s with
      | var p v => exact gives_variableDeclaration hd hs hw
      | expr p e =>
          have he : AllClear H (spell e.pieces) := by simpa [Stmt.pieces] using hs
          exact gives_expr hd he hw
      | _ => exact hstmt.bind fun _ hw => .ok hw.close.tidy.clear

end

/-- The source language spells every name as it stands. -/
theorem clear_source : Dialect.source.KeepsClear H where
  builtin f _ := .ok (.of_isInline (isInline_builtin f))
  reference h := h
  declarator ht h := ht.type.between (by decide) h

end Dialect

namespace Stmt

/-- Items with blank lines between them are whole lines. -/
theorem gives_writeItems {items : List Stmt} (h : AllClear H (spell (piecesList items)))
    {w : Writer} (hw : Whole H w) : Except.Gives (Whole H) (writeItems items w) := by
  induction items generalizing w with
  | nil => exact .ok hw
  | cons s rest ih =>
      obtain ⟨hs, hrest⟩ : AllClear H (spell s.pieces) ∧ AllClear H (spell (piecesList rest)) := by
        simpa [piecesList] using h
      rw [writeItems, Dialect.stmt, bind_assoc]
      have hblank := hw.tidy.blankLine.tidy
      exact (Dialect.gives_openStmt Dialect.clear_source s hs hblank).bind fun _ hw =>
        ih hrest hw.close

/-- The source text of a tree is a row of whole lines, without pairs if no name has one. -/
theorem gives_sourceText {s : Stmt} (h : AllClear H (spell s.filePieces)) :
    Except.Gives (fun text => Clear H text ∧ EndsLine text.toList) s.sourceText :=
  (gives_writeItems h .empty).bind fun _ hw => .ok ⟨hw.clear, hw.ends⟩

end Stmt

end Shading
