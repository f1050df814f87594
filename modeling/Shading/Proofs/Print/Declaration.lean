import Shading.Proofs.Print.Writer

/-!
# Lines of declarations as spelled text
-/

namespace Shading

open Lexer (Phrase Starts Operand breaks isFree isName isWordStart isOperandHead)
open Parse (bracketed commas)
open Kind (Writable)

/-- A type and the name that it declares. -/
theorem operand_declared {name : String} {type : Ty} (htype : Writable type.kinds)
    (hname : isName name = true) :
    Operand (type.text ++ " " ++ name) (type.kinds ++ [.ident name]) := by
  have htype := Ty.operand_text htype
  have hblank : Phrase isFree " " [] := .fixed (by decide)
  have hname := Lexer.operand_name hname
  have hphrase := (htype.append hblank ⟨' ', rfl, rfl⟩).append hname.1 hname.free
  exact ⟨by simpa using hphrase, (htype.2.append _).append _⟩

/-- A text that ends with a semicolon. -/
theorem Lexer.Operand.semicolon {s : String} {ks : List Kind} (h : Operand s ks) :
    Phrase isFree (s ++ ";") (ks ++ [.symbol .semicolon]) :=
  h.append (.delimiter rfl (by decide)) ⟨';', rfl, rfl⟩

theorem StructDeclaration.phrase_fieldLine {f : StructField} (h : Writable f.kinds) :
    Phrase isFree (f.name ++ ": " ++ f.type.text ++ ";") f.kinds ∧
      Starts isFree (f.name ++ ": " ++ f.type.text ++ ";") := by
  simp only [StructField.kinds, Kind.writable_cons, Kind.writable_append,
    Kind.spellable_ident] at h
  have hname := Lexer.operand_name h.1
  have hcolon : Phrase isFree ": " [.symbol .colon] := .fixed (by decide)
  have htype := Ty.operand_text h.2.2.1
  have hphrase := (hname.append hcolon ⟨':', rfl, rfl⟩).append htype.1 htype.free
  have hoperand : Operand (f.name ++ ": " ++ f.type.text) _ :=
    ⟨hphrase, (hname.2.append _).append _⟩
  refine ⟨?_, hoperand.free.append _⟩
  simpa [StructField.kinds] using hoperand.semicolon

section Attributes

variable {s t : String} {k : Kind} {ks ls : List Kind}

/-- An attribute that starts a group, with one argument. -/
theorem phrase_attribute {lead : String} (hlead : Phrase isFree lead ks) (hs : Operand s [k])
    (hstart : Starts isFree s) : Phrase breaks (lead ++ s ++ ")") (ks ++ [k, .symbol .rparen]) := by
  have hclose : Phrase breaks ")" [.symbol .rparen] := .delimiter rfl (by decide)
  have hphrase := (hlead.append hs.1 hstart).append hclose ⟨')', rfl, rfl⟩
  simpa using hphrase

theorem Slot.phrase_text (slot : Slot) :
    Phrase isFree ("[" ++ slot.text ++ "] ") (bracketed slot.attributes) := by
  have hopen : Phrase isFree "[" [.symbol .lbracket] := .delimiter rfl (by decide)
  have hclose : Phrase isFree "] " [.symbol .rbracket] := .fixed (by decide)
  cases slot with
  | location n =>
      have hlead : Phrase isFree "location(" [.ident "location", .symbol .lparen] :=
        .fixed (by decide)
      have hn := Lexer.operand_int n
      have hstart : Starts isFree "location(" := ⟨'l', rfl, rfl⟩
      have hphrase := (hopen.append (phrase_attribute hlead hn hn.free)
        ((hstart.append _).append _)).append hclose ⟨']', rfl, rfl⟩
      exact hphrase
  | builtin b =>
      have hlead : Phrase isFree "builtin(" [.ident "builtin", .symbol .lparen] :=
        .fixed (by decide)
      have hb := Lexer.operand_name (show isName b.name = true by cases b <;> decide)
      have hstart : Starts isFree "builtin(" := ⟨'b', rfl, rfl⟩
      have hphrase := (hopen.append (phrase_attribute hlead hb hb.free)
        ((hstart.append _).append _)).append hclose ⟨']', rfl, rfl⟩
      exact hphrase

theorem InterfaceVariable.phrase_line {v : InterfaceVariable} (h : Writable v.kinds) :
    Phrase isFree v.line v.kinds ∧ Starts isFree v.line := by
  simp only [kinds, Kind.writable_append, Kind.writable_cons, Kind.spellable_ident] at h
  have hdeclares := operand_declared h.2.1 h.2.2.1
  have hphrase := (v.slot.phrase_text).append hdeclares.semicolon (hdeclares.free.append _)
  have hstart : Starts isFree "[" := ⟨'[', rfl, rfl⟩
  refine ⟨?_, ?_⟩
  · simpa [line, kinds, String.append_assoc] using hphrase
  · simpa [line, String.append_assoc] using hstart.append _

theorem ExternalVariable.phrase_line {v : ExternalVariable} (h : Writable v.kinds) :
    Phrase isFree v.line v.kinds ∧ Starts isFree v.line := by
  simp only [kinds, Kind.writable_append, Kind.writable_cons, Kind.spellable_ident] at h
  have hset : Phrase isFree "[set(" [.symbol .lbracket, .ident "set", .symbol .lparen] :=
    .fixed (by decide)
  have hbinding : Phrase isFree "), binding("
      [.symbol .rparen, .symbol .comma, .ident "binding", .symbol .lparen] := .fixed (by decide)
  have hstart : Starts isFree "[set(" := ⟨'[', rfl, rfl⟩
  have hn := Lexer.operand_int v.set
  have hm := Lexer.operand_int v.binding
  have hdeclares := operand_declared h.2.1 h.2.2.1
  have hnumbers :=
    (((hset.append hn.1 hn.free).append hbinding ⟨')', rfl, rfl⟩).append hm.1 hm.free)
  refine ⟨?_, ?_⟩
  · cases hstorage : v.storage with
    | false =>
        have hclose : Phrase isFree ")] " [.symbol .rparen, .symbol .rbracket] := .fixed (by decide)
        have hphrase := (hnumbers.append hclose ⟨')', rfl, rfl⟩).append hdeclares.semicolon
          (hdeclares.free.append _)
        simpa [line, kinds, attributes, bracketed, Parse.attributeKinds, commas, hstorage,
          Parse.argumentList, AttributeArgument.kind, String.append_assoc] using hphrase
    | true =>
        have hclose : Phrase isFree "), storage] " [.symbol .rparen, .symbol .comma,
            .ident "storage", .symbol .rbracket] := .fixed (by decide)
        have hphrase := (hnumbers.append hclose ⟨')', rfl, rfl⟩).append hdeclares.semicolon
          (hdeclares.free.append _)
        simpa [line, kinds, attributes, bracketed, Parse.attributeKinds, commas, hstorage,
          Parse.argumentList, AttributeArgument.kind, String.append_assoc] using hphrase
  · simpa [line, String.append_assoc] using hstart.append _

theorem EntryPoint.phrase_line (e : EntryPoint) :
    Phrase isFree e.line (bracketed e.attributes) ∧ Starts isFree e.line := by
  have hlead : Phrase isFree "[entry(" [.symbol .lbracket, .ident "entry", .symbol .lparen] :=
    .fixed (by decide)
  have hname := Lexer.operand_name (show isName e.stage.name = true by cases e.stage <;> decide)
  have hentry := hlead.append hname.1 hname.free
  have hstart : Starts isFree "[entry(" := ⟨'[', rfl, rfl⟩
  unfold line attributes
  cases e.workgroup with
  | none =>
      have hclose : Phrase isFree ")]" [.symbol .rparen, .symbol .rbracket] := .fixed (by decide)
      have hphrase := hentry.append hclose ⟨')', rfl, rfl⟩
      exact ⟨hphrase, (hstart.append _).append _⟩
  | some g =>
      have hworkgroup : Phrase isFree "), workgroup(" [.symbol .rparen, .symbol .comma,
          .ident "workgroup", .symbol .lparen] := .fixed (by decide)
      have hcomma : Phrase isFree ", " [.symbol .comma] := .fixed (by decide)
      have hclose : Phrase isFree ")]" [.symbol .rparen, .symbol .rbracket] := .fixed (by decide)
      have hx := Lexer.operand_int g.x
      have hy := Lexer.operand_int g.y
      have hz := Lexer.operand_int g.z
      have hphrase := ((((((hentry.append hworkgroup ⟨')', rfl, rfl⟩).append hx.1 hx.free).append
        hcomma ⟨',', rfl, rfl⟩).append hy.1 hy.free).append hcomma ⟨',', rfl, rfl⟩).append
        hz.1 hz.free).append hclose ⟨')', rfl, rfl⟩
      refine ⟨?_, ?_⟩
      · simpa [bracketed, Parse.attributeKinds, commas, Parse.argumentList,
          AttributeArgument.kind, String.append_assoc] using hphrase
      · simpa [String.append_assoc] using hstart.append _

end Attributes

/-- The header of a function, after its attributes. -/
theorem Signature.phrase_header {f : Signature} (h : Writable f.kinds) :
    Phrase isFree f.header (f.returnType.kinds ++ .ident f.name ::
      Parse.argumentList (f.parameters.map Parameter.kinds)) ∧ Starts isFree f.header := by
  simp only [kinds, Kind.writable_append, Kind.writable_cons, Kind.spellable_ident,
    Kind.writable_argumentList, List.forall_mem_map] at h
  have hdeclares := operand_declared h.2.1 h.2.2.1
  have hparameters : ∀ p ∈ f.parameters.map fun p => (p.type.text ++ " " ++ p.name, p.kinds),
      Operand p.1 p.2 := by
    intro p hp
    obtain ⟨q, hq, rfl⟩ := List.mem_map.mp hp
    have hparameter := h.2.2.2 q hq
    simp only [Parameter.kinds, Kind.writable_append, Kind.writable_cons,
      Kind.spellable_ident] at hparameter
    exact operand_declared hparameter.1 hparameter.2.1
  have hlist := Lexer.phrase_argumentList hparameters
  have hblank : Phrase isFree " " [] := .fixed (by decide)
  have hphrase := (hdeclares.append hlist.1 hlist.2).append hblank ⟨' ', rfl, rfl⟩
  refine ⟨?_, ?_⟩
  · simpa [header, Function.comp_def] using hphrase
  · exact ((hdeclares.free.append _).append _)

/-- The name of a library. -/
theorem operand_dotted {path : List String} (hne : path ≠ [])
    (h : Writable (dottedKinds path)) :
    Phrase breaks (dotted path) (dottedKinds path) ∧ Starts isWordStart (dotted path) := by
  induction path with
  | nil => exact absurd rfl hne
  | cons p ps ih =>
      cases ps with
      | nil =>
          have hp : isName p = true := (Kind.writable_cons.mp h).1
          have hstart := Lexer.starts_of_isName hp
          simpa [dotted, dottedKinds] using ⟨Phrase.name hp, hstart⟩
      | cons q qs =>
          simp only [dottedKinds, Kind.writable_cons, Kind.spellable_ident] at h
          have hp : isName p = true := h.1
          have hstart := Lexer.starts_of_isName hp
          obtain ⟨htail, htailstart⟩ := ih (by simp) h.2.2
          have hdot : Phrase isWordStart "." [.symbol .dot] := .symbol rfl fun c hc => hc
          have hphrase := ((Phrase.name hp).append hdot ⟨'.', rfl, rfl⟩).append htail htailstart
          simp only [dotted, String.intercalate_cons_cons, dottedKinds] at hphrase ⊢
          exact ⟨by simpa using hphrase, (hstart.append _).append _⟩

end Shading
