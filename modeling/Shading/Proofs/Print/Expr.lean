import Shading.Proofs.Binary32.Shortest
import Shading.Proofs.Except
import Shading.Proofs.Print.Phrase
import Shading.Proofs.Print.Pieces

/-!
# Expressions as spelled text

The source dialect prints every expression, and the text spells its tokens if each of them
can be written at all.
-/

namespace Shading

open Lexer (Phrase Starts breaks isFree isOperandHead isName isWordStart)
open Kind (parenthesized wrapped)
open Parse (commas argumentList)
open Piece

namespace Lexer

/-- A phrase that stands before a blank or a delimiter and starts like an operand. -/
def Operand (s : String) (ks : List Kind) : Prop := Phrase breaks s ks ∧ Starts isOperandHead s

theorem isOperandHead_of_isWordChar {c : Char} (h : isWordChar c = true) :
    isOperandHead c = true := by
  have hdot : c ≠ '.' := by
    rintro rfl
    exact absurd h (by decide)
  have heq : c ≠ '=' := by
    rintro rfl
    exact absurd h (by decide)
  simp [isOperandHead, hdot, heq]

theorem isFree_of_isOperandHead {c : Char} (h : isOperandHead c = true) : isFree c = true := by
  simp only [isOperandHead, Bool.and_eq_true] at h
  exact h.1

/-- A name starts like a word. -/
theorem starts_of_isName {s : String} (h : isName s = true) : Starts isWordStart s := by
  unfold isName at h
  split at h
  · cases h
  · rename_i c cs hcs
    simp only [Bool.and_eq_true] at h
    exact ⟨c, by simp [hcs], h.1.1⟩

/-- A name is an operand by itself. -/
theorem operand_name {s : String} (h : isName s = true) : Operand s [.ident s] :=
  ⟨.name h, (starts_of_isName h).mono fun _ hc =>
    isOperandHead_of_isWordChar (isWordChar_of_isWordStart hc)⟩

/-- A number is an operand by itself. -/
theorem operand_number {s : String} {k : Kind} (hs : s.toList = k.spelling) (hk : k.Spellable)
    (hnumber : k.isNumber = true) : Operand s [k] := by
  obtain ⟨c, cs, hspell, hc⟩ := spelling_of_isNumber hnumber hk
  refine ⟨.word hs hk ?_, c, by simp [hs, hspell], ?_⟩
  · rintro x rfl
    cases hnumber
  · exact isOperandHead_of_isWordChar (isWordChar_of_isDigit hc)

theorem operand_int (n : Nat) : Operand (toString n) [.int n] :=
  operand_number (k := .int n) (by simp [Kind.spelling, Nat.toString_eq_repr, Nat.repr]) trivial rfl

theorem operand_keyword (k : Keyword) : Operand k.text [.keyword k] := by
  refine ⟨.keyword k, ?_⟩
  cases k <;> exact ⟨_, rfl, rfl⟩

namespace Operand

variable {s t : String} {ks ls : List Kind}

theorem free (h : Operand s ks) : Starts isFree s := h.2.mono fun _ => isFree_of_isOperandHead

/-- An operand and what follows it. -/
theorem append {p : Char → Bool} (hs : Operand s ks) (ht : Phrase p t ls)
    (hstart : Starts breaks t) : Phrase p (s ++ t) (ks ++ ls) :=
  hs.1.append ht hstart

/-- Parentheses make an operand of an operand. -/
theorem parens (h : Operand s ks) : Operand ("(" ++ s ++ ")") (parenthesized ks) := by
  have hopen : Phrase isFree "(" [.symbol .lparen] := .delimiter rfl (by decide)
  have hclose : Phrase breaks ")" [.symbol .rparen] := .delimiter rfl (by decide)
  refine ⟨(hopen.append h.1 h.free).append hclose ⟨')', rfl, rfl⟩, ?_⟩
  have hstart : Starts isOperandHead "(" := ⟨'(', rfl, rfl⟩
  exact (hstart.append s).append ")"

theorem wrap (h : Operand s ks) (parens : Bool) :
    Operand (Expr.wrap parens s) (wrapped parens ks) := by
  cases parens with
  | false => exact h
  | true => exact h.parens

end Operand

/-- Operands with commas between them. -/
theorem operand_commas {parts : List (String × List Kind)} (hne : parts ≠ [])
    (h : ∀ p ∈ parts, Operand p.1 p.2) :
    Operand (String.intercalate ", " (parts.map Prod.fst)) (commas (parts.map Prod.snd)) := by
  induction parts with
  | nil => exact absurd rfl hne
  | cons p ps ih =>
      have hp := h p (by simp)
      cases ps with
      | nil => simpa [commas] using hp
      | cons q qs =>
          have htail := ih (by simp) fun r hr => h r (List.mem_cons_of_mem _ hr)
          have hcomma : Phrase isFree ", " [.symbol .comma] := .fixed (by decide)
          have hlead := (hp.append hcomma ⟨',', rfl, rfl⟩).append htail.1 htail.free
          simp only [List.map_cons, String.intercalate_cons_cons, commas] at hlead ⊢
          refine ⟨by simpa using hlead, ?_⟩
          exact (hp.2.append _).append _

/-- Operands with commas between them, in parentheses. -/
theorem phrase_argumentList {parts : List (String × List Kind)}
    (h : ∀ p ∈ parts, Operand p.1 p.2) :
    Phrase breaks (parenthesizedList (parts.map Prod.fst)) (argumentList (parts.map Prod.snd)) ∧
      Starts breaks (parenthesizedList (parts.map Prod.fst)) := by
  have hstart : Starts breaks (parenthesizedList (parts.map Prod.fst)) := by
    have hopen : Starts breaks "(" := ⟨'(', rfl, rfl⟩
    exact (hopen.append _).append _
  refine ⟨?_, hstart⟩
  cases parts with
  | nil =>
      have hopen : Phrase breaks "(" [.symbol .lparen] := .delimiter rfl (by decide)
      have hclose : Phrase breaks ")" [.symbol .rparen] := .delimiter rfl (by decide)
      exact hopen.append hclose ⟨')', rfl, rfl⟩
  | cons p ps => exact (operand_commas (List.cons_ne_nil p ps) h).parens.1

/-- Operands in parentheses behind what they are the arguments of. -/
theorem operand_arguments {s : String} {ks : List Kind} {parts : List (String × List Kind)}
    (hs : Operand s ks) (h : ∀ p ∈ parts, Operand p.1 p.2) :
    Operand (s ++ parenthesizedList (parts.map Prod.fst))
      (ks ++ argumentList (parts.map Prod.snd)) := by
  obtain ⟨hlist, hstart⟩ := phrase_argumentList h
  exact ⟨hs.append hlist hstart, hs.2.append _⟩

/-- Two operands with an operator and blanks between them. -/
theorem operand_infix {s op t : String} {x : Symbol} {ks ls : List Kind} (hs : Operand s ks)
    (ht : Operand t ls) (hop : op.toList = x.chars) (hdot : x ≠ .dot) :
    Operand (s ++ " " ++ op ++ " " ++ t) (ks ++ .symbol x :: ls) := by
  have hblank : Phrase isFree " " [] := .fixed (by decide)
  have hx : Phrase isBlank op [.symbol x] := by
    apply Phrase.symbol hop
    intro c hc
    unfold Kind.mayPrecede
    split
    · rename_i heq
      exact absurd (Kind.symbol.inj heq) hdot
    · simp [hc]
    · simp [hc]
  have hfree : Starts isFree op := by
    cases x <;> first | exact absurd rfl hdot | exact ⟨_, by rw [hop]; rfl, rfl⟩
  have hphrase := (((hs.append hblank ⟨' ', rfl, rfl⟩).append hx hfree).append hblank
    ⟨' ', rfl, rfl⟩).append ht.1 ht.free
  refine ⟨by simpa using hphrase, ?_⟩
  exact (((hs.2.append _).append _).append _).append _

/-- A prefix operator and its operand. -/
theorem operand_prefix (op : UnaryOp) {s : String} {ks : List Kind} (hs : Operand s ks) :
    Operand (op.symbol ++ s) (.symbol op.token :: ks) := by
  have hop : Phrase isOperandHead op.symbol [.symbol op.token] := by
    apply Phrase.symbol op.chars_token
    intro c hc
    have hne : c ≠ '=' := by simpa [isOperandHead] using (Bool.and_eq_true_iff.mp hc).2
    cases op <;> simp [UnaryOp.token, Kind.mayPrecede, Symbol.prefixes, hne]
  have hstart : Starts isOperandHead op.symbol := by
    cases op <;> exact ⟨_, rfl, rfl⟩
  exact ⟨hop.append hs.1 hs.2, hstart.append s⟩

/-- A member of an operand. -/
theorem operand_member {s name : String} {ks : List Kind} (hs : Operand s ks)
    (hname : isName name = true) :
    Operand (s ++ "." ++ name) (ks ++ [.symbol .dot, .ident name]) := by
  have hdot : Phrase isWordStart "." [.symbol .dot] := .symbol rfl fun c hc => hc
  have hphrase := (hs.append hdot ⟨'.', rfl, rfl⟩).append (.name hname) (starts_of_isName hname)
  exact ⟨by simpa using hphrase, (hs.2.append _).append _⟩

/-- An operand with another one in brackets. -/
theorem operand_index {s t : String} {ks ls : List Kind} (hs : Operand s ks) (ht : Operand t ls) :
    Operand (s ++ "[" ++ t ++ "]") (ks ++ .symbol .lbracket :: (ls ++ [.symbol .rbracket])) := by
  have hopen : Phrase isFree "[" [.symbol .lbracket] := .delimiter rfl (by decide)
  have hclose : Phrase breaks "]" [.symbol .rbracket] := .delimiter rfl (by decide)
  have hphrase := ((hs.append hopen ⟨'[', rfl, rfl⟩).append ht.1 ht.free).append hclose
    ⟨']', rfl, rfl⟩
  exact ⟨by simpa using hphrase, ((hs.2.append _).append _).append _⟩

/-- A condition and the two operands that it chooses from. -/
theorem operand_ternary {s t u : String} {ks ls ms : List Kind} (hs : Operand s ks)
    (ht : Operand t ls) (hu : Operand u ms) :
    Operand (s ++ " ? " ++ t ++ " : " ++ u)
      (ks ++ .symbol .question :: (ls ++ .symbol .colon :: ms)) := by
  have hquestion : Phrase isFree " ? " [.symbol .question] := .fixed (by decide)
  have hcolon : Phrase isFree " : " [.symbol .colon] := .fixed (by decide)
  have hphrase := (((hs.append hquestion ⟨' ', rfl, rfl⟩).append ht.1 ht.free).append
    hcolon ⟨' ', rfl, rfl⟩).append hu.1 hu.free
  exact ⟨by simpa using hphrase, (((hs.2.append _).append _).append _).append _⟩

end Lexer

open Lexer (Operand)

/-- The size of an array is spelled by its brackets. -/
theorem ArraySize.phrase_text (d : ArraySize) :
    Phrase breaks d.text d.kinds ∧ Starts breaks d.text := by
  have hopen : Phrase isFree "[" [.symbol .lbracket] := .delimiter rfl (by decide)
  have hclose : Phrase breaks "]" [.symbol .rbracket] := .delimiter rfl (by decide)
  cases d with
  | implicit =>
      have hempty : Phrase breaks "[" [.symbol .lbracket] := .delimiter rfl (by decide)
      exact ⟨hempty.append hclose ⟨']', rfl, rfl⟩, '[', rfl, rfl⟩
  | fixed n =>
      have hn := Lexer.operand_int n
      refine ⟨(hopen.append hn.1 hn.free).append hclose ⟨']', rfl, rfl⟩, ?_⟩
      have hstart : Starts breaks "[" := ⟨'[', rfl, rfl⟩
      exact (hstart.append _).append _

namespace Ty

/-- Array suffixes after a text. -/
theorem phrase_suffixes {s : String} {ks : List Kind} (hs : Phrase breaks s ks)
    (dims : List ArraySize) : Phrase breaks (s ++ String.join (dims.map ArraySize.text))
      (ks ++ dims.flatMap ArraySize.kinds) := by
  induction dims generalizing s ks with
  | nil => simpa using hs
  | cons d ds ih =>
      obtain ⟨hd, hstart⟩ := d.phrase_text
      have htail := ih (hs.append hd hstart)
      simpa [String.join_cons, String.append_assoc] using htail

/-- A type is spelled as it is read. -/
theorem operand_text {t : Ty} (h : Kind.Writable t.kinds) : Operand t.text t.kinds := by
  have hname : isName t.baseName = true := h (.ident t.baseName) (by simp [kinds])
  have hbase := Lexer.operand_name hname
  exact ⟨phrase_suffixes hbase.1 t.dims, hbase.2.append _⟩

end Ty

namespace Constant

variable {c : Constant}

/-- A constant without a sign is spelled by its digits. -/
theorem operand_text_of_not_isNegative (h : c.magnitude.Spellable) (hsign : c.isNegative = false) :
    Operand c.text [c.magnitude] := by
  cases c with
  | bool b =>
      cases b with
      | false => exact Lexer.operand_keyword .false
      | true => exact Lexer.operand_keyword .true
  | int i =>
      have hpos : ¬i < 0 := of_decide_eq_false hsign
      have hle : 0 ≤ i.toInt := Int.not_lt.mp fun hlt => hpos (Int32.lt_iff_toInt_lt.mpr hlt)
      obtain ⟨n, hn⟩ := Int.eq_ofNat_of_zero_le hle
      have htext : toString i.toInt = toString i.toInt.natAbs := by
        rw [hn]
        rfl
      rw [text, htext]
      exact Lexer.operand_int _
  | uint u =>
      refine Lexer.operand_number (k := .uint u) ?_ trivial rfl
      simp [text, Kind.spelling, Nat.toString_eq_repr, Nat.repr]
  | float x =>
      have heq : Binary32.ofParts false x.magnitude = x := Binary32.ofParts_magnitude hsign
      rw [magnitude, heq] at h ⊢
      exact Lexer.operand_number rfl h rfl

/-- A negative constant is spelled by its sign and its digits. -/
theorem operand_text_of_isNegative (h : c.magnitude.Spellable) (hsign : c.isNegative = true) :
    Operand c.text [.symbol .minus, c.magnitude] := by
  cases c with
  | bool _ | uint _ => cases hsign
  | int i =>
      have hlt : i.toInt < 0 := Int32.lt_iff_toInt_lt.mp (of_decide_eq_true hsign)
      obtain ⟨n, hn⟩ := Int.eq_negSucc_of_lt_zero hlt
      have htext : toString i.toInt = UnaryOp.neg.symbol ++ toString i.toInt.natAbs := by
        rw [hn]
        rfl
      rw [text, htext]
      exact Lexer.operand_prefix .neg (Lexer.operand_int _)
  | float x =>
      have hx : x.isFinite = true := x.isFinite_ofParts ▸ h.1
      rw [text, Binary32.text_of_isNegative hx hsign]
      exact Lexer.operand_prefix .neg (Lexer.operand_number rfl h rfl)

/-- The text of a value as an operand is its literal. -/
theorem operand_text (h : Kind.Writable c.literal) : Operand c.operandText c.literal := by
  rw [writable_literal] at h
  unfold operandText literal
  cases hsign : c.isNegative with
  | true => exact (operand_text_of_isNegative h hsign).parens
  | false => exact operand_text_of_not_isNegative h hsign

/-- A constant that can be written as it stands has no sign of its own. -/
theorem literal_eq_kinds (h : Kind.Writable c.kinds) : c.literal = c.kinds := by
  cases c with
  | bool _ | uint _ => rfl
  | int i => simp [literal, kinds, isNegative, magnitude]
  | float x =>
      have hx : x.isFinite = true ∧ x.isNegative = false := h (.float x) (by simp [kinds])
      simp [literal, kinds, isNegative, magnitude, hx.2, Binary32.ofParts_magnitude hx.2]

end Constant

namespace Expr

mutual

/-- The source dialect prints an expression whose tokens can be written. -/
theorem operand_spell (e : Expr) (h : Kind.Writable (spell e.pieces)) :
    ∃ t, e.text .source = .ok t ∧ Operand t (spell e.pieces) := by
  cases e with
  | constant _ value =>
      simp only [pieces, spell_value, spell_nil, List.append_nil] at h ⊢
      exact ⟨_, rfl, Constant.operand_text h⟩
  | ref _ name =>
      simp only [pieces, spell_reference, spell_nil] at h ⊢
      exact ⟨_, rfl, Lexer.operand_name (Kind.writable_cons.mp h).1⟩
  | index _ base place =>
      simp only [pieces, spell_append, spell_enclosedIf, spell_symbol, spell_nil,
        Kind.writable_append, Kind.writable_wrapped, Kind.writable_cons] at h ⊢
      obtain ⟨b, hb, hbase⟩ := operand_spell base h.1
      obtain ⟨p, hp, hplace⟩ := operand_spell place h.2.2.1
      refine ⟨_, by simp only [text, hb, hp, Except.ok_bind]; rfl, ?_⟩
      exact Lexer.operand_index (hbase.wrap _) hplace
  | field _ base name =>
      simp only [pieces, spell_append, spell_enclosedIf, spell_tokens, Kind.writable_append,
        Kind.writable_wrapped, Kind.writable_cons, Kind.spellable_ident] at h ⊢
      obtain ⟨b, hb, hbase⟩ := operand_spell base h.1
      refine ⟨_, by simp only [text, hb, Except.ok_bind]; rfl, ?_⟩
      exact Lexer.operand_member (hbase.wrap _) h.2.2.1
  | swizzle _ base selection =>
      simp only [pieces, spell_append, spell_enclosedIf, spell_tokens, Kind.writable_append,
        Kind.writable_wrapped, Kind.writable_cons, Kind.spellable_ident] at h ⊢
      obtain ⟨b, hb, hbase⟩ := operand_spell base h.1
      refine ⟨_, by simp only [text, hb, Except.ok_bind]; rfl, ?_⟩
      exact Lexer.operand_member (hbase.wrap _) h.2.2.1
  | assign _ op target value =>
      simp only [pieces, spell_append, spell_enclosedIf, spell_symbol, Kind.writable_append,
        Kind.writable_wrapped, Kind.writable_cons] at h ⊢
      obtain ⟨t, ht, htarget⟩ := operand_spell target h.1
      obtain ⟨v, hv, hvalue⟩ := operand_spell value h.2.2
      refine ⟨_, by simp only [text, ht, hv, Except.ok_bind]; rfl, ?_⟩
      exact Lexer.operand_infix (htarget.wrap _) hvalue op.chars_token (by cases op <;> decide)
  | unary _ op operand =>
      simp only [pieces, spell_enclosedIf, spell_symbol, Kind.writable_wrapped,
        Kind.writable_cons] at h ⊢
      obtain ⟨o, ho, hoperand⟩ := operand_spell operand h.2
      refine ⟨_, by simp only [text, ho, Except.ok_bind]; rfl, ?_⟩
      exact Lexer.operand_prefix op (hoperand.wrap _)
  | binary _ op left right =>
      simp only [pieces, spell_append, spell_enclosedIf, spell_symbol, Kind.writable_append,
        Kind.writable_wrapped, Kind.writable_cons] at h ⊢
      obtain ⟨l, hl, hleft⟩ := operand_spell left h.1
      obtain ⟨r, hr, hright⟩ := operand_spell right h.2.2
      refine ⟨_, by simp only [text, hl, hr, Except.ok_bind]; rfl, ?_⟩
      exact Lexer.operand_infix (hleft.wrap _) (hright.wrap _) op.chars_token
        (by cases op <;> decide)
  | call _ name args =>
      simp only [pieces, spell_token, spell_arguments, Kind.writable_cons, Kind.spellable_ident,
        Kind.writable_argumentList] at h ⊢
      obtain ⟨parts, hparts, hkinds, hall⟩ := operands_spell args h.2
      refine ⟨_, by simp only [text, hparts, Except.ok_bind]; rfl, ?_⟩
      rw [← hkinds]
      exact Lexer.operand_arguments (Lexer.operand_name h.1) hall
  | builtin span f args =>
      simp only [pieces, spell_token, spell_arguments, Kind.writable_cons, Kind.spellable_ident,
        Kind.writable_argumentList] at h ⊢
      obtain ⟨parts, hparts, hkinds, hall⟩ := operands_spell args h.2
      have hbuiltin : Dialect.source.builtin f span = .ok f.name := rfl
      refine ⟨_, by simp only [text, hparts, hbuiltin, Except.ok_bind]; rfl, ?_⟩
      rw [← hkinds]
      exact Lexer.operand_arguments (Lexer.operand_name h.1) hall
  | cast _ target args =>
      simp only [pieces, spell_append, spell_tokens, spell_arguments, Kind.writable_append,
        Kind.writable_argumentList] at h ⊢
      obtain ⟨parts, hparts, hkinds, hall⟩ := operands_spell args h.2
      refine ⟨_, by simp only [text, hparts, Except.ok_bind]; rfl, ?_⟩
      rw [← hkinds]
      exact Lexer.operand_arguments (Ty.operand_text h.1) hall
  | ternary _ c t f =>
      simp only [pieces, spell_append, spell_enclosedIf, spell_symbol, Kind.writable_append,
        Kind.writable_wrapped, Kind.writable_cons] at h ⊢
      obtain ⟨ct, hc, hcondition⟩ := operand_spell c h.1
      obtain ⟨tt, ht, htrue⟩ := operand_spell t h.2.2.1
      obtain ⟨ft, hf, hfalse⟩ := operand_spell f h.2.2.2.2
      refine ⟨_, by simp only [text, hc, ht, hf, Except.ok_bind]; rfl, ?_⟩
      exact Lexer.operand_ternary (hcondition.wrap _) htrue (hfalse.wrap _)

/-- Every argument has a text, which is spelled by its kinds. -/
theorem operands_spell (es : List Expr)
    (h : ∀ ks ∈ (piecesList es).map spell, Kind.Writable ks) :
    ∃ parts : List (String × List Kind), textList .source es = .ok (parts.map Prod.fst) ∧
      parts.map Prod.snd = (piecesList es).map spell ∧ ∀ p ∈ parts, Operand p.1 p.2 := by
  cases es with
  | nil => exact ⟨[], rfl, rfl, by simp⟩
  | cons e es =>
      simp only [piecesList, List.map_cons, List.mem_cons, forall_eq_or_imp] at h
      obtain ⟨t, ht, he⟩ := operand_spell e h.1
      obtain ⟨parts, hparts, hkinds, hall⟩ := operands_spell es h.2
      refine ⟨(t, spell e.pieces) :: parts, ?_, ?_, ?_⟩
      · simp only [textList, ht, hparts, Except.ok_bind]
        rfl
      · simp [piecesList, hkinds]
      · intro p hp
        rcases List.mem_cons.mp hp with rfl | hp
        · exact he
        · exact hall p hp

end

mutual

/-- Where all tokens can be written, the pieces are the tokens that the tree is read from. -/
theorem spell_pieces (e : Expr) (h : Kind.Writable e.kinds) : spell e.pieces = e.kinds := by
  cases e with
  | constant _ value => simpa [pieces, kinds] using Constant.literal_eq_kinds h
  | ref _ name => rfl
  | index _ base place =>
      simp only [kinds, Kind.writable_append, Kind.writable_wrapped, Kind.writable_cons] at h
      simp [pieces, kinds, spell_pieces base h.1, spell_pieces place h.2.2.1]
  | field _ base _ | swizzle _ base _ =>
      simp only [kinds, Kind.writable_append, Kind.writable_wrapped] at h
      simp [pieces, kinds, spell_pieces base h.1]
  | assign _ op target value =>
      simp only [kinds, Kind.writable_append, Kind.writable_wrapped, Kind.writable_cons] at h
      simp [pieces, kinds, spell_pieces target h.1, spell_pieces value h.2.2]
  | unary _ op operand =>
      simp only [kinds, Kind.writable_wrapped, Kind.writable_cons] at h
      simp [pieces, kinds, spell_pieces operand h.2]
  | binary _ op left right =>
      simp only [kinds, Kind.writable_append, Kind.writable_wrapped, Kind.writable_cons] at h
      simp [pieces, kinds, spell_pieces left h.1, spell_pieces right h.2.2]
  | call _ _ args | builtin _ _ args =>
      simp only [kinds, Kind.writable_cons, Kind.writable_argumentList] at h
      simp [pieces, kinds, spell_piecesList args h.2]
  | cast _ target args =>
      simp only [kinds, Kind.writable_append, Kind.writable_argumentList] at h
      simp [pieces, kinds, spell_piecesList args h.2]
  | ternary _ c t f =>
      simp only [kinds, Kind.writable_append, Kind.writable_wrapped, Kind.writable_cons] at h
      simp [pieces, kinds, spell_pieces c h.1, spell_pieces t h.2.2.1, spell_pieces f h.2.2.2.2]

theorem spell_piecesList (es : List Expr) (h : ∀ ks ∈ kindsList es, Kind.Writable ks) :
    (piecesList es).map spell = kindsList es := by
  cases es with
  | nil => rfl
  | cons e es =>
      simp only [kindsList, List.mem_cons, forall_eq_or_imp] at h
      simp only [piecesList, kindsList, List.map_cons, spell_pieces e h.1, spell_piecesList es h.2]

end

/-- An expression that can be written has a text, which is an operand. -/
theorem operand_text (e : Expr) (h : Kind.Writable e.kinds) :
    ∃ t, e.text .source = .ok t ∧ Operand t e.kinds := by
  have hspell := e.spell_pieces h
  rw [← hspell] at h ⊢
  exact e.operand_spell h

end Expr

end Shading
