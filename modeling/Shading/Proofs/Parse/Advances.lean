import Shading.Proofs.Parse.ItemLocal

/-!
# Progress of the parser

No production goes back, past the end or over an end of file: one that succeeds stands behind
some tokens of the input, none of which is an end of file. Types, expressions, statements,
declarations and the entries of blocks take one token at least, so a loop over them ends.
-/

namespace Shading

namespace Parse

variable {α β : Type} {m : Parse α} {names : Names}

/-- A run that succeeds takes some tokens off the front, none of them an end of file. -/
def Advances (m : Parse α) : Prop :=
  ∀ c a c', m c = .ok (a, c') → ∃ taken, c.rest = taken ++ c'.rest ∧ ∀ t ∈ taken, t.kind ≠ .eof

/-- A run that succeeds takes one token at least. -/
def Progresses (m : Parse α) : Prop :=
  ∀ c a c', m c = .ok (a, c') →
    ∃ t taken, c.rest = t :: (taken ++ c'.rest) ∧ ∀ u ∈ t :: taken, u.kind ≠ .eof

/-- The same from cursors at a token of the kind. -/
def ProgressesAt (k : Kind) (m : Parse α) : Prop :=
  ∀ c a c', c.current.kind = k → m c = .ok (a, c') →
    ∃ t taken, c.rest = t :: (taken ++ c'.rest) ∧ ∀ u ∈ t :: taken, u.kind ≠ .eof

/-- What is local takes tokens from the front only. -/
theorem Local.advances {m' : Parse α} (h : Local m m') : Advances m := by
  intro c a c' hrun
  obtain ⟨taken, htaken⟩ := h c a c' hrun
  exact ⟨taken, htaken.rest, htaken.noEof⟩

/-- The token that closes a declaration is taken. -/
theorem Closes.progresses {m' : Parse α} (h : Closes m m') : Progresses m := by
  intro c a c' hrun
  obtain ⟨-, taken, t, htaken⟩ := h c a c' hrun
  have hcloser : t.kind ≠ .eof := ne_of_isCloser htaken.closer rfl
  cases taken with
  | nil => exact ⟨t, [], htaken.rest, by simpa using hcloser⟩
  | cons u taken =>
      refine ⟨u, taken ++ [t], by simpa using htaken.rest, ?_⟩
      intro v hv
      rcases List.mem_append.mp (List.cons_append ▸ hv) with hv | hv
      · exact htaken.noEof v hv
      · rw [List.mem_singleton.mp hv]
        exact hcloser

namespace Advances

variable {f : α → Parse β} {c c' : Cursor} {a : α}

/-- No token is put back. -/
theorem length_le (h : Advances m) (hrun : m c = .ok (a, c')) : c'.rest.length ≤ c.rest.length := by
  obtain ⟨taken, hrest, -⟩ := h c a c' hrun
  rw [hrest, List.length_append]
  omega

/-- The tokens that are left are a part of those that were there. -/
theorem suffix (h : Advances m) (hrun : m c = .ok (a, c')) : c'.rest <:+ c.rest := by
  obtain ⟨taken, hrest, -⟩ := h c a c' hrun
  exact ⟨taken, hrest.symm⟩

/-- Two steps that put nothing back do so together. -/
theorem bind (h : Advances m) (hf : ∀ a, Advances (f a)) : Advances (m >>= f) := by
  intro c b c' hrun
  obtain ⟨a, mid, ha, hb⟩ := StateT.bind_eq_ok_iff.mp hrun
  obtain ⟨ts, hts, hnot⟩ := h c a mid ha
  obtain ⟨us, hus, hnot'⟩ := hf a mid b c' hb
  refine ⟨ts ++ us, by rw [hts, hus, List.append_assoc], ?_⟩
  intro t ht
  rcases List.mem_append.mp ht with ht | ht
  · exact hnot t ht
  · exact hnot' t ht

end Advances

namespace Progresses

variable {f : α → Parse β} {k : Kind} {c c' : Cursor} {a : α}

/-- A production that progresses takes a token, which is what bounds a loop over it. -/
theorem length_lt (h : Progresses m) (hrun : m c = .ok (a, c')) :
    c'.rest.length < c.rest.length := by
  obtain ⟨t, taken, hrest, -⟩ := h c a c' hrun
  rw [hrest, List.length_cons, List.length_append]
  omega

theorem advances (h : Progresses m) : Advances m := by
  intro c a c' hrun
  obtain ⟨t, taken, hrest, hnot⟩ := h c a c' hrun
  exact ⟨t :: taken, hrest, hnot⟩

theorem of_fails (h : ∀ c a c', m c ≠ .ok (a, c')) : Progresses m := by
  intro c a c' hrun
  exact absurd hrun (h c a c')

theorem failAt (t : Token) (fault : ParseFault) : Progresses (Parse.failAt t fault : Parse α) := by
  apply of_fails
  intro c a c' hrun
  cases hrun

theorem spent : Progresses (Parse.spent : Parse α) := by
  apply of_fails
  intro c a c' hrun
  cases hrun

theorem unexpected (expected : Expected) : Progresses (Parse.unexpected expected : Parse α) := by
  apply of_fails
  intro c a c' hrun
  cases hrun

theorem at_ (h : Progresses m) (k : Kind) : ProgressesAt k m := by
  intro c a c' _ hrun
  exact h c a c' hrun

/-- The first step takes a token. -/
theorem bind (h : Progresses m) (hf : ∀ a, Advances (f a)) : Progresses (m >>= f) := by
  intro c b c' hrun
  obtain ⟨a, mid, ha, hb⟩ := StateT.bind_eq_ok_iff.mp hrun
  obtain ⟨t, taken, hrest, hnot⟩ := h c a mid ha
  obtain ⟨us, hus, hnot'⟩ := hf a mid b c' hb
  refine ⟨t, taken ++ us, by rw [hrest, hus, List.append_assoc], ?_⟩
  intro u hu
  rcases List.mem_append.mp (List.cons_append ▸ hu) with hu | hu
  · exact hnot u hu
  · exact hnot' u hu

/-- What follows the first step takes a token. -/
theorem bindRight (h : Advances m) (hf : ∀ a, Progresses (f a)) : Progresses (m >>= f) := by
  intro c b c' hrun
  obtain ⟨a, mid, ha, hb⟩ := StateT.bind_eq_ok_iff.mp hrun
  obtain ⟨taken, hrest, hnot⟩ := h c a mid ha
  obtain ⟨t, us, hus, hnot'⟩ := hf a mid b c' hb
  cases taken with
  | nil => exact ⟨t, us, hrest.trans hus, hnot'⟩
  | cons u taken =>
      refine ⟨u, taken ++ t :: us, by simp [hrest, hus], ?_⟩
      intro v hv
      rcases List.mem_append.mp (List.cons_append ▸ hv) with hv | hv
      · exact hnot v hv
      · exact hnot' v hv

theorem look {f : Token → Parse β} (h : ∀ t, ProgressesAt t.kind (f t)) :
    Progresses (Parse.look >>= f) := by
  intro c b c' hrun
  exact h c.current c b c' rfl hrun

theorem ite {p : Prop} [Decidable p] {m' : Parse α} (h : p → Progresses m)
    (h' : ¬p → Progresses m') : Progresses (if p then m else m') := by
  split
  · exact h ‹_›
  · exact h' ‹_›

end Progresses

/-- A token that is not the end is taken, and what follows may take none. -/
theorem ProgressesAt.take {k : Kind} (hk : k ≠ .eof) {f : Unit → Parse β} (hf : Advances (f ())) :
    ProgressesAt k (Parse.take >>= f) := by
  intro c b c' hc hrun
  obtain ⟨rest, hrest, hadvance⟩ := exists_of_kind_ne_eof (hc ▸ hk : c.current.kind ≠ .eof)
  obtain ⟨taken, htaken, hnot⟩ := hf c.advance b c' hrun
  have hbehind : rest = taken ++ c'.rest := by rw [← htaken, hadvance]
  refine ⟨c.current, taken, by rw [hrest, hbehind], ?_⟩
  intro t ht
  rcases List.mem_cons.mp ht with rfl | ht
  · exact hc ▸ hk
  · exact hnot t ht

section Productions

variable (names : Names)

/-- The productions of the grammar and the steps that they are made of. -/
inductive Production : {α : Type} → Parse α → Prop
  | look : Production look
  | kind : Production kind
  | take : Production take
  | eat (s : Symbol) : Production (eat s)
  | eatKeyword (k : Keyword) : Production (eatKeyword k)
  | expect (s : Symbol) : Production (expect s)
  | expectKeyword (k : Keyword) : Production (expectKeyword k)
  | identifier : Production identifier
  | spanFrom (start : Span) : Production (spanFrom start)
  | separated {α : Type} {item : Parse α} (h : Production item) (fuel : Nat) :
      Production (separated item fuel)
  | upTo {α : Type} {item : Parse α} (stop : Kind) (h : Production item) (fuel : Nat) :
      Production (upTo stop item fuel)
  | arraySuffix (base : Ty) : Production (arraySuffix base)
  | type : Production (type names)
  | atDeclaration : Production (atDeclaration names)
  | checked {α : Type} (result : Checked α) : Production (checked result)
  | attributeArgument : Production attributeArgument
  | oneAttribute (fuel : Nat) : Production (oneAttribute fuel)
  | attributeGroups (fuel : Nat) : Production (attributeGroups fuel)
  | attributes (fuel : Nat) : Production (attributes fuel)
  | arguments {inner : Parse Expr} (h : Production inner) (fuel : Nat) :
      Production (arguments inner fuel)
  | named {inner : Parse Expr} (h : Production inner) (fuel : Nat) (t : Token) (name : String) :
      Production (named names inner fuel t name)
  | primary {inner : Parse Expr} (h : Production inner) (fuel : Nat) :
      Production (primary names inner fuel)
  | suffixes {inner : Parse Expr} (h : Production inner) (fuel : Nat) (e : Expr) :
      Production (suffixes inner fuel e)
  | unary {operand : Parse Expr} (h : Production operand) (fuel : Nat) :
      Production (unary operand fuel)
  | climb {operand : Parse Expr} (h : Production operand) (fuel : Nat) (min : Precedence)
      (left : Expr) : Production (climb operand fuel min left)
  | binary {operand : Parse Expr} (h : Production operand) (fuel : Nat) (min : Precedence) :
      Production (binary operand fuel min)
  | ternary {condition inner : Parse Expr} (hc : Production condition) (h : Production inner)
      (fuel : Nat) : Production (ternary condition inner fuel)
  | assignment {target : Parse Expr} (h : Production target) (fuel : Nat) :
      Production (assignment target fuel)
  | expression (fuel : Nat) : Production (expression names fuel)
  | condition (fuel : Nat) : Production (condition names fuel)
  | finishVariable (fuel : Nat) (start : Span) (isConst : Bool) (type : Ty) (name : String) :
      Production (finishVariable names fuel start isConst type name)
  | variableDeclaration (fuel : Nat) : Production (variableDeclaration names fuel)
  | expressionUnless (fuel : Nat) (close : Symbol) : Production (expressionUnless names fuel close)
  | braced {item : Parse Stmt} (h : Production item) (fuel : Nat) : Production (braced item fuel)
  | arm {inner : Parse Stmt} (h : Production inner) (fuel : Nat) :
      Production (arm names inner fuel)
  | moreArms {inner : Parse Stmt} (h : Production inner) (fuel n : Nat) :
      Production (moreArms names inner fuel n)
  | forInit (fuel : Nat) : Production (forInit names fuel)
  | forLoop {inner : Parse Stmt} (h : Production inner) (fuel : Nat) :
      Production (forLoop names inner fuel)
  | optionalBody {item : Parse Stmt} (h : Production item) (fuel : Nat) :
      Production (optionalBody (braced item fuel))
  | optional {item : Parse Stmt} (h : Production item) (fuel n : Nat) :
      Production (optional names (braced item fuel) fuel n)
  | statement (fuel : Nat) : Production (statement names fuel)
  | structField : Production (structField names)
  | struct (fuel : Nat) (start : Span) : Production (struct names fuel start)
  | entryHead (fuel : Nat) : Production (entryHead names fuel)
  | interfaceEntry (fuel : Nat) : Production (interfaceEntry names fuel)
  | externalEntry (fuel : Nat) : Production (externalEntry names fuel)
  | optionEntry (fuel : Nat) : Production (optionEntry names fuel)
  | constEntry (fuel : Nat) : Production (constEntry names fuel)
  | entries {α : Type} {entry : Parse α} (h : Production entry) (fuel : Nat) :
      Production (entries entry fuel)
  | parameter : Production (parameter names)
  | function (fuel : Nat) (as : Attributes) (returnType : Ty) (name : String) :
      Production (function names fuel as returnType name)
  | libraryParts (fuel : Nat) : Production (libraryParts fuel)
  | library (fuel : Nat) (start : Span) : Production (library fuel start)
  | item (fuel : Nat) : Production (item names fuel)
  | file (fuel : Nat) : Production (file names fuel)

end Productions

theorem alike_refl (names : Names) : names.Alike names := ⟨rfl, fun _ => rfl⟩

/-- A file is read by its tokens alone. -/
theorem local_file (names : Names) (fuel : Nat) : Local (file names fuel) (file names fuel) := by
  apply Local.look.bind
  intro start
  apply ((closes_item (alike_refl names) fuel).isLocal.upTo _ _).bind
  intro items
  apply Local.kind.bind
  intro k
  apply Local.ite
  · intro _
    split
    · exact .pure _
    · exact (still_finish _ _).isLocal
  · intro _
    exact .unexpected _

/-- One case for each production; those that are given others inherit from them. -/
theorem Production.isLocal (h : Production names m) : Local m m := by
  have halike := alike_refl names
  induction h with
  | look => exact .look
  | kind => exact .kind
  | take => exact .take
  | eat s => exact .eat s
  | eatKeyword k => exact .eatKeyword k
  | expect s => exact .expect s
  | expectKeyword k => exact .expectKeyword k
  | identifier => exact .identifier
  | spanFrom start => exact .spanFrom start
  | separated _ fuel ih => exact ih.separated fuel
  | upTo stop _ fuel ih => exact ih.upTo stop fuel
  | arraySuffix base => exact .arraySuffix base
  | type => exact .type halike
  | atDeclaration => exact .atDeclaration halike
  | checked result => exact .checked result
  | attributeArgument => exact local_attributeArgument
  | oneAttribute fuel => exact local_oneAttribute fuel
  | attributeGroups fuel => exact local_attributeGroups fuel
  | attributes fuel => exact local_attributes fuel
  | arguments _ fuel ih => exact local_arguments ih fuel
  | named _ fuel t name ih => exact local_named halike ih fuel t name
  | primary _ fuel ih => exact local_primary halike ih fuel
  | suffixes _ fuel e ih => exact local_suffixes ih fuel e
  | unary _ fuel ih => exact local_unary ih fuel
  | climb _ fuel min left ih => exact local_climb ih fuel min left
  | binary _ fuel min ih => exact local_binary ih fuel min
  | ternary _ _ fuel ihc ih => exact local_ternary ihc ih fuel
  | assignment _ fuel ih => exact local_assignment ih fuel
  | expression fuel => exact local_expression halike fuel
  | condition fuel => exact local_condition halike fuel
  | finishVariable fuel start isConst type name =>
      exact (closes_finishVariable halike fuel start isConst type name).isLocal
  | variableDeclaration fuel => exact (closes_variableDeclaration halike fuel).isLocal
  | expressionUnless fuel close => exact local_expressionUnless halike fuel close
  | braced _ fuel ih => exact (closes_braced ih fuel).isLocal
  | arm _ fuel ih => exact local_arm halike ih fuel
  | moreArms _ fuel n ih => exact local_moreArms halike ih fuel n
  | forInit fuel => exact local_forInit halike fuel
  | forLoop _ fuel ih => exact local_forLoop halike ih fuel
  | optionalBody _ fuel ih => exact (closes_optionalBody (closes_braced ih fuel)).isLocal
  | optional _ fuel n ih => exact (closes_optional halike (closes_braced ih fuel) fuel n).isLocal
  | statement fuel => exact local_statement halike fuel
  | structField => exact local_structField halike
  | struct fuel start => exact (closes_struct halike fuel start).isLocal
  | entryHead fuel => exact local_entryHead halike fuel
  | interfaceEntry fuel => exact local_interfaceEntry halike fuel
  | externalEntry fuel => exact local_externalEntry halike fuel
  | optionEntry fuel => exact local_optionEntry halike fuel
  | constEntry fuel => exact local_constEntry halike fuel
  | entries _ fuel ih => exact (closes_entries ih fuel).isLocal
  | parameter => exact local_parameter halike
  | function fuel as returnType name =>
      exact (closes_function halike fuel as returnType name).isLocal
  | libraryParts fuel => exact local_libraryParts fuel
  | library fuel start => exact (closes_library fuel start).isLocal
  | item fuel => exact (closes_item halike fuel).isLocal
  | file fuel => exact local_file names fuel

theorem Production.advances (h : Production names m) : Advances m := h.isLocal.advances

end Parse

end Shading
