import Shading.Proofs.Parse.Attribute

/-!
# Legible statements are read back

The tokens that a legible statement is printed with are read as it, before every token that
may stand after it. A type name starts a declaration exactly if a name follows its brackets;
in an expression a parenthesis follows them.
-/

namespace Shading

open Kind (parenthesized)

namespace Parse

variable {α β : Type} {names : Names}

section Rules

variable {f : Bool → Parse β} {before after : List Kind} {Q : β → Prop}

theorem Reads.atDeclaration {b : Bool}
    (hb : ∀ ts : List Token, ts.map Token.kind = before → names.startsDeclaration ts = b)
    (h : Reads (f b) before after Q) : Reads (Parse.atDeclaration names >>= f) before after Q := by
  intro c hc
  obtain ⟨x, c', hrun, hc', hx⟩ := h c hc
  refine ⟨x, c', StateT.bind_eq_ok_iff.mpr ⟨b, c, ?_, hrun⟩, hc', hx⟩
  rw [Parse.atDeclaration, hb c.rest hc]

end Rules

section Lookahead

variable {bs ks rest : List Kind} {dims : List ArraySize}

/-- What follows the brackets of a type decides. -/
theorem nameFollows_drop (h : Brackets bs dims) (ts : List Token)
    (hts : ts.map Token.kind = bs ++ rest) :
    Names.nameFollows ts = Names.nameFollows (ts.drop bs.length) := by
  induction h generalizing ts with
  | nil => rfl
  | implicit h ih =>
      match ts, hts with
      | ⟨open_, s, p⟩ :: ⟨close, s', p'⟩ :: ts, hts =>
        simp only [List.map_cons, List.cons_append, List.cons.injEq] at hts
        obtain ⟨rfl, rfl, hts⟩ := hts
        exact ih ts hts
  | @fixed k n ks dims hk h ih =>
      match ts, hts with
      | ⟨open_, s, p⟩ :: ⟨size, s', p'⟩ :: ⟨close, s'', p''⟩ :: ts, hts =>
        simp only [List.map_cons, List.cons_append, List.cons.injEq] at hts
        obtain ⟨rfl, rfl, rfl, htail⟩ := hts
        cases size with
        | int _ | uint _ => exact ih ts htail
        | float _ | ident _ | keyword _ | symbol _ | eof => cases hk

/-- The tokens behind a spelling begin with the one that follows it. -/
theorem drop_eq_cons {k : Kind} {ts : List Token} (hts : ts.map Token.kind = bs ++ k :: rest) :
    ∃ t tail, ts.drop bs.length = t :: tail ∧ t.kind = k := by
  have hdrop : (ts.drop bs.length).map Token.kind = k :: rest := by
    rw [List.map_drop, hts, List.drop_left]
  obtain ⟨t, tail, hcons, ht, -⟩ := List.map_eq_cons_iff.mp hdrop
  exact ⟨t, tail, hcons, ht⟩

/-- A type with a name after it starts a declaration. -/
theorem startsDeclaration_of_type {t : Ty} (ht : t.Legible names) {name : String}
    (ts : List Token) (hts : ts.map Token.kind = t.kinds ++ .ident name :: rest) :
    names.startsDeclaration ts = true := by
  obtain ⟨⟨first, s, p⟩, tail, rfl, hfirst, htail⟩ := List.map_eq_cons_iff.mp hts
  obtain rfl : first = .ident t.baseName := hfirst
  obtain ⟨⟨next, s', p'⟩, more, hdrop, hnext⟩ := drop_eq_cons htail
  obtain rfl : next = .ident name := hnext
  have hname : Names.nameFollows tail = true := by
    rw [nameFollows_drop (brackets_of_sizes ht.sizes) tail htail, hdrop]
    rfl
  simp [Names.startsDeclaration, ht.type, hname]

/-- A type name at the front of the tokens is the target of a cast. -/
def CastsFirst (names : Names) (ks : List Kind) : Prop :=
  ∀ name tail, ks = .ident name :: tail → names.type? name ≠ none →
    ∃ bs dims more, Brackets bs dims ∧ tail = bs ++ .symbol .lparen :: more

theorem CastsFirst.append (h : CastsFirst names ks) (hne : ks ≠ []) (ls : List Kind) :
    CastsFirst names (ks ++ ls) := by
  obtain ⟨k, tail, rfl⟩ := List.exists_cons_of_ne_nil hne
  rintro name all hks htype
  obtain ⟨rfl, rfl⟩ := List.cons.inj hks
  obtain ⟨bs, dims, more, hbrackets, rfl⟩ := h name tail rfl htype
  exact ⟨bs, dims, more ++ ls, hbrackets, by simp⟩

theorem castsFirst_of_untyped {name : String} (h : names.type? name = none) (ls : List Kind) :
    CastsFirst names (.ident name :: ls) := by
  rintro name' tail hks htype
  obtain ⟨hname, -⟩ := List.cons.inj hks
  cases hname
  exact absurd h htype

theorem castsFirst_of_ne_ident {k : Kind} (h : ∀ name, k ≠ .ident name) (ls : List Kind) :
    CastsFirst names (k :: ls) := by
  rintro name tail hks -
  exact absurd (List.cons.inj hks).1 (h name)

/-- Where an expression starts with a type, it is a cast. -/
theorem Derives.castsFirst {level : Precedence} {e : Expr} (h : Derives names level ks e) :
    CastsFirst names ks := by
  have hne {level : Precedence} {ks : List Kind} {e : Expr} (h : Derives names level ks e) :
      ks ≠ [] := List.ne_nil_of_length_pos h.length_pos
  induction h with
  | tighter h ih => exact ih
  | assign hop ht hv iht ihv => exact iht.append (hne ht) _
  | ternary hc ht hf ihc iht ihf => exact ihc.append (hne hc) _
  | binary hop hl hr ihl ihr => exact ihl.append (hne hl) _
  | index hb hp ihb ihp => exact ihb.append (hne hb) _
  | swizzle hb hname ih => exact ih.append (hne hb) _
  | field hb hname ih => exact ih.append (hne hb) _
  | unary hop h ih =>
      refine castsFirst_of_ne_ident (fun name heq => ?_) _
      subst heq
      cases hop
  | plus h ih => exact castsFirst_of_ne_ident (by simp) _
  | minInt => exact castsFirst_of_ne_ident (by simp) _
  | literal h =>
      refine castsFirst_of_ne_ident (fun name heq => ?_) _
      subst heq
      cases h
  | parens h ih => exact castsFirst_of_ne_ident (by simp) _
  | ref htype => exact castsFirst_of_untyped htype _
  | call htype hfunction hargs ih => exact castsFirst_of_untyped htype _
  | builtin htype hfunction hargs ih => exact castsFirst_of_untyped htype _
  | @cast name base bs dims parts htype hdims hargs ih =>
      rintro name' tail hks -
      obtain ⟨-, rfl⟩ := List.cons.inj hks
      exact ⟨bs, dims, commas (parts.map Prod.fst) ++ [.symbol .rparen], hdims, rfl⟩

/-- Without a name at the head there is no declaration. -/
theorem not_startsDeclaration_of_head {k : Kind} (hk : ∀ name, k ≠ .ident name)
    (ts : List Token) (hts : ts.map Token.kind = k :: ks) : names.startsDeclaration ts = false := by
  obtain ⟨⟨first, s, p⟩, tail, rfl, hfirst, -⟩ := List.map_eq_cons_iff.mp hts
  obtain rfl : first = k := hfirst
  unfold Names.startsDeclaration
  split
  · rename_i name _ _ _ heq
    cases heq
    exact absurd rfl (hk name)
  · rfl

theorem headD_variable (d : VariableDeclaration) (rest : List Kind) :
    (d.kinds ++ rest).headD .eof =
      if d.isConst then .keyword .const else .ident d.type.baseName := by
  obtain ⟨name, t, isConst, init⟩ := d
  cases isConst <;> rfl

/-- A variable declaration starts with its type unless the word `const` comes first. -/
theorem startsDeclaration_of_variable {d : VariableDeclaration} (hd : d.Legible names)
    (ts : List Token) (hts : ts.map Token.kind = d.kinds ++ rest) :
    names.startsDeclaration ts = !d.isConst := by
  cases hconst : d.isConst with
  | true =>
      simp only [VariableDeclaration.kinds, hconst, if_true, List.cons_append] at hts
      exact not_startsDeclaration_of_head (by simp) ts hts
  | false =>
      simp only [VariableDeclaration.kinds, hconst, Bool.false_eq_true, if_false, List.nil_append,
        List.append_assoc, List.cons_append] at hts
      exact startsDeclaration_of_type hd.declares.type ts hts

/-- An expression starts no declaration. -/
theorem not_startsDeclaration_of_derives {level : Precedence} {e : Expr}
    (h : Derives names level ks e) (ts : List Token) (hts : ts.map Token.kind = ks ++ rest) :
    names.startsDeclaration ts = false := by
  have hcasts := h.castsFirst.append (List.ne_nil_of_length_pos h.length_pos) rest
  rw [← hts] at hcasts
  unfold Names.startsDeclaration
  split
  · rename_i name s p tail
    cases htype : names.type? name with
    | none => rfl
    | some t =>
        obtain ⟨bs, dims, more, hbrackets, htail⟩ := hcasts name _ rfl (by simp [htype])
        obtain ⟨⟨next, s', p'⟩, after, hdrop, hnext⟩ := drop_eq_cons htail
        obtain rfl : next = .symbol .lparen := hnext
        rw [nameFollows_drop hbrackets tail htail, hdrop]
        rfl
  · rfl

end Lookahead

section Expressions

variable {fuel : Nat} {e : Expr}

/-- A type is read back where no dimension follows. -/
theorem reads_type {t : Ty} (ht : t.Legible names) {rest : List Kind}
    (hrest : rest.headD .eof ≠ .symbol .lbracket) :
    Reads (type names) (t.kinds ++ rest) rest (· = t) := by
  refine .look fun token htoken => ?_
  rw [show token.kind = .ident t.baseName from htoken]
  simp only [ht.type]
  refine .take (by simp) ((reads_arraySuffix (brackets_of_sizes ht.sizes) hrest t.base).mono ?_)
  exact fun u hu => hu.trans t.arrayOf_dims_base

/-- A type and a name. -/
theorem reads_declares {name : String} {t : Ty} (h : Declares names name t)
    {f : Ty → String × Span → Parse β} {rest after : List Kind} {Q : β → Prop}
    (hf : ∀ span, Reads (f t (name, span)) rest after Q) :
    Reads (do
      let t ← type names
      let p ← identifier
      f t p) (t.kinds ++ .ident name :: rest) after Q := by
  refine .bind (reads_type h.type (by simp)) ?_
  rintro _ rfl
  exact .identifier hf

/-- A legible expression before a token that does not continue it. -/
theorem reads_expression (he : e.Legible names) (hfuel : e.kinds.length ≤ fuel) {k : Kind}
    (hk : strength? k = none) (rest : List Kind) :
    Reads (expression names fuel) (e.kinds ++ k :: rest) (k :: rest) (·.erased = e.erased) :=
  readsAs_expression he.derives hfuel (k :: rest) (ends_of_strength?_eq_none hk _ _)

/-- A condition is read back with its parentheses. -/
theorem reads_condition (he : e.Legible names) (hfuel : e.kinds.length ≤ fuel) (rest : List Kind) :
    Reads (condition names fuel) (parenthesized e.kinds ++ rest) rest (·.erased = e.erased) := by
  simp only [parenthesized, List.cons_append, List.append_assoc, List.nil_append]
  refine .expect (.bind (reads_expression he hfuel rfl _) fun e' he' => ?_)
  exact .expect (.pure he')

/-- An expression starts with a token that may start one. -/
theorem startsExpression_head (he : e.Legible names) :
    ∃ k ks, e.kinds = k :: ks ∧ startsExpression k = true := by
  obtain ⟨k, ks, hks, hk, -⟩ := he.derives.eq_cons
  exact ⟨k, ks, hks, hk⟩

/-- An optional expression before the symbol that closes it. -/
theorem reads_expressionUnless {value : Option Expr}
    (hvalue : ∀ e, value = some e → e.Legible names)
    (hfuel : (Expr.kindsAfter [] value).length ≤ fuel) {close : Symbol}
    (hends : strength? (.symbol close) = none) (hstarts : startsExpression (.symbol close) = false)
    (rest : List Kind) :
    Reads (expressionUnless names fuel close)
      (Expr.kindsAfter [] value ++ .symbol close :: rest) (.symbol close :: rest)
      fun v => v.map Expr.erased = value.map Expr.erased := by
  refine .kind ?_
  cases value with
  | none =>
      simp only [Expr.kindsAfter, List.nil_append, List.headD_cons, if_true]
      exact .pure rfl
  | some e =>
      obtain ⟨k, ks, hks, hk⟩ := startsExpression_head (hvalue e rfl)
      have hne : k ≠ .symbol close := by
        rintro rfl
        exact absurd hk (by simp [hstarts])
      have hread := reads_expression (hvalue e rfl) hfuel hends rest
      rw [if_neg (by simpa [Expr.kindsAfter, hks] using hne)]
      exact .bind hread fun e' he' => .pure (by simp [he'])

theorem reads_finishVariable {d : VariableDeclaration} (hd : d.Legible names)
    (hfuel : (Expr.kindsAfter [.symbol .eq] d.initializer).length ≤ fuel) (start : Span)
    (rest : List Kind) :
    Reads (finishVariable names fuel start d.isConst d.type d.name)
      (Expr.kindsAfter [.symbol .eq] d.initializer ++ .symbol .semicolon :: rest) rest
      fun s => s.eraseSpans = .var .dummy d.erased := by
  have hend {init : Option Expr} (hinit : init.map Expr.erased = d.initializer.map Expr.erased) :
      Reads (do
        expect .semicolon
        return Stmt.var (← spanFrom start) ⟨d.name, d.type, d.isConst, init⟩)
        (.symbol .semicolon :: rest) rest fun s => s.eraseSpans = .var .dummy d.erased :=
    .expect (.spanFrom fun p => .pure (by simp [VariableDeclaration.erased, hinit]))
  cases hinit : d.initializer with
  | none => exact .eat_other (by simp [Expr.kindsAfter]) (hend (by simp [hinit]))
  | some e =>
      have hlength : e.kinds.length ≤ fuel := by
        simp only [hinit, Expr.kindsAfter, List.length_append] at hfuel
        omega
      refine .eat (.bind (reads_expression (hd.initializer e hinit) hlength rfl rest) ?_)
      exact fun e' he' => hend (by simp [hinit, he'])

/-- A declaration is read back, up to spans. -/
theorem reads_variableDeclaration {d : VariableDeclaration} (hd : d.Legible names)
    (hfuel : d.kinds.length ≤ fuel + 1) (rest : List Kind) :
    Reads (variableDeclaration names fuel) (d.kinds ++ rest) rest
      fun s => s.eraseSpans = .var .dummy d.erased := by
  have hlength : (Expr.kindsAfter [.symbol .eq] d.initializer).length ≤ fuel := by
    simp only [VariableDeclaration.kinds, List.length_append, List.length_cons] at hfuel
    omega
  have hrest (start : Span) : Reads (do
      let t ← type names
      let named ← identifier
      finishVariable names fuel start d.isConst t named.1)
      (d.type.kinds ++ .ident d.name ::
        (Expr.kindsAfter [.symbol .eq] d.initializer ++ .symbol .semicolon :: rest)) rest
      fun s => s.eraseSpans = .var .dummy d.erased :=
    reads_declares hd.declares fun _ => reads_finishVariable hd hlength start rest
  refine .look fun t ht => ?_
  cases hconst : d.isConst with
  | true =>
      rw [hconst] at hrest
      simp only [VariableDeclaration.kinds, hconst, if_true, List.cons_append, List.append_assoc,
        List.nil_append]
      exact .eatKeyword (hrest t.span)
  | false =>
      rw [hconst] at hrest
      simp only [VariableDeclaration.kinds, hconst, Bool.false_eq_true, if_false,
        List.cons_append, List.append_assoc, List.nil_append]
      exact .eatKeyword_other (by simp [Ty.kinds]) (hrest t.span)

end Expressions

end Parse

namespace Stmt

open Parse

variable {names : Names} {place : Place} {s : Stmt} {rest : List Kind}

/-- The tokens may stand after the statement. -/
structure EndsBefore (s : Stmt) (rest : List Kind) : Prop where
  otherwise : s.takesElse = true → rest.headD .eof ≠ .keyword .else
  semicolon : rest.headD .eof ≠ .symbol .semicolon

/-- Tokens that no statement starts with. -/
def closers : List Kind := [.eof, .symbol .rbrace, .symbol .semicolon, .keyword .else]

/-- What starts an expression closes nothing. -/
theorem notMem_closers {k : Kind} (h : startsExpression k = true) :
    k ∉ closers ∧ k ≠ .keyword .if := by
  refine ⟨?_, ?_⟩
  · intro hk
    simp only [closers, List.mem_cons, List.not_mem_nil, or_false] at hk
    rcases hk with rfl | rfl | rfl | rfl <;> cases h
  · rintro rfl
    cases h

/-- The first token of a legible statement. -/
theorem Legible.eq_cons (h : Legible names place s) :
    ∃ k ks, s.kinds = k :: ks ∧ k ∉ closers ∧ (s.isBranch = false → k ≠ .keyword .if) := by
  have hident (name : String) : Kind.ident name ∉ closers := by simp [closers]
  cases h with
  | @var _ p d hd =>
      obtain ⟨name, type, isConst, init⟩ := d
      cases isConst with
      | false => exact ⟨_, _, rfl, hident _, by simp⟩
      | true => exact ⟨_, _, rfl, by decide, by simp⟩
  | expr he =>
      obtain ⟨k, ks, hks, hk⟩ := startsExpression_head he
      exact ⟨k, _, by rw [kinds, hks, List.cons_append], (notMem_closers hk).1,
        fun _ => (notMem_closers hk).2⟩
  | branch hne =>
      obtain ⟨⟨c, b⟩, more, rfl⟩ := List.exists_cons_of_ne_nil hne
      exact ⟨_, _, rfl, by decide, by simp [isBranch]⟩
  | @function p f items hf =>
      obtain ⟨name, parameters, returnType, entry⟩ := f
      cases entry with
      | none => exact ⟨_, _, rfl, hident _, by simp⟩
      | some e => exact ⟨_, _, rfl, by decide, by simp⟩
  | _ => exact ⟨_, _, rfl, by decide, by simp⟩

/-- The parts of a legible optional block. -/
theorem Legible.of_optional {p : Span} {c : Expr} {b : Stmt} {o : Option Stmt}
    (h : Legible names place (.optional p c b o)) :
    c.Legible names ∧ ∃ t items, b = .block t items ∧ (∀ i ∈ items, Legible names place i) ∧
      (o = none ∨ (∃ u others, o = some (.block u others) ∧ ∀ i ∈ others, Legible names place i) ∨
        ∃ u d b' o', o = some (.optional u d b' o') ∧
          Legible names place (.optional u d b' o')) := by
  cases h with
  | optional hc hitems => exact ⟨hc, _, _, rfl, hitems, .inl rfl⟩
  | optionalBlock hc hitems hothers =>
      exact ⟨hc, _, _, rfl, hitems, .inr (.inl ⟨_, _, rfl, hothers⟩)⟩
  | optionalChain hc hitems hnext =>
      exact ⟨hc, _, _, rfl, hitems, .inr (.inr ⟨_, _, _, _, rfl, hnext⟩)⟩

/-- No statement is spelled by nothing. -/
theorem Legible.kinds_ne_nil (h : Legible names place s) : s.kinds ≠ [] := by
  obtain ⟨k, ks, hks, -⟩ := h.eq_cons
  simp [hks]

/-- Any statement may stand before other ones. -/
theorem endsBefore_items {items : List Stmt} (hitems : ∀ i ∈ items, Legible names place i)
    (hsemicolon : rest.headD .eof ≠ .symbol .semicolon)
    (helse : s.takesElse = true → rest.headD .eof ≠ .keyword .else) :
    s.EndsBefore (items.flatMap kinds ++ rest) := by
  cases items with
  | nil => exact ⟨helse, hsemicolon⟩
  | cons i items =>
      obtain ⟨k, ks, hks, hk, -⟩ := (hitems i (by simp)).eq_cons
      simp only [closers, List.mem_cons, List.not_mem_nil, or_false, not_or] at hk
      obtain ⟨-, -, hsemicolon, helse⟩ := hk
      exact ⟨fun _ => by simpa [hks] using helse, by simpa [hks] using hsemicolon⟩

end Stmt

namespace Parse

open Stmt (Place Legible EndsBefore LegibleInit kindsArms kindsElse kindsInit kindsList closesArms
  takesElseOption erasedArm)

variable {names : Names} {place : Place} {n : Nat}

theorem length_le_flatMap {α β : Type} {f : α → List β} {as : List α}
    (h : ∀ a ∈ as, f a ≠ []) : as.length ≤ (as.flatMap f).length := by
  induction as with
  | nil => exact Nat.le_refl _
  | cons a as ih =>
      have htail := ih fun b hb => h b (List.mem_cons_of_mem _ hb)
      have hpos := List.length_pos_iff.mpr (h a (by simp))
      simp only [List.flatMap_cons, List.length_append, List.length_cons]
      omega

/-- Every legible statement of at most so many tokens is read back from its own. -/
def Restores (names : Names) (place : Place) (n : Nat) (m : Parse Stmt) : Prop :=
  ∀ s, Legible names place s → s.kinds.length ≤ n → ∀ rest, s.EndsBefore rest →
    Reads m (s.kinds ++ rest) rest fun s' => s'.eraseSpans = s.eraseSpans

/-- Statements between braces. -/
theorem reads_braced {item : Parse Stmt} (hitem : Restores names place n item) {items : List Stmt}
    (hitems : ∀ i ∈ items, Legible names place i) (hlength : (kindsList items).length ≤ n)
    (rest : List Kind) :
    Reads (braced item n) (Kind.braced (kindsList items) ++ rest) rest
      fun is => is.map Stmt.eraseSpans = items.map Stmt.eraseSpans := by
  rw [Stmt.kindsList_eq_flatMap] at hlength ⊢
  have hcount := length_le_flatMap fun i hi => (hitems i hi).kinds_ne_nil
  have hlist : Reads (upTo (.symbol .rbrace) item (n + 1))
      (items.flatMap Stmt.kinds ++ .symbol .rbrace :: rest) (.symbol .rbrace :: rest)
      fun is => is.map Stmt.eraseSpans = items.map Stmt.eraseSpans := by
    refine reads_upTo (.inl rfl) (by omega) ?_ ?_
    · intro i hi
      obtain ⟨k, ks, hks, hk, -⟩ := (hitems i hi).eq_cons
      simp only [Stmt.closers, List.mem_cons, List.not_mem_nil, or_false, not_or] at hk
      exact ⟨k, ks, hks, hk.2.1, hk.1⟩
    · rintro xs i ys rfl
      refine hitem i (hitems i (by simp)) ?_ _ ?_
      · simp only [List.flatMap_append, List.flatMap_cons, List.length_append] at hlength
        omega
      · exact Stmt.endsBefore_items (fun j hj => hitems j (by simp [hj])) (by simp) (by simp)
  simp only [Kind.braced, List.cons_append, List.append_assoc, List.nil_append]
  exact .expect (.bind hlist fun is his => .expect (.pure his))

section Optional

variable {items : Parse (List Stmt)} {fuel : Nat}
  (hitems : ∀ is : List Stmt, (∀ i ∈ is, Legible names place i) → (kindsList is).length ≤ fuel →
    ∀ rest, Reads items (Kind.braced (kindsList is) ++ rest) rest
      fun xs => xs.map Stmt.eraseSpans = is.map Stmt.eraseSpans)
include hitems

theorem reads_optionalBody (t : Span) {is : List Stmt} (his : ∀ i ∈ is, Legible names place i)
    (hlength : (kindsList is).length ≤ fuel) (rest : List Kind) :
    Reads (optionalBody items) ((Stmt.block t is).kinds ++ rest) rest
      fun s => s.eraseSpans = (Stmt.block t is).eraseSpans :=
  .look fun _ _ => .bind (hitems is his hlength rest) fun _ hxs => .spanFrom fun _ =>
    .pure (by simp [hxs])

/-- An optional block and the chain of the ones after it. -/
theorem reads_optional {count : Nat} {s : Span} {c : Expr} {b : Stmt} {o : Option Stmt}
    (h : Legible names place (.optional s c b o))
    (hfuel : (Stmt.optional s c b o).kinds.length ≤ fuel + 1)
    (hcount : (Stmt.optional s c b o).kinds.length ≤ count + 1) (rest : List Kind)
    (hrest : (Stmt.optional s c b o).EndsBefore rest) :
    Reads (optional names items fuel count) ((Stmt.optional s c b o).kinds ++ rest) rest
      fun s' => s'.eraseSpans = (Stmt.optional s c b o).eraseSpans := by
  induction count generalizing s c b o with
  | zero =>
      simp only [Stmt.kinds, parenthesized, List.length_cons, List.length_append] at hcount
      omega
  | succ count ih =>
      obtain ⟨hc, t, is, rfl, his, hotherwise⟩ := h.of_optional
      simp only [Stmt.kinds, parenthesized, Kind.braced, List.length_cons, List.length_append,
        List.length_nil] at hfuel hcount
      have hend (start : Span) {c' : Expr} {b' : Stmt} {o' : Option Stmt}
          (hc' : c'.erased = c.erased) (hb' : b'.eraseSpans = (Stmt.block t is).eraseSpans)
          (ho' : o'.map Stmt.eraseSpans = o.map Stmt.eraseSpans) : Reads (do
            return Stmt.optional (← spanFrom start) c' b' o') rest rest
            fun s' => s'.eraseSpans = (Stmt.optional s c (.block t is) o).eraseSpans :=
        .spanFrom fun p => .pure (by simp only [Stmt.erased_optional, hc', hb', ho'])
      simp only [Stmt.kinds, List.cons_append, List.append_assoc]
      refine .look fun start _ => .expectKeyword ?_
      refine .bind (reads_condition hc (by omega) _) fun c' hc' => ?_
      refine .bind (reads_optionalBody hitems t his (by omega) _) fun b' hb' => ?_
      rcases hotherwise with rfl | ⟨u, others, rfl, hothers⟩ | ⟨u, d, b, o, rfl, hnext⟩
      · exact .eatKeyword_other (hrest.otherwise rfl) (hend start.span hc' hb' rfl)
      · simp only [kindsElse, Stmt.kinds, Kind.braced, List.length_cons, List.length_append,
          List.length_nil] at hfuel
        refine .eatKeyword (.kind ?_)
        rw [if_neg (by simp [Stmt.kinds, Kind.braced])]
        refine .bind (reads_optionalBody hitems u hothers (by omega) rest) fun o' ho' => ?_
        exact hend start.span hc' hb' (by simp [ho'])
      · simp only [kindsElse, List.length_cons] at hfuel hcount
        refine .eatKeyword (.kind ?_)
        rw [if_pos (by simp [Stmt.kinds])]
        refine .bind (ih hnext (by omega) (by omega) ⟨hrest.otherwise, hrest.semicolon⟩) ?_
        exact fun o' ho' => hend start.span hc' hb' (by simp only [Option.map_some, ho'])

end Optional

section Statements

variable {inner : Parse Stmt} {fuel : Nat} (hinner : Restores names .body fuel inner)
include hinner

/-- An arm is read back where no `else` follows that its body could take. -/
theorem reads_arm {c : Expr} {b : Stmt} (hc : c.Legible names) (hb : Legible names .body b)
    (hlength : (parenthesized c.kinds ++ b.kinds).length ≤ fuel) {rest : List Kind}
    (hrest : b.EndsBefore rest) :
    Reads (arm names inner fuel) (parenthesized c.kinds ++ (b.kinds ++ rest)) rest
      fun a => erasedArm a = erasedArm (c, b) := by
  simp only [parenthesized, List.length_append, List.length_cons] at hlength
  refine .bind (reads_condition hc (by omega) _) fun c' hc' => ?_
  refine .bind (hinner b hb (by omega) rest hrest) fun b' hb' => .pure ?_
  simp only [erasedArm, hc', hb']

omit hinner in
/-- The body of an arm ends before what follows it in the branch. -/
theorem endsBefore_arm {b : Stmt} {arms : List (Expr × Stmt)} {o : Option Stmt}
    {rest : List Kind}
    (hcloses : arms ≠ [] ∨ o.isSome = true → b.takesElse = false)
    (hotherwise : takesElseOption o = true → rest.headD .eof ≠ .keyword .else)
    (hsemicolon : rest.headD .eof ≠ .symbol .semicolon) :
    b.EndsBefore (kindsArms [.keyword .else, .keyword .if] arms ++ (kindsElse o ++ rest)) := by
  have hclosed (h : arms ≠ [] ∨ o.isSome = true) {tail : List Kind} :
      b.EndsBefore (.keyword .else :: tail) :=
    ⟨fun htakes => absurd htakes (by simp [hcloses h]), by simp⟩
  cases arms with
  | cons a arms => exact hclosed (.inl (by simp))
  | nil =>
      cases o with
      | some s => exact hclosed (.inr rfl)
      | none => exact ⟨fun _ => hotherwise rfl, hsemicolon⟩

/-- The arms of a branch after its first one, and its last alternative. -/
theorem reads_moreArms {arms : List (Expr × Stmt)} {o : Option Stmt}
    (hconditions : ∀ a ∈ arms, a.1.Legible names) (hbodies : ∀ a ∈ arms, Legible names .body a.2)
    (hcloses : closesArms o.isSome arms) (hlast : ∀ s, o = some s → Legible names .body s)
    (hform : ∀ s, o = some s → s.isBranch = false)
    (hfuel : (kindsArms [.keyword .else, .keyword .if] arms ++ kindsElse o).length ≤ fuel)
    {m : Nat}
    (hcount : (kindsArms [.keyword .else, .keyword .if] arms ++ kindsElse o).length ≤ m)
    {rest : List Kind} (hotherwise : takesElseOption o = true → rest.headD .eof ≠ .keyword .else)
    (hsemicolon : rest.headD .eof ≠ .symbol .semicolon) :
    Reads (moreArms names inner fuel (m + 1))
      (kindsArms [.keyword .else, .keyword .if] arms ++ (kindsElse o ++ rest)) rest
      fun p => p.1.map erasedArm = arms.map erasedArm ∧
        p.2.map Stmt.eraseSpans = o.map Stmt.eraseSpans := by
  induction arms generalizing m with
  | nil =>
      cases o with
      | none => exact .eatKeyword_other (hotherwise rfl) (.pure ⟨rfl, rfl⟩)
      | some s =>
          simp only [kindsArms, kindsElse, List.nil_append, List.length_cons] at hfuel
          have hs := hlast s rfl
          obtain ⟨k, ks, hks, -, hif⟩ := hs.eq_cons
          have hhead : (s.kinds ++ rest).headD .eof ≠ .keyword .if := by
            simpa [hks] using hif (hform s rfl)
          refine .eatKeyword (.eatKeyword_other hhead ?_)
          refine .bind (hinner s hs (by omega) rest ⟨hotherwise, hsemicolon⟩) fun s' hs' => .pure ?_
          simp [hs']
  | cons a arms ih =>
      obtain ⟨c, b⟩ := a
      simp only [kindsArms, List.cons_append, List.nil_append, List.length_cons,
        List.length_append] at hfuel hcount
      obtain ⟨m, rfl⟩ : ∃ n, m = n + 1 := ⟨m - 1, by omega⟩
      have hends := endsBefore_arm hcloses.1 hotherwise hsemicolon
      have harm := reads_arm hinner (hconditions (c, b) (by simp)) (hbodies (c, b) (by simp))
        (by simp only [List.length_append]; omega) hends
      have hmore := ih (fun a ha => hconditions a (List.mem_cons_of_mem _ ha))
        (fun a ha => hbodies a (List.mem_cons_of_mem _ ha)) hcloses.2
        (by simp only [List.length_append]; omega) (m := m)
        (by simp only [List.length_append]; omega)
      simp only [kindsArms, List.cons_append, List.nil_append, List.append_assoc]
      refine .eatKeyword (.eatKeyword (.bind harm fun a' ha' => .bind hmore fun p hp => .pure ?_))
      exact ⟨by simp [ha', hp.1], hp.2⟩

/-- A branch after its word. -/
theorem reads_branch (start : Span) {p : Span} {arms : List (Expr × Stmt)} {o : Option Stmt}
    (h : Legible names .body (.branch p arms o))
    (hlength : (Stmt.branch p arms o).kinds.length ≤ fuel + 1) {rest : List Kind}
    (hrest : (Stmt.branch p arms o).EndsBefore rest) :
    Reads (do
      take
      let first ← arm names inner fuel
      let (rest, otherwise) ← moreArms names inner fuel (fuel + 1)
      return Stmt.branch (← spanFrom start) (first :: rest) otherwise)
      ((Stmt.branch p arms o).kinds ++ rest) rest
      fun s => s.eraseSpans = (Stmt.branch p arms o).eraseSpans := by
  cases h with
  | branch hne hconditions hbodies hcloses hlast hform =>
      obtain ⟨⟨c, b⟩, arms, rfl⟩ := List.exists_cons_of_ne_nil hne
      simp only [Stmt.kinds, kindsArms, List.cons_append, List.nil_append, List.length_cons,
        List.length_append] at hlength
      have hends := endsBefore_arm hcloses.1 hrest.otherwise hrest.semicolon
      have harm := reads_arm hinner (hconditions (c, b) (by simp)) (hbodies (c, b) (by simp))
        (by simp only [List.length_append]; omega) hends
      have hmore := reads_moreArms hinner (fun a ha => hconditions a (List.mem_cons_of_mem _ ha))
        (fun a ha => hbodies a (List.mem_cons_of_mem _ ha)) hcloses.2 hlast hform
        (by simp only [List.length_append]; omega) (m := fuel)
        (by simp only [List.length_append]; omega) hrest.otherwise hrest.semicolon
      simp only [Stmt.kinds, kindsArms, List.cons_append, List.nil_append, List.append_assoc]
      refine .take (by simp) (.bind harm fun a ha => .bind hmore fun q hq => .spanFrom fun s => ?_)
      exact .pure (by simp [ha, hq.1, hq.2])

omit hinner in
/-- The first clause of a `for` and its semicolon. -/
theorem reads_forInit {init : Option Stmt} (hinit : LegibleInit names init)
    (hfuel : (kindsInit init).length ≤ fuel) (rest : List Kind) :
    Reads (forInit names fuel) (kindsInit init ++ rest) rest
      fun s => s.map Stmt.eraseSpans = init.map Stmt.eraseSpans := by
  cases hinit with
  | none => exact .eat (.pure rfl)
  | @var s d hd =>
      have hread : Reads (do return some (← variableDeclaration names fuel)) (d.kinds ++ rest) rest
          fun x => x.map Stmt.eraseSpans = some (.var .dummy d.erased) :=
        .bind (reads_variableDeclaration hd (Nat.le_succ_of_le hfuel) rest) fun v hv =>
          .pure (by simp [hv])
      simp only [kindsInit, Stmt.kinds, Option.map_some, Stmt.erased_var]
      have hhead : (d.kinds ++ rest).headD .eof =
          if d.isConst then .keyword .const else .ident d.type.baseName := headD_variable d rest
      refine .eat_other ?_ (.kind (.atDeclaration (startsDeclaration_of_variable hd) ?_))
      · rw [hhead]
        split <;> simp
      · rw [if_pos (by rw [hhead]; cases d.isConst <;> simp)]
        exact hread
  | @expr s e he =>
      simp only [kindsInit, Stmt.kinds, List.length_append] at hfuel
      simp only [kindsInit, Stmt.kinds, List.append_assoc, List.cons_append, List.nil_append,
        Option.map_some, Stmt.erased_expr]
      obtain ⟨k, ks, hks, hk⟩ := startsExpression_head he
      have hhead : ∀ tail, (e.kinds ++ tail).headD .eof = k := by simp [hks]
      have hlength : e.kinds.length ≤ fuel := by omega
      have hread := reads_expression he hlength (k := .symbol .semicolon) rfl rest
      refine .eat_other ?_ (.kind (.atDeclaration (not_startsDeclaration_of_derives he.derives) ?_))
      · rw [hhead]
        rintro rfl
        cases hk
      · rw [hhead, if_neg (by
          rintro (rfl | h)
          · exact absurd hk (by decide)
          · exact absurd h (by decide))]
        refine .look fun start _ => .bind hread fun e' he' => .expect (.spanFrom fun p => .pure ?_)
        simp [he']

/-- A `for` loop. -/
theorem reads_forLoop {p : Span} {init : Option Stmt} {condition step : Option Expr} {b : Stmt}
    (h : Legible names .body (.forLoop p init condition step b))
    (hlength : (Stmt.forLoop p init condition step b).kinds.length ≤ fuel + 1) {rest : List Kind}
    (hrest : (Stmt.forLoop p init condition step b).EndsBefore rest) :
    Reads (forLoop names inner fuel) ((Stmt.forLoop p init condition step b).kinds ++ rest) rest
      fun s => s.eraseSpans = (Stmt.forLoop p init condition step b).eraseSpans := by
  cases h with
  | forLoop hinit hcondition hstep hb =>
      simp only [Stmt.kinds, List.length_cons, List.length_append] at hlength
      simp only [Stmt.kinds, List.cons_append, List.append_assoc]
      refine .look fun start _ => .take (by simp) (.expect ?_)
      refine .bind (reads_forInit hinit (by omega) _) fun init' hinit' => ?_
      refine .bind (reads_expressionUnless hcondition (by omega) rfl rfl _) fun c' hc' => .expect ?_
      refine .bind (reads_expressionUnless hstep (by omega) rfl rfl _) fun s' hs' => .expect ?_
      refine .bind (hinner b hb (by omega) rest ⟨hrest.otherwise, hrest.semicolon⟩) fun b' hb' => ?_
      exact .spanFrom fun q => .pure (by simp only [Stmt.erased_forLoop, hinit', hc', hs', hb'])

/-- A `while` loop after its word. -/
theorem reads_whileLoop (start : Span) {p : Span} {c : Expr} {b : Stmt}
    (h : Legible names .body (.whileLoop p c b))
    (hlength : (Stmt.whileLoop p c b).kinds.length ≤ fuel + 1) {rest : List Kind}
    (hrest : (Stmt.whileLoop p c b).EndsBefore rest) :
    Reads (do
      take
      let c ← condition names fuel
      let body ← inner
      return Stmt.whileLoop (← spanFrom start) c body)
      ((Stmt.whileLoop p c b).kinds ++ rest) rest
      fun s => s.eraseSpans = (Stmt.whileLoop p c b).eraseSpans := by
  cases h with
  | whileLoop hc hb =>
      simp only [Stmt.kinds, parenthesized, List.length_cons, List.length_append] at hlength
      simp only [Stmt.kinds, List.cons_append, List.append_assoc]
      refine .take (by simp) (.bind (reads_condition hc (by omega) _) fun c' hc' => ?_)
      refine .bind (hinner b hb (by omega) rest ⟨hrest.otherwise, hrest.semicolon⟩) fun b' hb' => ?_
      exact .spanFrom fun q => .pure (by simp only [Stmt.erased_whileLoop, hc', hb'])

/-- A `do` loop after its word. -/
theorem reads_doWhile (start : Span) {p : Span} {b : Stmt} {c : Expr}
    (h : Legible names .body (.doWhile p b c))
    (hlength : (Stmt.doWhile p b c).kinds.length ≤ fuel + 1) (rest : List Kind) :
    Reads (do
      take
      let body ← inner
      expectKeyword .while
      let c ← condition names fuel
      expect .semicolon
      return Stmt.doWhile (← spanFrom start) body c)
      ((Stmt.doWhile p b c).kinds ++ rest) rest
      fun s => s.eraseSpans = (Stmt.doWhile p b c).eraseSpans := by
  cases h with
  | doWhile hb hc =>
      simp only [Stmt.kinds, parenthesized, List.length_cons, List.length_append] at hlength
      simp only [Stmt.kinds, List.cons_append, List.append_assoc, List.nil_append]
      refine .take (by simp) (.bind (hinner b hb (by omega) _ ⟨by simp, by simp⟩) fun b' hb' => ?_)
      refine .expectKeyword (.bind (reads_condition hc (by omega) _) fun c' hc' => .expect ?_)
      exact .spanFrom fun q => .pure (by simp only [Stmt.erased_doWhile, hc', hb'])

omit hinner in
/-- A `return` after its word. -/
theorem reads_ret (start : Span) {p : Span} {value : Option Expr}
    (h : Legible names .body (.ret p value))
    (hlength : (Stmt.ret p value).kinds.length ≤ fuel + 1) (rest : List Kind) :
    Reads (do
      take
      let value ← expressionUnless names fuel .semicolon
      expect .semicolon
      return Stmt.ret (← spanFrom start) value)
      ((Stmt.ret p value).kinds ++ rest) rest
      fun s => s.eraseSpans = (Stmt.ret p value).eraseSpans := by
  cases h with
  | ret hvalue =>
      simp only [Stmt.kinds, List.length_cons, List.length_append] at hlength
      simp only [Stmt.kinds, List.cons_append, List.append_assoc, List.nil_append]
      refine .take (by simp) (.bind (reads_expressionUnless hvalue (by omega) rfl rfl rest) ?_)
      exact fun v hv => .expect (.spanFrom fun q => .pure (by simp [hv]))

omit hinner in
/-- An expression and its semicolon, which no declaration starts as. -/
theorem reads_expressionStatement (start : Span) {p : Span} {e : Expr} (he : e.Legible names)
    (hlength : (Stmt.expr p e).kinds.length ≤ fuel + 1) (rest : List Kind) :
    Reads (do
      if ← atDeclaration names then variableDeclaration names fuel
      else
        let e ← expression names fuel
        expect .semicolon
        return Stmt.expr (← spanFrom start) e)
      ((Stmt.expr p e).kinds ++ rest) rest
      fun s => s.eraseSpans = (Stmt.expr p e).eraseSpans := by
  simp only [Stmt.kinds, List.length_append, List.length_cons] at hlength
  simp only [Stmt.kinds, List.append_assoc, List.cons_append, List.nil_append, Stmt.erased_expr]
  have hread := reads_expression he (Nat.le_of_succ_le_succ hlength)
    (k := .symbol .semicolon) rfl rest
  refine .atDeclaration (not_startsDeclaration_of_derives he.derives) ?_
  exact .bind hread fun e' he' => .expect (.spanFrom fun q => .pure (by simp [he']))

end Statements

/-- Every legible statement is read back from the tokens it is printed with. -/
theorem restores_statement (fuel : Nat) : Restores names .body fuel (statement names fuel) := by
  induction fuel with
  | zero =>
      intro s hs hlength
      exact absurd (List.length_eq_zero_iff.mp (Nat.le_zero.mp hlength)) hs.kinds_ne_nil
  | succ fuel ih =>
      intro s hs hlength rest hrest
      have hitems (is : List Stmt) (his : ∀ i ∈ is, Legible names .body i)
          (hlength : (kindsList is).length ≤ fuel) (rest : List Kind) :=
        reads_braced ih his hlength rest
      -- The parser branches over the first token, and the tokens of a statement start with the
      -- one that leads to its own branch.
      refine .look fun start hstart => ?_
      obtain ⟨first, sp, position⟩ := start
      have hfirst : first = (s.kinds ++ rest).headD .eof := hstart
      cases s with
      | block p is =>
          obtain rfl : first = .symbol .lbrace := hfirst
          cases hs with
          | block his =>
              simp only [Stmt.kinds, Kind.braced, List.length_cons, List.length_append] at hlength
              refine .bind (hitems is his (by omega) rest) fun xs hxs => .spanFrom fun q => .pure ?_
              simp [hxs]
      | branch p arms o =>
          cases arms with
          | nil =>
              cases hs with
              | branch hne => exact absurd rfl hne
          | cons a arms =>
              obtain rfl : first = .keyword .if := hfirst
              exact reads_branch ih sp hs hlength hrest
      | forLoop p init condition step b =>
          obtain rfl : first = .keyword .for := hfirst
          exact reads_forLoop ih hs hlength hrest
      | whileLoop p c b =>
          obtain rfl : first = .keyword .while := hfirst
          exact reads_whileLoop ih sp hs hlength hrest
      | doWhile p b c =>
          obtain rfl : first = .keyword .do := hfirst
          exact reads_doWhile ih sp hs hlength rest
      | leaveLoop p =>
          obtain rfl : first = .keyword .break := hfirst
          exact .take (by simp) (.expect (.spanFrom fun q => .pure rfl))
      | nextRound p =>
          obtain rfl : first = .keyword .continue := hfirst
          exact .take (by simp) (.expect (.spanFrom fun q => .pure rfl))
      | discard p =>
          obtain rfl : first = .keyword .discard := hfirst
          exact .take (by simp) (.expect (.spanFrom fun q => .pure rfl))
      | ret p value =>
          obtain rfl : first = .keyword .return := hfirst
          exact reads_ret sp hs hlength rest
      | optional p c b o =>
          obtain rfl : first = .keyword .optional := hfirst
          exact reads_optional hitems hs hlength hlength rest hrest
      | var p d =>
          cases hs with
          | var hd =>
              have hread := reads_variableDeclaration hd hlength rest
              rw [Stmt.kinds, headD_variable] at hfirst
              simp only [Stmt.kinds, Stmt.erased_var]
              cases hconst : d.isConst with
              | true =>
                  obtain rfl : first = .keyword .const := by simpa [hconst] using hfirst
                  exact hread
              | false =>
                  obtain rfl : first = .ident d.type.baseName := by simpa [hconst] using hfirst
                  refine .atDeclaration (startsDeclaration_of_variable hd) ?_
                  rw [hconst]
                  exact hread
      | expr p e =>
          cases hs with
          | expr he =>
              have hdefault := reads_expressionStatement sp (p := p) he hlength rest
              obtain ⟨k, ks, hks, hk⟩ := startsExpression_head he
              obtain rfl : first = k := by simpa [Stmt.kinds, hks] using hfirst
              -- No token that an expression starts with leads to another branch.
              cases first with
              | symbol t =>
                  cases t with
                  | lbrace => cases hk
                  | _ => exact hdefault
              | keyword w =>
                  cases w with
                  | true | false => exact hdefault
                  | _ => cases hk
              | _ => exact hdefault
      | struct _ _ | inputs _ _ | outputs _ _ | externals _ _ | options _ _ | consts _ _
      | function _ _ _ | library _ _ => cases hs

end Parse

end Shading
