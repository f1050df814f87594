import Shading.Proofs.Parse.Advances
import Shading.Proofs.Parse.Reads

/-!
# Derived expressions are read

Tokens that derive an expression are read as it, if the token after them does not continue
it. By induction on the derivation: a loop of the parser is followed up to the state in which
it holds the tree derived so far, and it leaves that state when the tokens end.
-/

namespace Shading

namespace Parse

/-- The strength of the expressions that a token continues. -/
def strength? (k : Kind) : Option Precedence :=
  match k with
  | .symbol .lparen => some .primary
  | .symbol .lbracket | .symbol .dot => some .postfixed
  | .symbol .question => some .ternary
  | _ =>
    match binaryOp? k, assignOp? k with
    | some op, _ => some op.precedence
    | none, some _ => some .assign
    | none, none => none

/-- The tokens do not continue an expression that is as strong as the level. -/
def Ends (level : Precedence) (rest : List Kind) : Prop :=
  ∀ p, strength? (rest.headD .eof) = some p → p < level

theorem Ends.mono {level level' : Precedence} {rest : List Kind} (h : Ends level rest)
    (hle : level ≤ level') : Ends level' rest :=
  fun p hp => Nat.lt_of_lt_of_le (h p hp) hle

/-- A token that is no operator ends every expression. -/
theorem ends_of_strength?_eq_none {k : Kind} (h : strength? k = none) (level : Precedence)
    (rest : List Kind) : Ends level (k :: rest) := by
  intro p hp
  simp [h] at hp

theorem strength?_of_binaryOp? {k : Kind} {op : BinaryOp} (h : binaryOp? k = some op) :
    strength? k = some op.precedence := by
  unfold binaryOp? at h
  split at h <;> cases h <;> rfl

theorem strength?_of_assignOp? {k : Kind} {op : AssignOp} (h : assignOp? k = some op) :
    strength? k = some .assign := by
  unfold assignOp? at h
  split at h <;> first | rfl | cases h

/-- An operator ends the operands that bind tighter than it. -/
theorem ends_cons {level p : Precedence} {k : Kind} (hk : strength? k = some p) (hp : p < level)
    (rest : List Kind) : Ends level (k :: rest) := by
  intro q hq
  obtain rfl := Option.some.inj (hk.symm.trans hq)
  exact hp

theorem lt_next_precedence (op : BinaryOp) : op.precedence < op.precedence.next := by
  cases op <;> decide

theorem Ends.noOperator {level : Precedence} {rest : List Kind} (h : Ends level rest) :
    NoOperator level rest :=
  fun _ hop => h _ (strength?_of_binaryOp? hop)

theorem le_next (level : Precedence) : level ≤ level.next := by
  cases level <;> decide

/-- How a token that starts a primary expression looks. -/
def startsPrimary (k : Kind) : Bool :=
  (literal? k).isSome ||
    match k with
    | .ident _ | .symbol .lparen => true
    | _ => false

/-- How a token that starts an expression looks. -/
def startsExpression (k : Kind) : Bool :=
  startsPrimary k || (unaryOp? k).isSome || k = .symbol .plus

variable {names : Names} {level : Precedence} {ks : List Kind} {e : Expr}

theorem startsPrimary_of_literal? {k : Kind} {c : Constant} (h : literal? k = some c) :
    startsPrimary k = true := by
  simp [startsPrimary, h]

/-- The first token of a derivation. -/
theorem Derives.eq_cons (h : Derives names level ks e) : ∃ k tail, ks = k :: tail ∧
    startsExpression k = true ∧ (.postfixed ≤ level → startsPrimary k = true) := by
  have hprimary {k : Kind} {tail : List Kind} {level : Precedence} (hk : startsPrimary k = true) :
      ∃ k' tail', k :: tail = k' :: tail' ∧ startsExpression k' = true ∧
        (.postfixed ≤ level → startsPrimary k' = true) :=
    ⟨k, tail, rfl, by simp [startsExpression, hk], fun _ => hk⟩
  induction h with
  | @tighter level ks e h ih =>
      obtain ⟨k, tail, rfl, hk, hstrong⟩ := ih
      exact ⟨k, tail, rfl, hk, fun hle => hstrong (Nat.le_trans hle (le_next level))⟩
  | assign hop ht hv iht ihv =>
      obtain ⟨k, tail, rfl, hk, -⟩ := iht
      exact ⟨k, _, rfl, hk, fun hle => absurd hle (by decide)⟩
  | ternary hc ht hf ihc iht ihf =>
      obtain ⟨k, tail, rfl, hk, -⟩ := ihc
      exact ⟨k, _, rfl, hk, fun hle => absurd hle (by decide)⟩
  | @binary _ op _ _ _ _ hop hl hr ihl ihr =>
      obtain ⟨k, tail, rfl, hk, -⟩ := ihl
      refine ⟨k, _, rfl, hk, fun hle => absurd hle ?_⟩
      cases op <;> decide
  | unary hop h ih =>
      exact ⟨_, _, rfl, by simp [startsExpression, hop], fun hle => absurd hle (by decide)⟩
  | plus h ih => exact ⟨_, _, rfl, rfl, fun hle => absurd hle (by decide)⟩
  | minInt => exact ⟨_, _, rfl, rfl, fun hle => absurd hle (by decide)⟩
  | index hb hp ihb ihp =>
      obtain ⟨k, tail, rfl, hk, hstrong⟩ := ihb
      exact ⟨k, _, rfl, hk, hstrong⟩
  | swizzle hb hname ih =>
      obtain ⟨k, tail, rfl, hk, hstrong⟩ := ih
      exact ⟨k, _, rfl, hk, hstrong⟩
  | field hb hname ih =>
      obtain ⟨k, tail, rfl, hk, hstrong⟩ := ih
      exact ⟨k, _, rfl, hk, hstrong⟩
  | literal h => exact hprimary (startsPrimary_of_literal? h)
  | parens h ih => exact hprimary rfl
  | ref htype => exact hprimary rfl
  | call htype hfunction hargs ih => exact hprimary rfl
  | builtin htype hfunction hargs ih => exact hprimary rfl
  | cast htype hdims hargs ih => exact hprimary rfl

/-- No expression is derived from nothing. -/
theorem Derives.length_pos (h : Derives names level ks e) : 0 < ks.length := by
  obtain ⟨k, tail, rfl, -⟩ := h.eq_cons
  simp

/-- The dimensions in brackets are read to the last one. -/
theorem dimensions_of_brackets {bs rest : List Kind} {dims : List ArraySize}
    (h : Brackets bs dims) (hrest : rest.headD .eof ≠ .symbol .lbracket) (previous : Span)
    (ts : List Token) (hts : ts.map Token.kind = bs ++ rest) :
    ∃ c, dimensions previous ts = .ok (dims, c) ∧ c.kinds = rest := by
  induction h generalizing previous ts with
  | nil =>
      refine ⟨⟨ts, previous⟩, ?_, hts⟩
      rw [dimensions]
      rintro bracket position rest' rfl
      rw [List.nil_append] at hts
      exact hrest (by simp [← hts])
  | implicit h ih =>
      obtain ⟨⟨_, s, p⟩, _, rfl, rfl, htail⟩ := List.map_eq_cons_iff.mp hts
      obtain ⟨⟨_, s', p'⟩, ts, rfl, rfl, hrest'⟩ := List.map_eq_cons_iff.mp htail
      obtain ⟨c, hrun, hc⟩ := ih s' ts hrest'
      exact ⟨c, by simp [dimensions, hrun, pure, Except.pure], hc⟩
  | @fixed k n ks dims hk h ih =>
      obtain ⟨⟨_, s, p⟩, _, rfl, rfl, htail⟩ := List.map_eq_cons_iff.mp hts
      obtain ⟨⟨kind, _, _⟩, _, rfl, rfl, htail'⟩ := List.map_eq_cons_iff.mp htail
      obtain ⟨⟨_, s', p'⟩, ts, rfl, rfl, hrest'⟩ := List.map_eq_cons_iff.mp htail'
      obtain ⟨c, hrun, hc⟩ := ih s' ts hrest'
      refine ⟨c, ?_, hc⟩
      cases kind with
      | int _ | uint _ => simp [dimensions, hk, hrun, pure, Except.pure]
      | float _ | ident _ | keyword _ | symbol _ | eof => cases hk

/-- Brackets that derive dimensions are read as them after a type name. -/
theorem reads_arraySuffix {bs rest : List Kind} {dims : List ArraySize} (h : Brackets bs dims)
    (hrest : rest.headD .eof ≠ .symbol .lbracket) (base : Ty) :
    Reads (arraySuffix base) (bs ++ rest) rest
      (· = dims.foldr (fun size t => .array t size) base) := by
  intro c hc
  obtain ⟨c', hrun, hc'⟩ := dimensions_of_brackets h hrest c.previous c.rest hc
  exact ⟨_, c', by simp [arraySuffix, hrun, pure, Except.pure], hc', rfl⟩

theorem headD_argumentList (parts : List (List Kind)) (rest : List Kind) :
    (argumentList parts ++ rest).headD .eof = .symbol .lparen := rfl

/-- An argument is no longer than the list it stands in. -/
theorem length_le_commas {part : List Kind} {parts : List (List Kind)} (h : part ∈ parts) :
    part.length ≤ (commas parts).length := by
  induction parts with
  | nil => cases h
  | cons p ps ih =>
      cases ps with
      | nil =>
          obtain rfl : part = p := by simpa using h
          exact Nat.le_refl _
      | cons q qs =>
          simp only [commas, List.length_append, List.length_cons]
          rcases List.mem_cons.mp h with rfl | h
          · omega
          · have := ih h
            omega

/-- There are no more arguments than tokens in the list. -/
theorem count_le_commas {parts : List (List Kind)} (h : ∀ p ∈ parts, 0 < p.length) :
    parts.length ≤ (commas parts).length := by
  induction parts with
  | nil => exact Nat.zero_le _
  | cons p ps ih =>
      have hp := h p (by simp)
      cases ps with
      | nil => exact hp
      | cons q qs =>
          have := ih fun r hr => h r (List.mem_cons_of_mem _ hr)
          simp only [commas, List.length_append, List.length_cons] at this ⊢
          omega

/-- The production reads the tokens as the tree, before whatever does not continue it at the
level. -/
def ReadsAs (m : Parse Expr) (level : Precedence) (ks : List Kind) (e : Expr) : Prop :=
  ∀ rest, Ends level rest → Reads m (ks ++ rest) rest fun e' => e'.erased = e

section Levels

variable {inner : Parse Expr} {fuel : Nat}
  (hinner : ∀ ks e, Derives names .assign ks e → ks.length ≤ fuel → ReadsAs inner .assign ks e)
include hinner

/-- Arguments in their parentheses. -/
theorem reads_arguments {parts : List (List Kind × Expr)}
    (hparts : ∀ p ∈ parts, Derives names .assign p.1 p.2)
    (hfuel : (argumentList (parts.map Prod.fst)).length ≤ fuel + 1) (rest : List Kind) :
    Reads (arguments inner fuel) (argumentList (parts.map Prod.fst) ++ rest) rest
      fun es => es.map Expr.erased = parts.map Prod.snd := by
  simp only [argumentList, List.length_append, List.length_cons, List.length_nil] at hfuel
  cases parts with
  | nil => exact .expect (.eat (.pure rfl))
  | cons p ps =>
      obtain ⟨k, tail, hk, hstart, -⟩ := (hparts p (by simp)).eq_cons
      have hcount : (p :: ps).length ≤ (commas ((p :: ps).map Prod.fst)).length := by
        have hpos : ∀ ks ∈ (p :: ps).map Prod.fst, 0 < ks.length := by
          intro ks hks
          obtain ⟨q, hq, rfl⟩ := List.mem_map.mp hks
          exact (hparts q hq).length_pos
        simpa using count_le_commas hpos
      have hread (q : List Kind × Expr) (hq : q ∈ p :: ps) : ReadsAs inner .assign q.1 q.2 := by
        have hlen := length_le_commas (List.mem_map_of_mem (f := Prod.fst) hq)
        exact hinner q.1 q.2 (hparts q hq) (by omega)
      have hlist : Reads (separated inner (fuel + 1))
          (commas ((p :: ps).map Prod.fst) ++ .symbol .rparen :: rest) (.symbol .rparen :: rest)
          fun es => es.map Expr.erased = (p :: ps).map Prod.snd := by
        refine reads_separated (by simp) (List.cons_ne_nil p ps) (by omega) ?_ ?_
        · exact fun q hq tail => hread q hq _ (ends_of_strength?_eq_none rfl _ _)
        · exact fun q hq => hread q hq _ (ends_of_strength?_eq_none rfl _ _)
      have hhead : (commas ((p :: ps).map Prod.fst) ++ .symbol .rparen :: rest).headD .eof
          ≠ .symbol .rparen := by
        have hne : k ≠ .symbol .rparen := by
          rintro rfl
          cases hstart
        cases ps <;> simpa [commas, hk] using hne
      simp only [argumentList, List.cons_append, List.append_assoc, List.nil_append]
      exact .expect (.eat_other hhead (.bind hlist fun es hes => .expect (.pure hes)))

omit hinner in
/-- A name that starts a constructor or a call, or stands for a variable. -/
theorem reads_primary_name {name : String} {tail : List Kind} {Q : Expr → Prop}
    {rest : List Kind}
    (h : ∀ t : Token, Reads (named names inner fuel t name) (.ident name :: tail) rest Q) :
    Reads (primary names inner fuel) (.ident name :: tail) rest Q := by
  refine .look fun t ht => ?_
  rw [show t.kind = .ident name from ht]
  exact h t

omit hinner in
/-- A literal is read as itself. The lemmas below do the same for every form of operand. -/
theorem reads_primary_literal {k : Kind} {c : Constant} (h : literal? k = some c) :
    ReadsAs (primary names inner fuel) .primary [k] (.constant .dummy c) := by
  intro rest _
  refine .look fun t ht => ?_
  rw [show t.kind = k from ht, h]
  exact .take (ne_eof_of_literal? h) (.pure rfl)

/-- An expression in parentheses is read by the recursion. -/
theorem reads_primary_parens (h : Derives names .assign ks e) (hfuel : ks.length ≤ fuel) :
    ReadsAs (primary names inner fuel) .primary (.symbol .lparen :: (ks ++ [.symbol .rparen]))
      e := by
  intro rest _
  refine .look fun t ht => ?_
  rw [show t.kind = .symbol .lparen from ht]
  have hread := hinner ks e h hfuel (.symbol .rparen :: rest) (ends_of_strength?_eq_none rfl _ _)
  simp only [List.cons_append, List.append_assoc, List.nil_append]
  exact .take (by simp) (.bind hread fun e' he => .expect (.pure he))

omit hinner in
theorem reads_primary_ref {name : String} (htype : names.type? name = none) :
    ReadsAs (primary names inner fuel) .primary [.ident name] (.ref .dummy name) := by
  intro rest hends
  rw [List.singleton_append]
  refine reads_primary_name fun t => ?_
  have hparen : rest.headD .eof ≠ .symbol .lparen := by
    intro hhead
    exact absurd (hends .primary (by rw [hhead]; rfl)) (by decide)
  simp only [named, htype]
  refine .take (by simp) (.kind ?_)
  rw [if_neg hparen]
  exact .pure rfl

/-- A call reads its arguments by the recursion. -/
theorem reads_primary_call {name : String} {parts : List (List Kind × Expr)}
    (htype : names.type? name = none) (hfunction : names.registry.function? name = none)
    (hparts : ∀ p ∈ parts, Derives names .assign p.1 p.2)
    (hfuel : (argumentList (parts.map Prod.fst)).length ≤ fuel + 1) :
    ReadsAs (primary names inner fuel) .primary (.ident name :: argumentList (parts.map Prod.fst))
      (.call .dummy name (parts.map Prod.snd)) := by
  intro rest _
  rw [List.cons_append]
  refine reads_primary_name fun t => ?_
  simp only [named, htype]
  refine .take (by simp) (.kind ?_)
  rw [if_pos (headD_argumentList _ rest)]
  refine .bind (reads_arguments hinner hparts hfuel rest) fun es hes => .spanFrom fun s => ?_
  simp only [hfunction]
  exact .pure (by simp [hes])

theorem reads_primary_builtin {name : String} {f : BuiltinFunction}
    {parts : List (List Kind × Expr)} (htype : names.type? name = none)
    (hfunction : names.registry.function? name = some f)
    (hparts : ∀ p ∈ parts, Derives names .assign p.1 p.2)
    (hfuel : (argumentList (parts.map Prod.fst)).length ≤ fuel + 1) :
    ReadsAs (primary names inner fuel) .primary (.ident name :: argumentList (parts.map Prod.fst))
      (.builtin .dummy f (parts.map Prod.snd)) := by
  intro rest _
  rw [List.cons_append]
  refine reads_primary_name fun t => ?_
  simp only [named, htype]
  refine .take (by simp) (.kind ?_)
  rw [if_pos (headD_argumentList _ rest)]
  refine .bind (reads_arguments hinner hparts hfuel rest) fun es hes => .spanFrom fun s => ?_
  simp only [hfunction]
  exact .pure (by simp [hes])

/-- A cast reads its type, its dimensions and its arguments. -/
theorem reads_primary_cast {name : String} {base : Ty} {bs : List Kind} {dims : List ArraySize}
    {parts : List (List Kind × Expr)} (htype : names.type? name = some base)
    (hdims : Brackets bs dims) (hparts : ∀ p ∈ parts, Derives names .assign p.1 p.2)
    (hfuel : (argumentList (parts.map Prod.fst)).length ≤ fuel + 1) :
    ReadsAs (primary names inner fuel) .primary
      (.ident name :: (bs ++ argumentList (parts.map Prod.fst)))
      (.cast .dummy (dims.foldr (fun size t => .array t size) base) (parts.map Prod.snd)) := by
  intro rest _
  rw [List.cons_append, List.append_assoc]
  refine reads_primary_name fun t => ?_
  simp only [named, htype]
  refine .take (by simp) (.bind (reads_arraySuffix hdims (by simp [argumentList]) base) ?_)
  rintro target rfl
  refine .kind ?_
  rw [if_pos (headD_argumentList _ rest)]
  refine .bind (reads_arguments hinner hparts hfuel rest) fun es hes => .spanFrom fun s => ?_
  exact .pure (by simp [hes])

omit hinner in
/-- The suffixes after an expression end where the tokens do not continue it. -/
theorem reads_suffixes_end {rest : List Kind} (hends : Ends .postfixed rest) (n : Nat) (e : Expr) :
    Reads (suffixes inner (n + 1) e) rest rest (· = e) := by
  refine .eat_other ?_ (.eat_other ?_ (.pure rfl))
  · intro hhead
    exact absurd (hends .postfixed (by rw [hhead]; rfl)) (by decide)
  · intro hhead
    exact absurd (hends .postfixed (by rw [hhead]; rfl)) (by decide)

omit hinner in
/-- The operators end where none follows that binds at least as tightly. -/
theorem reads_climb_end {operand : Parse Expr} {level : Precedence} {rest : List Kind}
    (hends : NoOperator level rest) (n : Nat) (e : Expr) :
    Reads (climb operand (n + 1) level e) rest rest (· = e) := by
  refine .kind ?_
  cases hop : binaryOp? (rest.headD .eof) with
  | none => exact .pure rfl
  | some op =>
      simp only [if_pos (hends op hop)]
      exact .pure rfl

end Levels

/-- The reader of postfixed expressions that an expression reader is built on. -/
def suffixed (names : Names) (inner : Parse Expr) (fuel : Nat) : Parse Expr := do
  suffixes inner (fuel + 1) (← primary names inner fuel)

/-- The reader of operands of binary operators. -/
def prefixed (names : Names) (inner : Parse Expr) (fuel : Nat) : Parse Expr :=
  unary (suffixed names inner fuel) (fuel + 1)

/-- The reader of conditions. -/
def conditioned (names : Names) (inner : Parse Expr) (fuel : Nat) : Parse Expr :=
  binary (prefixed names inner fuel) (fuel + 1) .or

theorem expression_succ (names : Names) (fuel : Nat) :
    expression names (fuel + 1) = assignment
      (ternary (conditioned names (expression names fuel) fuel)
      (expression names fuel) (fuel + 1)) (fuel + 1) := rfl

section Loops

variable (names : Names) (inner : Parse Expr) (fuel : Nat)

/-- Reading the tokens leads into the loop over suffixes, behind these tokens, with the tree
read so far and enough fuel for what is left. -/
def ReachesSuffixes (ks : List Kind) (e : Expr) : Prop :=
  ∀ rest, Ends .primary rest → ∀ c : Cursor, c.kinds = ks ++ rest → ∃ n e' c',
    suffixed names inner fuel c = suffixes inner n e' c' ∧ c'.kinds = rest ∧ e'.erased = e ∧
      fuel + 2 ≤ n + ks.length ∧ c'.rest <:+ c.rest

/-- Reading the tokens leads into the loop over the operators that bind at least as tightly as
some level, behind these tokens, with the tree read so far and enough fuel for what is left. -/
def ReachesClimb (level : Precedence) (ks : List Kind) (e : Expr) : Prop :=
  ∀ min, min ≤ level → ∀ m, ks.length ≤ m → ∀ rest, Ends level.next rest →
    ∀ c : Cursor, c.kinds = ks ++ rest → ∃ n e' c',
      binary (prefixed names inner fuel) m min c = climb (prefixed names inner fuel) n min e' c' ∧
      c'.kinds = rest ∧ e'.erased = e ∧ m + 1 ≤ n + ks.length ∧ c'.rest <:+ c.rest

/-- What the reader of a level does with tokens that derive a tree at the level. -/
def Complete : Precedence → List Kind → Expr → Prop
  | .assign, ks, e => ∀ n, ks.length ≤ n →
    ReadsAs (assignment (ternary (conditioned names inner fuel) inner (fuel + 1)) n) .assign ks e
  | .ternary, ks, e => ∀ n, ks.length ≤ n →
    ReadsAs (ternary (conditioned names inner fuel) inner n) .ternary ks e
  | .unary, ks, e => ∀ n, ks.length ≤ n → ReadsAs (unary (suffixed names inner fuel) n) .unary ks e
  | .postfixed, ks, e => ReachesSuffixes names inner fuel ks e
  | .primary, ks, e => ReadsAs (primary names inner fuel) .primary ks e
  | level, ks, e => ReachesClimb names inner fuel level ks e

variable {names inner fuel}

theorem local_prefixed (hlocal : Local inner inner) :
    Local (prefixed names inner fuel) (prefixed names inner fuel) := by
  have hprimary := local_primary (alike_refl names) hlocal fuel
  exact local_unary (hprimary.bind fun e => local_suffixes hlocal (fuel + 1) e) (fuel + 1)

theorem complete_precedence (op : BinaryOp) (ks : List Kind) (e : Expr) :
    Complete names inner fuel op.precedence ks e
      = ReachesClimb names inner fuel op.precedence ks e := by
  cases op <;> rfl

theorem readsAs_of_reachesSuffixes (hlength : ks.length ≤ fuel + 1)
    (h : ReachesSuffixes names inner fuel ks e) :
    ReadsAs (suffixed names inner fuel) .postfixed ks e := by
  intro rest hends c hc
  obtain ⟨n, e', c', hrun, hc', he, hn, -⟩ := h rest (hends.mono (by decide)) c hc
  obtain ⟨n, rfl⟩ : ∃ p, n = p + 1 := ⟨n - 1, by omega⟩
  obtain ⟨out, c'', hout, hc'', rfl⟩ := reads_suffixes_end hends n e' c' hc'
  exact ⟨_, c'', hrun.trans hout, hc'', he⟩

/-- A reader of operators reads what leads into its loop, if no operator of its level follows. -/
theorem readsAs_of_reachesClimb {m : Nat} (hm : ks.length ≤ m)
    (h : ReachesClimb names inner fuel level ks e) :
    ReadsAs (binary (prefixed names inner fuel) m level) level ks e := by
  intro rest hends c hc
  obtain ⟨n, e', c', hrun, hc', he, hn, -⟩ :=
    h level (Nat.le_refl _) m hm rest (hends.mono (le_next level)) c hc
  obtain ⟨n, rfl⟩ : ∃ p, n = p + 1 := ⟨n - 1, by omega⟩
  obtain ⟨out, c'', hout, hc'', rfl⟩ := reads_climb_end hends.noOperator n e' c' hc'
  exact ⟨_, c'', hrun.trans hout, hc'', he⟩

theorem ReachesClimb.of_next (h : ReachesClimb names inner fuel level.next ks e) :
    ReachesClimb names inner fuel level ks e := fun min hmin m hm rest hends =>
  h min (Nat.le_trans hmin (le_next level)) m hm rest (hends.mono (le_next level.next))

/-- An operand leads into the loop with no operator read yet. -/
theorem reachesClimb_of_operand (hlocal : Local inner inner) (hpos : 0 < ks.length)
    (h : ReadsAs (prefixed names inner fuel) .unary ks e) :
    ReachesClimb names inner fuel .multiplicative ks e := by
  intro min _ m _ rest hends c hc
  obtain ⟨e', c', hrun, hc', he⟩ := h rest hends c hc
  have hbehind := (local_prefixed hlocal).advances.suffix hrun
  exact ⟨m, e', c', StateT.bind_of_ok hrun, hc', he, by omega, hbehind⟩

/-- An operand is a binary expression without operators. -/
theorem readsAs_binary_of_operand {m : Nat} (hpos : 0 < ks.length) (hm : ks.length ≤ m)
    (h : ReadsAs (prefixed names inner fuel) .unary ks e) :
    ReadsAs (binary (prefixed names inner fuel) m .unary) .unary ks e := by
  intro rest hends
  obtain ⟨m, rfl⟩ : ∃ p, m = p + 1 := ⟨m - 1, by omega⟩
  refine .bind (h rest hends) fun e' he => ?_
  exact (reads_climb_end hends.noOperator m e').mono fun a ha => ha ▸ he

/-- The right operand of an operator is read a level tighter. -/
theorem readsAs_binary_next (op : BinaryOp) {m : Nat} (hpos : 0 < ks.length)
    (hlength : ks.length ≤ fuel + 1) (hm : ks.length ≤ m)
    (h : Complete names inner fuel op.precedence.next ks e) :
    ReadsAs (binary (prefixed names inner fuel) m op.precedence.next) op.precedence.next ks e := by
  cases op with
  | mul | div | rem => exact readsAs_binary_of_operand hpos hm (h (fuel + 1) hlength)
  | _ => exact readsAs_of_reachesClimb hm h

/-- What is no sign is a prefix expression without one. -/
theorem readsAs_unary_of_suffixed (hhead : ∃ k tail, ks = k :: tail ∧ startsPrimary k = true)
    (h : ReadsAs (suffixed names inner fuel) .postfixed ks e) (n : Nat) :
    ReadsAs (unary (suffixed names inner fuel) (n + 1)) .unary ks e := by
  intro rest hends
  have hread := h rest (hends.mono (by decide))
  obtain ⟨k, tail, rfl, hk⟩ := hhead
  refine .look fun t ht => ?_
  have ht' : t.kind = k := ht
  have hop : unaryOp? k = none := by
    cases k with
    | symbol s => cases s <;> first | rfl | cases hk
    | _ => rfl
  have hplus : k ≠ .symbol .plus := by
    rintro rfl
    cases hk
  rw [ht']
  simp only [hop, if_neg hplus]
  exact hread

/-- A condition without a question mark is a ternary expression. -/
theorem readsAs_ternary_of_condition
    (h : ReadsAs (conditioned names inner fuel) .or ks e) (n : Nat) :
    ReadsAs (ternary (conditioned names inner fuel) inner (n + 1)) .ternary ks e := by
  intro rest hends
  refine .bind (h rest (hends.mono (by decide))) fun e' he => .eat_other ?_ (.pure he)
  intro hhead
  exact absurd (hends .ternary (by rw [hhead]; rfl)) (by decide)

/-- A target without an assignment is one by itself. -/
theorem readsAs_assignment_of_target {target : Parse Expr} (h : ReadsAs target .ternary ks e)
    (n : Nat) : ReadsAs (assignment target (n + 1)) .assign ks e := by
  intro rest hends
  refine .bind (h rest (hends.mono (by decide))) fun e' he => .kind ?_
  have hop : assignOp? (rest.headD .eof) = none := by
    cases hop : assignOp? (rest.headD .eof) with
    | none => rfl
    | some op => exact absurd (hends _ (strength?_of_assignOp? hop)) (by decide)
  simp only [hop]
  exact .pure he

/-- A target, the operator and the value that the chain after it gives. -/
theorem readsAs_assignment {target : Parse Expr} {k : Kind} {op : AssignOp} {ts vs : List Kind}
    {t v : Expr} {n : Nat} (hop : assignOp? k = some op) (ht : ReadsAs target .ternary ts t)
    (hv : ReadsAs (assignment target n) .assign vs v) :
    ReadsAs (assignment target (n + 1)) .assign (ts ++ k :: vs) (.assign .dummy op t v) := by
  intro rest hends
  have htarget := ht (k :: (vs ++ rest)) (ends_cons (strength?_of_assignOp? hop) (by decide) _)
  simp only [List.append_assoc, List.cons_append]
  refine .bind htarget fun t' ht' => .kind ?_
  simp only [List.headD_cons, hop]
  refine .take (ne_eof_of_assignOp? hop) ?_
  exact .bind (hv rest hends) fun v' hv' => .pure (by simp [ht', hv'])

/-- A condition and the two values that it chooses from. -/
theorem readsAs_ternary {condition inner : Parse Expr} {cs ts fs : List Kind} {c t f : Expr}
    {n : Nat} (hc : ReadsAs condition .or cs c) (ht : ReadsAs inner .assign ts t)
    (hf : ReadsAs (ternary condition inner n) .ternary fs f) :
    ReadsAs (ternary condition inner (n + 1)) .ternary
      (cs ++ .symbol .question :: (ts ++ .symbol .colon :: fs)) (.ternary .dummy c t f) := by
  intro rest hends
  have hcondition := hc (.symbol .question :: (ts ++ .symbol .colon :: (fs ++ rest)))
    (ends_cons rfl (by decide) _)
  have htrue := ht (.symbol .colon :: (fs ++ rest)) (ends_of_strength?_eq_none rfl _ _)
  simp only [List.append_assoc, List.cons_append]
  refine .bind hcondition fun c' hc' => .eat (.bind htrue fun t' ht' => .expect ?_)
  exact .bind (hf rest hends) fun f' hf' => .pure (by simp [hc', ht', hf'])

/-- An operator before an operand, which no expression starts with the magnitude of the
smallest integer. -/
theorem readsAs_unary {operand : Parse Expr} {k : Kind} {op : UnaryOp} {n : Nat}
    (hop : unaryOp? k = some op) (hstart : ∃ k' tail, ks = k' :: tail ∧ startsExpression k' = true)
    (h : ReadsAs (unary operand n) .unary ks e) :
    ReadsAs (unary operand (n + 1)) .unary (k :: ks) (.unary .dummy op e) := by
  intro rest hends
  obtain ⟨k', tail, rfl, hk'⟩ := hstart
  have hmin : k' ≠ .int (intMax + 1) := by
    rintro rfl
    cases hk'
  refine .look fun t ht => ?_
  rw [show t.kind = k from ht]
  simp only [hop]
  refine .take (ne_eof_of_unaryOp? hop) (.look fun u hu => ?_)
  rw [if_neg (fun hboth => hmin ((show u.kind = k' from hu).symm.trans hboth.2))]
  exact .bind (h rest hends) fun e' he => .pure (by simp [he])

/-- A plus sign leaves no trace. -/
theorem readsAs_unary_plus {operand : Parse Expr} {n : Nat}
    (h : ReadsAs (unary operand n) .unary ks e) :
    ReadsAs (unary operand (n + 1)) .unary (.symbol .plus :: ks) e := by
  intro rest hends
  refine .look fun t ht => ?_
  rw [show t.kind = .symbol .plus from ht]
  exact .take (by simp) (h rest hends)

/-- A minus sign and the magnitude of the smallest integer are one constant. -/
theorem readsAs_unary_minInt {operand : Parse Expr} {n : Nat} :
    ReadsAs (unary operand (n + 1)) .unary [.symbol .minus, .int (intMax + 1)]
      (.constant .dummy (.int Int32.minValue)) := by
  intro rest _
  refine .look fun t ht => ?_
  rw [show t.kind = .symbol .minus from ht]
  refine .take (by simp) (.look fun u hu => ?_)
  rw [if_pos ⟨rfl, hu⟩]
  exact .take (by simp) (.pure rfl)

section Steps

variable (hlocal : Local inner inner)
  (hinner : ∀ ks e, Derives names .assign ks e → ks.length ≤ fuel → ReadsAs inner .assign ks e)
include hlocal hinner

/-- One more index. -/
theorem reachesSuffixes_index {bs ps : List Kind} {b p : Expr}
    (hb : ReachesSuffixes names inner fuel bs b) (hp : Derives names .assign ps p)
    (hlength : bs.length + ps.length + 2 ≤ fuel + 1) :
    ReachesSuffixes names inner fuel (bs ++ .symbol .lbracket :: (ps ++ [.symbol .rbracket]))
      (.index .dummy b p) := by
  intro rest _ c hc
  simp only [List.length_append, List.length_cons, List.length_nil]
  have hc : c.kinds = bs ++ .symbol .lbracket :: (ps ++ .symbol .rbracket :: rest) := by
    simpa using hc
  obtain ⟨n, b', c₁, hrun, hc₁, hb', hn, hbehind⟩ := hb _ (ends_cons rfl (by decide) _) c hc
  obtain ⟨n, rfl⟩ : ∃ m, n = m + 1 := ⟨n - 1, by omega⟩
  have hplace := hinner ps p hp (by omega) (.symbol .rbracket :: rest)
    (ends_of_strength?_eq_none rfl _ _)
  have heat : eat .lbracket c₁ = .ok (true, c₁.advance) := by
    simp [eat, c₁.current_kind, hc₁]
  obtain ⟨p', c₂, hrun₂, hc₂, hp'⟩ := hplace c₁.advance (Cursor.advance_kinds hc₁ (by simp))
  have hexpect : expect .rbracket c₂ = .ok ((), c₂.advance) := by
    have heat : eat .rbracket c₂ = .ok (true, c₂.advance) := by
      simp [eat, c₂.current_kind, hc₂]
    exact StateT.bind_of_ok heat
  have hbehind : c₂.advance.rest <:+ c.rest :=
    (((Local.expect _).advances.suffix hexpect).trans (hlocal.advances.suffix hrun₂)).trans
      (((Local.eat _).advances.suffix heat).trans hbehind)
  refine ⟨n, .index (b'.span.merge c₂.advance.previous) b' p', c₂.advance, ?_,
    Cursor.advance_kinds hc₂ (by simp), by simp [hb', hp'], by omega, hbehind⟩
  rw [hrun, suffixes, StateT.bind_of_ok heat]
  simp only [if_true]
  rw [StateT.bind_of_ok hrun₂, StateT.bind_of_ok hexpect]
  rfl

omit hlocal hinner in
/-- One more member. -/
theorem reachesSuffixes_member {bs : List Kind} {b e : Expr} {name : String}
    (hb : ReachesSuffixes names inner fuel bs b)
    (hlength : bs.length + 2 ≤ fuel + 1)
    (he : ∀ (n : Nat) (b' : Expr) (s : Span), b'.erased = b → ∃ e', e'.erased = e ∧
      (match Swizzle.ofName? name with
        | some selection => suffixes inner n (.swizzle s b' selection)
        | none => suffixes inner n (.field s b' name)) = suffixes inner n e') :
    ReachesSuffixes names inner fuel (bs ++ [.symbol .dot, .ident name]) e := by
  intro rest _ c hc
  simp only [List.length_append, List.length_cons, List.length_nil]
  have hc : c.kinds = bs ++ .symbol .dot :: .ident name :: rest := by simpa using hc
  obtain ⟨n, b', c₁, hrun, hc₁, hb', hn, hbehind⟩ := hb _ (ends_cons rfl (by decide) _) c hc
  obtain ⟨n, rfl⟩ : ∃ m, n = m + 1 := ⟨n - 1, by omega⟩
  have hbracket : eat .lbracket c₁ = .ok (false, c₁) := by
    simp [eat, c₁.current_kind, hc₁]
  have hdot : eat .dot c₁ = .ok (true, c₁.advance) := by
    simp [eat, c₁.current_kind, hc₁]
  have hadvance := Cursor.advance_kinds hc₁ (by simp)
  obtain ⟨⟨name', span⟩, c₂, hname, hc₂, hname'⟩ := reads_identifier name rest c₁.advance hadvance
  obtain rfl : name' = name := hname'
  obtain ⟨e', he', hloop⟩ := he n b' (b'.span.merge span) hb'
  have hbehind : c₂.rest <:+ c.rest :=
    (Local.identifier.advances.suffix hname).trans
      (((Local.eat _).advances.suffix hdot).trans hbehind)
  refine ⟨n, e', c₂, ?_, hc₂, he', by omega, hbehind⟩
  rw [hrun, suffixes, StateT.bind_of_ok hbracket]
  simp only [Bool.false_eq_true, if_false]
  rw [StateT.bind_of_ok hdot]
  simp only [if_true]
  rw [StateT.bind_of_ok hname]
  exact congrFun hloop c₂

omit hinner in
/-- One more operator. -/
theorem reachesClimb_binary {k : Kind} {op : BinaryOp} {ls rs : List Kind} {l r : Expr}
    (hop : binaryOp? k = some op) (hl : ReachesClimb names inner fuel op.precedence ls l)
    (hr : ∀ m, rs.length ≤ m →
      ReadsAs (binary (prefixed names inner fuel) m op.precedence.next) op.precedence.next rs r) :
    ReachesClimb names inner fuel op.precedence (ls ++ k :: rs) (.binary .dummy op l r) := by
  intro min hmin m hm rest hends c hc
  simp only [List.length_append, List.length_cons] at hm ⊢
  have hc : c.kinds = ls ++ k :: (rs ++ rest) := by simpa using hc
  have hnext : Ends op.precedence.next (k :: (rs ++ rest)) :=
    ends_cons (strength?_of_binaryOp? hop) (lt_next_precedence op) _
  obtain ⟨n, l', c₁, hrun, hc₁, hl', hn, hbehind⟩ := hl min hmin m (by omega) _ hnext c hc
  obtain ⟨n, rfl⟩ : ∃ p, n = p + 1 := ⟨n - 1, by omega⟩
  have hkind : kind c₁ = .ok (k, c₁) := by simp [kind, c₁.current_kind, hc₁]
  obtain ⟨r', c₂, hrun₂, hc₂, hr'⟩ := hr n (by omega) rest hends c₁.advance
    (Cursor.advance_kinds hc₁ (ne_eof_of_binaryOp? hop))
  have htaken : take c₁ = .ok ((), c₁.advance) := rfl
  have hprefixed : Local (prefixed names inner fuel) (prefixed names inner fuel) :=
    local_prefixed hlocal
  have hright := (local_binary hprefixed n op.precedence.next).advances.suffix hrun₂
  have hbehind : c₂.rest <:+ c.rest :=
    hright.trans ((Local.take.advances.suffix htaken).trans hbehind)
  refine ⟨n, .binary (l'.span.merge r'.span) op l' r', c₂, ?_, hc₂, by simp [hl', hr'], by omega,
    hbehind⟩
  have hbinds : ¬op.precedence < min := Nat.not_lt.mpr hmin
  rw [hrun, climb, StateT.bind_of_ok hkind]
  simp only [hop, if_neg hbinds]
  rw [StateT.bind_of_ok htaken]
  exact StateT.bind_of_ok hrun₂

/-- Tokens that derive a tree at a level are read by the reader of the level. -/
theorem complete_of_derives (h : Derives names level ks e) (hlength : ks.length ≤ fuel + 1) :
    Complete names inner fuel level ks e := by
  induction h with
  | @tighter level ks e h ih =>
      have hpos := h.length_pos
      have hnext := ih hlength
      cases level with
      | assign =>
          intro n hn
          obtain ⟨n, rfl⟩ : ∃ m, n = m + 1 := ⟨n - 1, by omega⟩
          exact readsAs_assignment_of_target (hnext (fuel + 1) hlength) n
      | ternary =>
          intro n hn
          obtain ⟨n, rfl⟩ : ∃ m, n = m + 1 := ⟨n - 1, by omega⟩
          exact readsAs_ternary_of_condition (readsAs_of_reachesClimb hlength hnext) n
      | unary =>
          intro n hn
          obtain ⟨n, rfl⟩ : ∃ m, n = m + 1 := ⟨n - 1, by omega⟩
          obtain ⟨k, tail, hk, -, hstart⟩ := h.eq_cons
          exact readsAs_unary_of_suffixed ⟨k, tail, hk, hstart (by decide)⟩
            (readsAs_of_reachesSuffixes hlength hnext) n
      | postfixed =>
          intro rest hends c hc
          obtain ⟨e', c', hrun, hc', he⟩ := hnext rest hends c hc
          have hbehind := (local_primary (alike_refl names) hlocal fuel).advances.suffix hrun
          exact ⟨fuel + 1, e', c', StateT.bind_of_ok hrun, hc', he, by omega, hbehind⟩
      | primary => exact hnext
      | multiplicative => exact reachesClimb_of_operand hlocal hpos (hnext (fuel + 1) hlength)
      | or | and | bitOr | bitXor | bitAnd | equality | relational | shift | additive =>
          exact ReachesClimb.of_next hnext
  | @assign k op ts vs t v hop ht hv iht ihv =>
      intro n hn
      simp only [List.length_append, List.length_cons] at hlength hn
      have htpos := ht.length_pos
      have hvpos := hv.length_pos
      obtain ⟨n, rfl⟩ : ∃ m, n = m + 1 := ⟨n - 1, by omega⟩
      exact readsAs_assignment hop (iht (by omega) (fuel + 1) (by omega))
        (ihv (by omega) n (by omega))
  | @ternary cs ts fs c t f hc ht hf ihc iht ihf =>
      intro n hn
      simp only [List.length_append, List.length_cons] at hlength hn
      have hcpos := hc.length_pos
      have hfpos := hf.length_pos
      obtain ⟨n, rfl⟩ : ∃ m, n = m + 1 := ⟨n - 1, by omega⟩
      have hclimb : ReachesClimb names inner fuel .or cs c := ihc (by omega)
      exact readsAs_ternary (readsAs_of_reachesClimb (by omega) hclimb) (hinner ts t ht (by omega))
        (ihf (by omega) n (by omega))
  | @binary k op ls rs l r hop hl hr ihl ihr =>
      simp only [List.length_append, List.length_cons] at hlength
      rw [complete_precedence] at ihl ⊢
      refine reachesClimb_binary hlocal hop (ihl (by omega)) fun m hm => ?_
      exact readsAs_binary_next op hr.length_pos (by omega) hm (ihr (by omega))
  | @unary k op ks e hop h ih =>
      intro n hn
      simp only [List.length_cons] at hlength hn
      obtain ⟨n, rfl⟩ : ∃ m, n = m + 1 := ⟨n - 1, by omega⟩
      obtain ⟨k', tail, hks, hstart, -⟩ := h.eq_cons
      exact readsAs_unary hop ⟨k', tail, hks, hstart⟩ (ih (by omega) n (by omega))
  | @plus ks e h ih =>
      intro n hn
      simp only [List.length_cons] at hlength hn
      obtain ⟨n, rfl⟩ : ∃ m, n = m + 1 := ⟨n - 1, by omega⟩
      exact readsAs_unary_plus (ih (by omega) n (by omega))
  | minInt =>
      intro n hn
      obtain ⟨n, rfl⟩ : ∃ m, n = m + 1 := ⟨n - 1, by simp at hn; omega⟩
      exact readsAs_unary_minInt
  | @index bs ps b p hb hp ihb ihp =>
      simp only [List.length_append, List.length_cons, List.length_nil] at hlength
      exact reachesSuffixes_index hlocal hinner (ihb (by omega)) hp (by omega)
  | @swizzle bs b name selection hb hname ih =>
      simp only [List.length_append, List.length_cons, List.length_nil] at hlength
      refine reachesSuffixes_member (ih (by omega)) (by omega) fun n b' s hb' => ?_
      exact ⟨.swizzle s b' selection, by simp [hb'], by simp [hname]⟩
  | @field bs b name hb hname ih =>
      simp only [List.length_append, List.length_cons, List.length_nil] at hlength
      refine reachesSuffixes_member (ih (by omega)) (by omega) fun n b' s hb' => ?_
      exact ⟨.field s b' name, by simp [hb'], by simp [hname]⟩
  | literal h => exact reads_primary_literal h
  | parens h ih =>
      simp only [List.length_append, List.length_cons, List.length_nil] at hlength
      exact reads_primary_parens hinner h (by omega)
  | ref htype => exact reads_primary_ref htype
  | call htype hfunction hargs ih =>
      simp only [List.length_cons] at hlength
      exact reads_primary_call hinner htype hfunction hargs (by omega)
  | builtin htype hfunction hargs ih =>
      simp only [List.length_cons] at hlength
      exact reads_primary_builtin hinner htype hfunction hargs (by omega)
  | cast htype hdims hargs ih =>
      simp only [List.length_cons, List.length_append] at hlength
      exact reads_primary_cast hinner htype hdims hargs (by omega)

end Steps

end Loops

/-- Tokens that derive an expression are read as it, before a token that continues none. -/
theorem readsAs_expression {fuel : Nat} (h : Derives names .assign ks e)
    (hfuel : ks.length ≤ fuel) :
    ReadsAs (expression names fuel) .assign ks e := by
  induction fuel generalizing ks e with
  | zero =>
      have hpos := h.length_pos
      omega
  | succ fuel ih =>
      have hinner : ∀ ks e, Derives names .assign ks e → ks.length ≤ fuel →
          ReadsAs (expression names fuel) .assign ks e := fun _ _ h hlength => ih h hlength
      have hlocal := local_expression (alike_refl names) fuel
      rw [expression_succ]
      exact complete_of_derives hlocal hinner h hfuel (fuel + 1) hfuel

end Parse

end Shading
