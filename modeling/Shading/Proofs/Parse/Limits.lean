import Shading.Proofs.Parse.Surroundings
import Shading.Proofs.Token.Integers

/-!
# Where integers are out of range

A magnitude above the largest integer is refused at every place of an expression, but for the
magnitude of the smallest integer right after a minus sign that negates it. By induction on
what stands around the place: the parser reads its way up to the token and fails there. With
what the lexer makes of digits, integer literals are exact up to their limits.
-/

namespace Shading

namespace Parse

variable {α β : Type} {names : Names} {t : Token} {fault : ParseFault} {before : List Kind}

/-- The production fails at the token where these kinds stand before it, whatever follows. -/
def FailsAt (m : Parse α) (before : List Kind) (t : Token) (fault : ParseFault) : Prop :=
  ∀ (c : Cursor) (ts rest : List Token), c.rest = ts ++ t :: rest → ts.map Token.kind = before →
    m c = .error ⟨fault, t.span, t.position⟩

namespace FailsAt

variable {m : Parse α} {f : α → Parse β}

/-- A first step that fails is where the whole does. -/
theorem bind (h : FailsAt m before t fault) : FailsAt (m >>= f) before t fault := by
  intro c ts rest hc hts
  rw [StateT.bind_apply, h c ts rest hc hts, Except.error_bind]

/-- A cursor behind tokens that have been read stands at the tokens after them. -/
theorem rest_eq_of_kinds {c c' : Cursor} {ts us : List Token} (hc : c.rest = ts ++ us)
    (hbehind : c'.rest <:+ c.rest) (hkinds : c'.kinds = us.map Token.kind) : c'.rest = us := by
  have hlength : c'.rest.length = us.length := by
    simpa [Cursor.kinds] using congrArg List.length hkinds
  have hsuffix : us <:+ c.rest := ⟨ts, hc.symm⟩
  exact (List.suffix_of_suffix_length_le hbehind hsuffix (Nat.le_of_eq hlength)).eq_of_length
    hlength

/-- A run that goes on as another one behind the tokens that it has read. -/
theorem of_reaches {ks : List Kind}
    (h : ∀ c : Cursor, ∀ rest, c.kinds = ks ++ (before ++ t.kind :: rest) →
      ∃ m' c', m c = m' c' ∧ c'.kinds = before ++ t.kind :: rest ∧ c'.rest <:+ c.rest ∧
        FailsAt m' before t fault) : FailsAt m (ks ++ before) t fault := by
  intro c ts rest hc hts
  obtain ⟨us, vs, rfl, rfl, rfl⟩ := List.map_eq_append_iff.mp hts
  rw [List.append_assoc] at hc
  obtain ⟨m', c', hrun, hc', hbehind, hfails⟩ := h c (rest.map Token.kind) (by
    simp [Cursor.kinds, hc])
  have hrest := rest_eq_of_kinds hc hbehind (by simpa using hc')
  rw [hrun]
  exact hfails c' vs rest hrest rfl

/-- The first production reads its way to tokens before the one at fault. -/
theorem bindReads (ks : List Kind) {P : α → Prop} (hadvances : Advances m)
    (hm : ∀ rest, Reads m (ks ++ (before ++ t.kind :: rest)) (before ++ t.kind :: rest) P)
    (hf : ∀ a, P a → FailsAt (f a) before t fault) :
    FailsAt (m >>= f) (ks ++ before) t fault := by
  apply of_reaches
  intro c rest hc
  obtain ⟨a, c', hrun, hc', ha⟩ := hm rest c hc
  exact ⟨f a, c', StateT.bind_of_ok hrun, hc', hadvances.suffix hrun, hf a ha⟩

theorem take {k : Kind} {f : Unit → Parse β} (hk : k ≠ .eof) (h : FailsAt (f ()) before t fault) :
    FailsAt (Parse.take >>= f) (k :: before) t fault :=
  bindReads [k] (P := fun _ => True) Local.take.advances
    (fun _ c hc => ⟨(), c.advance, rfl, Cursor.advance_kinds hc hk, trivial⟩) fun _ _ => h

theorem eat {s : Symbol} {f : Bool → Parse β} (h : FailsAt (f true) before t fault) :
    FailsAt (Parse.eat s >>= f) (.symbol s :: before) t fault := by
  refine bindReads [.symbol s] (P := (· = true)) (Local.eat s).advances ?_ fun b hb => hb ▸ h
  intro rest c hc
  have hs : c.current.kind = .symbol s := by simp [c.current_kind, hc]
  exact ⟨true, c.advance, eat_of_kind hs, Cursor.advance_kinds hc (by simp), rfl⟩

theorem eat_other {s : Symbol} {f : Bool → Parse β}
    (hs : (before ++ [t.kind]).headD .eof ≠ .symbol s) (h : FailsAt (f false) before t fault) :
    FailsAt (Parse.eat s >>= f) before t fault := by
  refine bindReads [] (P := (· = false)) (Local.eat s).advances ?_ fun b hb => hb ▸ h
  intro rest c hc
  have hhead : (before ++ t.kind :: rest).headD .eof ≠ .symbol s := by
    cases before with
    | nil => exact hs
    | cons k before => exact hs
  have hne : c.current.kind ≠ .symbol s := by rwa [c.current_kind, hc]
  exact ⟨false, c, eat_of_kind_ne hne, hc, rfl⟩

theorem expect {s : Symbol} {f : Unit → Parse β} (h : FailsAt (f ()) before t fault) :
    FailsAt (Parse.expect s >>= f) (.symbol s :: before) t fault :=
  bindReads [.symbol s] (P := fun _ => True) (Local.expect s).advances
    (fun _ => Reads.eat (.pure trivial)) fun _ _ => h

theorem kind {f : Kind → Parse β}
    (h : FailsAt (f ((before ++ [t.kind]).headD .eof)) before t fault) :
    FailsAt (Parse.kind >>= f) before t fault := by
  intro c ts rest hc hts
  have hk : c.current.kind = (before ++ [t.kind]).headD .eof := by
    rw [Cursor.current, hc, ← hts]
    cases ts <;> rfl
  have hrun := h c ts rest hc hts
  rw [← hk] at hrun
  exact hrun

/-- Looking at the token at fault. -/
theorem look_here {f : Token → Parse β} (h : FailsAt (f t) [] t fault) :
    FailsAt (Parse.look >>= f) [] t fault := by
  intro c ts rest hc hts
  obtain rfl := List.map_eq_nil_iff.mp hts
  have ht : c.current = t := by rw [Cursor.current, hc]; rfl
  have hrun := h c [] rest hc rfl
  rw [← ht] at hrun
  rw [← ht]
  exact hrun

/-- Looking at a token before the one at fault. -/
theorem look_cons {k : Kind} {f : Token → Parse β}
    (h : ∀ u : Token, u.kind = k → FailsAt (f u) (k :: before) t fault) :
    FailsAt (Parse.look >>= f) (k :: before) t fault := by
  intro c ts rest hc hts
  obtain ⟨u, us, rfl, hu, hus⟩ := List.map_eq_cons_iff.mp hts
  have hcurrent : c.current = u := by rw [Cursor.current, hc]; rfl
  exact h c.current (hcurrent ▸ hu) c (u :: us) rest hc hts

section Productions

variable {k : Kind} {n : Nat}

/-- Behind a target and its operator, in the value. -/
theorem assignment_value {target : Parse Expr} {op : AssignOp} {ts : List Kind} {t' : Expr}
    (hop : assignOp? k = some op) (hadvances : Advances target)
    (ht : ReadsAs target .ternary ts t') (h : FailsAt (assignment target n) before t fault) :
    FailsAt (assignment target (n + 1)) (ts ++ k :: before) t fault := by
  refine .bindReads ts (P := fun e => e.erased = t') hadvances (fun rest => ?_) fun e _ => .kind ?_
  · exact ht _ (ends_cons (strength?_of_assignOp? hop) (by decide) _)
  · simp only [List.cons_append, List.headD_cons, hop]
    exact .take (ne_eof_of_assignOp? hop) h.bind

section Choices

variable {condition inner : Parse Expr} {cs : List Kind} {c' : Expr}
  (hadvances : Advances condition) (hc : ReadsAs condition .or cs c')
include hadvances hc

/-- Behind a condition, in what it chooses if it holds. -/
theorem ternary_true (h : FailsAt inner before t fault) :
    FailsAt (ternary condition inner (n + 1)) (cs ++ .symbol .question :: before) t fault := by
  refine .bindReads cs (P := fun e => e.erased = c') hadvances (fun rest => ?_) fun e _ => ?_
  · exact hc _ (ends_cons rfl (by decide) _)
  · exact .eat h.bind

/-- Behind a condition and what it chooses if it holds, in what it chooses else. -/
theorem ternary_false {ts : List Kind} {t' : Expr} (hinner : Advances inner)
    (ht : ReadsAs inner .assign ts t') (h : FailsAt (ternary condition inner n) before t fault) :
    FailsAt (ternary condition inner (n + 1))
      (cs ++ .symbol .question :: (ts ++ .symbol .colon :: before)) t fault := by
  refine .bindReads cs (P := fun e => e.erased = c') hadvances (fun rest => ?_) fun e _ => .eat ?_
  · exact hc _ (ends_cons rfl (by decide) _)
  · refine .bindReads ts (P := fun e => e.erased = t') hinner (fun rest => ?_) fun e _ => ?_
    · exact ht _ (ends_of_strength?_eq_none rfl _ _)
    · exact .expect h.bind

end Choices

/-- Behind an operator, unless it makes the smallest integer together with what comes next. -/
theorem unary_operand {operand : Parse Expr} {op : UnaryOp} (hop : unaryOp? k = some op)
    (hmin : ¬(op = .neg ∧ (before ++ [t.kind]).headD .eof = .int (intMax + 1)))
    (h : FailsAt (unary operand n) before t fault) :
    FailsAt (unary operand (n + 1)) (k :: before) t fault := by
  refine .look_cons fun u hu => ?_
  rw [hu]
  simp only [hop]
  refine .take (ne_eof_of_unaryOp? hop) ?_
  cases before with
  | nil =>
      refine .look_here ?_
      rw [if_neg fun hboth => hmin ⟨hboth.1, hboth.2⟩]
      exact h.bind
  | cons k' before =>
      refine .look_cons fun w hw => ?_
      rw [if_neg fun hboth => hmin ⟨hboth.1, hw.symm.trans hboth.2⟩]
      exact h.bind

/-- A plus sign is passed over. -/
theorem unary_plus {operand : Parse Expr} (h : FailsAt (unary operand n) before t fault) :
    FailsAt (unary operand (n + 1)) (.symbol .plus :: before) t fault := by
  refine .look_cons fun u hu => ?_
  rw [hu]
  exact .take (by simp) h

/-- Inside parentheses the failure is that of the expression. -/
theorem primary_parens {inner : Parse Expr} (h : FailsAt inner before t fault) :
    FailsAt (primary names inner n) (.symbol .lparen :: before) t fault := by
  refine .look_cons fun u hu => ?_
  rw [hu]
  exact .take (by simp) h.bind

/-- Behind an expression and a bracket, in the index. -/
theorem suffixed_index {inner : Parse Expr} {ls : List Kind} {b : Expr}
    (hb : ReachesSuffixes names inner n ls b) (hlength : ls.length ≤ n)
    (h : FailsAt inner before t fault) :
    FailsAt (suffixed names inner n) (ls ++ .symbol .lbracket :: before) t fault := by
  apply of_reaches
  intro c rest hc
  obtain ⟨m, b', c', hrun, hc', -, hm, hbehind⟩ := hb _ (ends_cons rfl (by decide) _) c hc
  obtain ⟨m, rfl⟩ : ∃ p, m = p + 1 := ⟨m - 1, by omega⟩
  exact ⟨_, c', hrun, hc', hbehind, .eat h.bind⟩

/-- Behind a left operand and its operator, in the right operand, which is read with what fuel
the left one leaves. -/
theorem binary_right {inner : Parse Expr} {fuel : Nat} {op : BinaryOp} {min : Precedence}
    {ls : List Kind} {l : Expr} (hop : binaryOp? k = some op) (hmin : min ≤ op.precedence)
    (hl : ReachesClimb names inner fuel op.precedence ls l) (hn : ls.length + before.length + 1 ≤ n)
    (h : ∀ m, before.length ≤ m →
      FailsAt (binary (prefixed names inner fuel) m op.precedence.next) before t fault) :
    FailsAt (binary (prefixed names inner fuel) n min) (ls ++ k :: before) t fault := by
  apply of_reaches
  intro c rest hc
  obtain ⟨m, l', c', hrun, hc', -, hm, hbehind⟩ := hl min hmin n (by omega) _
    (ends_cons (strength?_of_binaryOp? hop) (lt_next_precedence op) _) c hc
  obtain ⟨m, rfl⟩ : ∃ p, m = p + 1 := ⟨m - 1, by omega⟩
  have hbinds : ¬op.precedence < min := Nat.not_lt.mpr hmin
  refine ⟨_, c', hrun, hc', hbehind, .kind ?_⟩
  simp only [List.cons_append, List.headD_cons, hop, if_neg hbinds]
  exact .take (ne_eof_of_binaryOp? hop) (h m (by omega)).bind

end Productions

end FailsAt

/-- The token is an integer that no literal stands for by itself. -/
def IsLarge (t : Token) (v : Nat) : Prop := t.kind = .int v ∧ intMax < v

/-- The place is the first one of an operand that a minus sign right before it negates. -/
def Negated (names : Names) (level : Precedence) (bs as : List Kind) (C : Expr → Expr) : Prop :=
  ∃ bs' as' D ds E, Around names .unary level bs' as' D ∧ Around names .primary .unary [] ds E ∧
    bs = bs' ++ [.symbol .minus] ∧ as = ds ++ as' ∧ C = fun e => D (.unary .dummy .neg (E e))

/-- The token makes no smallest integer together with what stands before the place. -/
def Unsigned (names : Names) (level : Precedence) (bs as : List Kind) (C : Expr → Expr) (v : Nat) :
    Prop :=
  v = intMax + 1 → ¬Negated names level bs as C

variable {v : Nat} {level : Precedence} {bs as : List Kind} {C : Expr → Expr}

/-- What negates no place of an expression negates none of a part of it, around which stand
the tokens `ls` and `rs`. -/
theorem Unsigned.within {inside : Precedence} {xs ys : List Kind} {T : Expr → Expr}
    (h : Unsigned names level xs ys T v) (ls rs : List Kind) (node : Expr → Expr)
    (hxs : xs = ls ++ bs) (hys : ys = as ++ rs) (htree : T = fun e => node (C e))
    (hnode : ∀ {bs as C}, Around names .unary inside bs as C →
      Around names .unary level (ls ++ bs) (as ++ rs) fun e => node (C e)) :
    Unsigned names inside bs as C v := by
  subst hxs hys htree
  rintro hv ⟨bs', as', D, ds, E, hplace, hoperand, rfl, rfl, rfl⟩
  exact h hv ⟨_, _, _, ds, E, hnode hplace, hoperand, by simp, by simp, rfl⟩

/-- A number that is too large is no literal. -/
theorem IsLarge.literal?_eq_none (h : IsLarge t v) : literal? t.kind = none := by
  have hlarge : ¬v ≤ intMax := Nat.not_le.mpr h.2
  rw [h.1]
  simp [literal?, hlarge]

/-- How the tokens before a place for an operand start, if there are any. -/
theorem Around.before_cases (h : Around names .primary level bs as C) : bs = [] ∨
    ∃ k tail, bs = k :: tail ∧ startsExpression k = true ∧
      (.postfixed ≤ level → startsPrimary k = true) := by
  have hfilled := h.derives (Derives.literal (rfl : literal? (.keyword .true) = some (.bool true)))
  cases bs with
  | nil => exact .inl rfl
  | cons b bs =>
      obtain ⟨k, tail, heq, hk, hstrong⟩ := hfilled.eq_cons
      obtain ⟨rfl, -⟩ := List.cons.inj heq
      exact .inr ⟨b, bs, rfl, hk, hstrong⟩

theorem headD_append_of_startsExpression {k : Kind} {tail : List Kind} {s : Symbol}
    (hk : startsExpression k = true) (hs : startsExpression (.symbol s) = false) :
    (k :: tail).headD .eof ≠ .symbol s := by
  rintro rfl
  rw [hs] at hk
  cases hk

section Arguments

variable {inner : Parse Expr} {fuel : Nat} {earlier : List (List Kind × Expr)}

/-- A list fails at the first item that does, behind those that are read. -/
theorem failsAt_separated (hlocal : Local inner inner)
    (hread : ∀ p ∈ earlier, ReadsAs inner .assign p.1 p.2) (hfails : FailsAt inner bs t fault)
    (hfuel : earlier.length < fuel) :
    FailsAt (separated inner fuel) (preceding earlier ++ bs) t fault := by
  obtain ⟨fuel, rfl⟩ : ∃ n, fuel = n + 1 := ⟨fuel - 1, by omega⟩
  induction earlier generalizing fuel with
  | nil => exact hfails.bind
  | cons p earlier ih =>
      obtain ⟨fuel, rfl⟩ : ∃ n, fuel = n + 1 :=
        ⟨fuel - 1, by rw [List.length_cons] at hfuel; omega⟩
      have hrest := ih (fun q hq => hread q (List.mem_cons_of_mem _ hq)) fuel
        (Nat.lt_of_succ_lt_succ hfuel)
      have hsplit : preceding (p :: earlier) ++ bs
          = p.1 ++ .symbol .comma :: (preceding earlier ++ bs) := by
        simp [preceding]
      have hitem := hread p List.mem_cons_self
      rw [hsplit]
      refine .bindReads p.1 (P := fun e => e.erased = p.2) hlocal.advances (fun rest => ?_) ?_
      · exact hitem _ (ends_of_strength?_eq_none rfl _ _)
      · exact fun a _ => .eat hrest.bind

theorem failsAt_arguments
    (hhead : (preceding earlier ++ bs ++ [t.kind]).headD .eof ≠ .symbol .rparen)
    (hfails : FailsAt (separated inner (fuel + 1)) (preceding earlier ++ bs) t fault) :
    FailsAt (arguments inner fuel) (.symbol .lparen :: (preceding earlier ++ bs)) t fault :=
  .expect (.eat_other hhead hfails.bind)

/-- What a name is for is known before its arguments are read. -/
theorem failsAt_callee {head tail : List Kind} {build : List Expr → Expr}
    (hcallee : Callee names head build)
    (hfails : FailsAt (arguments inner fuel) (.symbol .lparen :: tail) t fault) :
    FailsAt (primary names inner fuel) (head ++ .symbol .lparen :: tail) t fault := by
  cases hcallee with
  | @call name htype hfunction =>
      refine .look_cons fun u hu => ?_
      rw [hu]
      simp only [literal?, named, htype]
      exact .take (by simp) (.kind hfails.bind)
  | @builtin name f htype hfunction =>
      refine .look_cons fun u hu => ?_
      rw [hu]
      simp only [literal?, named, htype]
      exact .take (by simp) (.kind hfails.bind)
  | @cast name base bs dims htype hdims =>
      refine .look_cons fun u hu => ?_
      rw [hu]
      simp only [literal?, named, htype]
      have hparen (rest : List Kind) :
          (.symbol .lparen :: tail ++ t.kind :: rest : List Kind).headD .eof ≠
            .symbol .lbracket := by
        simp
      have hbrackets (rest : List Kind) := reads_arraySuffix hdims (hparen rest) base
      refine .take (by simp) (.bindReads bs (Local.arraySuffix base).advances hbrackets ?_)
      exact fun target _ => .kind hfails.bind

end Arguments

section Levels

variable (names : Names) (inner : Parse Expr) (fuel : Nat) (t : Token) (fault : ParseFault)

/-- What the reader of a level does where the token stands behind some kinds. -/
def Fails : Precedence → List Kind → Prop
  | .assign, bs => ∀ n, bs.length < n →
    FailsAt (assignment (ternary (conditioned names inner fuel) inner (fuel + 1)) n) bs t fault
  | .ternary, bs => ∀ n, bs.length < n →
    FailsAt (ternary (conditioned names inner fuel) inner n) bs t fault
  | .unary, bs => ∀ n, bs.length < n → FailsAt (unary (suffixed names inner fuel) n) bs t fault
  | .postfixed, bs => FailsAt (suffixed names inner fuel) bs t fault
  | .primary, bs => FailsAt (primary names inner fuel) bs t fault
  | level, bs => ∀ min, min ≤ level → ∀ n, bs.length ≤ n →
    FailsAt (binary (prefixed names inner fuel) n min) bs t fault

variable {names inner fuel t fault}

theorem fails_precedence (op : BinaryOp) (bs : List Kind) :
    Fails names inner fuel t fault op.precedence bs = ∀ min, min ≤ op.precedence →
      ∀ n, bs.length ≤ n → FailsAt (binary (prefixed names inner fuel) n min) bs t fault := by
  cases op <;> rfl

/-- The tokens at fault behind an operator are its right operand's. -/
theorem Fails.binary_next {op : BinaryOp} (h : Fails names inner fuel t fault op.precedence.next bs)
    (hlength : bs.length ≤ fuel) {n : Nat} (hn : bs.length ≤ n) :
    FailsAt (binary (prefixed names inner fuel) n op.precedence.next) bs t fault := by
  cases op with
  | mul | div | rem => exact FailsAt.bind (h (fuel + 1) (Nat.lt_succ_of_le hlength))
  | _ => exact h _ (Nat.le_refl _) n hn

/-- An assignment fails in its target. -/
theorem Fails.assignment {n : Nat} (hn : bs.length < n)
    (h : FailsAt (ternary (conditioned names inner fuel) inner (fuel + 1)) bs t fault) :
    FailsAt (assignment (ternary (conditioned names inner fuel) inner (fuel + 1)) n) bs t
      fault := by
  obtain ⟨n, rfl⟩ : ∃ m, n = m + 1 := ⟨n - 1, by omega⟩
  exact h.bind

theorem Fails.ternary {n : Nat} (hn : bs.length < n)
    (h : FailsAt (conditioned names inner fuel) bs t fault) :
    FailsAt (ternary (conditioned names inner fuel) inner n) bs t fault := by
  obtain ⟨n, rfl⟩ : ∃ m, n = m + 1 := ⟨n - 1, by omega⟩
  exact h.bind

/-- A prefix expression fails in its operand where no sign stands before that. -/
theorem Fails.unary {n : Nat} (hn : bs.length < n) (hsign : ∀ k tail, bs ++ [t.kind] = k :: tail →
      unaryOp? k = none ∧ k ≠ .symbol .plus)
    (h : FailsAt (suffixed names inner fuel) bs t fault) :
    FailsAt (unary (suffixed names inner fuel) n) bs t fault := by
  obtain ⟨n, rfl⟩ : ∃ m, n = m + 1 := ⟨n - 1, by omega⟩
  cases bs with
  | nil =>
      obtain ⟨hop, hplus⟩ := hsign t.kind [] rfl
      refine .look_here ?_
      simp only [hop, if_neg hplus]
      exact h
  | cons k bs =>
      obtain ⟨hop, hplus⟩ := hsign k (bs ++ [t.kind]) rfl
      refine .look_cons fun u hu => ?_
      simp only [hu, hop, if_neg hplus]
      exact h

/-- Going from a level to a stronger one. -/
theorem Fails.tighter {level : Precedence} (hlength : bs.length ≤ fuel)
    (hsign : .postfixed ≤ level.next → ∀ k tail, bs ++ [t.kind] = k :: tail →
      unaryOp? k = none ∧ k ≠ .symbol .plus)
    (h : Fails names inner fuel t fault level.next bs) :
    Fails names inner fuel t fault level bs := by
  have hlt : bs.length < fuel + 1 := Nat.lt_succ_of_le hlength
  cases level with
  | assign => exact fun n hn => Fails.assignment hn (h (fuel + 1) hlt)
  | ternary =>
      exact fun n hn => Fails.ternary hn (h .or (Nat.le_refl _) (fuel + 1) (Nat.le_of_lt hlt))
  | unary => exact fun n hn => Fails.unary hn (hsign (Nat.le_refl _)) h
  | postfixed => exact FailsAt.bind h
  | primary => exact h
  | multiplicative => exact fun min _ n _ => FailsAt.bind (h (fuel + 1) hlt)
  | or | and | bitOr | bitXor | bitAnd | equality | relational | shift | additive =>
      exact fun min hmin n hn => h min (Nat.le_trans hmin (by decide)) n hn

end Levels

theorem not_prefix_of_startsPrimary {k : Kind} (hk : startsPrimary k = true) :
    unaryOp? k = none ∧ k ≠ .symbol .plus := by
  cases k with
  | symbol s => cases s <;> first | (cases hk; done) | exact ⟨rfl, by simp⟩
  | _ => exact ⟨rfl, by simp⟩

/-- An earlier argument is no longer than what precedes the failing one. -/
theorem length_le_preceding {earlier : List (List Kind × Expr)} {p : List Kind × Expr}
    (hp : p ∈ earlier) : p.1.length ≤ (preceding earlier).length := by
  obtain ⟨xs, ys, rfl⟩ := List.append_of_mem hp
  simp only [preceding, List.flatMap_append, List.flatMap_cons, List.length_append]
  omega

theorem count_le_preceding (earlier : List (List Kind × Expr)) :
    earlier.length ≤ (preceding earlier).length := by
  induction earlier with
  | nil => exact Nat.zero_le _
  | cons p earlier ih =>
      simp only [preceding, List.flatMap_cons, List.length_append, List.length_cons] at ih ⊢
      omega

section Places

variable {inner : Parse Expr} {fuel : Nat} (hlocal : Local inner inner)
  (hinner : ∀ ks e, Derives names .assign ks e → ks.length ≤ fuel → ReadsAs inner .assign ks e)
  (hlarge : IsLarge t v)
  (hfails : ∀ bs as C, Around names .primary .assign bs as C → bs.length < fuel →
    Unsigned names .assign bs as C v → FailsAt inner bs t (.integerOutOfRange v))

include hlarge in
/-- An operand fails at a number that is too large. -/
theorem failsAt_primary :
    FailsAt (primary names inner fuel) [] t (.integerOutOfRange v) := by
  apply FailsAt.look_here
  rw [hlarge.literal?_eq_none, hlarge.1]
  exact fun c ts rest _ _ => rfl

include hlarge in
/-- The token at fault, or the first one before it, is no prefix of a postfixed expression. -/
theorem not_prefix_of_around (h : Around names .primary level bs as C) (hle : .postfixed ≤ level)
    (k : Kind) (tail : List Kind) (hk : bs ++ [t.kind] = k :: tail) :
    unaryOp? k = none ∧ k ≠ .symbol .plus := by
  rcases h.before_cases with rfl | ⟨k', tail', rfl, -, hstrong⟩
  · obtain ⟨rfl, -⟩ := List.cons.inj hk
    rw [hlarge.1]
    exact ⟨rfl, by simp⟩
  · obtain ⟨rfl, -⟩ := List.cons.inj hk
    exact not_prefix_of_startsPrimary (hstrong hle)

include hlarge in
theorem headD_ne_of_around (h : Around names .primary .assign bs as C)
    {earlier : List (List Kind × Expr)} (hearlier : ∀ p ∈ earlier, Derives names .assign p.1 p.2) :
    (preceding earlier ++ bs ++ [t.kind]).headD .eof ≠ .symbol .rparen := by
  cases earlier with
  | nil =>
      rcases h.before_cases with rfl | ⟨k, tail, rfl, hk, -⟩
      · simp [preceding, hlarge.1]
      · exact headD_append_of_startsExpression hk rfl
  | cons p earlier =>
      obtain ⟨k, tail, hp, hk, -⟩ := (hearlier p List.mem_cons_self).eq_cons
      have hhead : preceding (p :: earlier) ++ bs ++ [t.kind]
          = k :: (tail ++ .symbol .comma :: (preceding earlier ++ bs ++ [t.kind])) := by
        simp [preceding, hp]
      rw [hhead]
      exact headD_append_of_startsExpression hk rfl

include hlarge in
/-- An operator before a place makes no smallest integer with the token there. -/
theorem Unsigned.not_minInt {k : Kind} {op : UnaryOp} (hop : unaryOp? k = some op)
    (h : Around names .primary .unary bs as C)
    (hunsigned : Unsigned names .unary (k :: bs) as (fun e => .unary .dummy op (C e)) v) :
    ¬(op = .neg ∧ (bs ++ [t.kind]).headD .eof = .int (intMax + 1)) := by
  rintro ⟨rfl, hmin⟩
  rcases h.before_cases with rfl | ⟨k', tail, rfl, hk', -⟩
  · have hk : k = .symbol .minus := by
      unfold unaryOp? at hop
      split at hop <;> first | rfl | cases hop
    have hv : v = intMax + 1 := Kind.int.inj (hlarge.1.symm.trans hmin)
    exact hunsigned hv
      ⟨[], [], id, as, C, .here, h, by rw [hk]; rfl, (List.append_nil as).symm, rfl⟩
  · obtain rfl : k' = .int (intMax + 1) := hmin
    cases hk'

include hlocal hinner hlarge hfails

/-- The reader of a level fails at every place for a literal in an expression of the level. -/
theorem fails_of_around (h : Around names .primary level bs as C) (hlength : bs.length ≤ fuel)
    (hunsigned : Unsigned names level bs as C v) :
    Fails names inner fuel t (.integerOutOfRange v) level bs := by
  have hprefixed : Local (prefixed names inner fuel) (prefixed names inner fuel) :=
    local_prefixed hlocal
  have hcondition := local_binary hprefixed (fuel + 1) .or
  have hternary := local_ternary hcondition hlocal
  have hchosen (cs : List Kind) (c : Expr) (hc : Derives names .or cs c)
      (hle : cs.length ≤ fuel + 1) : ReadsAs (conditioned names inner fuel) .or cs c :=
    readsAs_of_reachesClimb hle (complete_of_derives hlocal hinner hc hle)
  induction h with
  | here => exact failsAt_primary hlarge
  | @tighter level bs as C h ih =>
      have hrest : Unsigned names level.next bs as C v :=
        hunsigned.within [] [] id rfl (by simp) rfl fun hsub => by simpa using hsub.tighter
      exact Fails.tighter hlength (not_prefix_of_around hlarge h) (ih hlength hrest)
  | @target k op bs as vs C v' hop h hv ih =>
      have hrest : Unsigned names .ternary bs as C v :=
        hunsigned.within [] (k :: vs) (.assign .dummy op · v') rfl rfl rfl fun hsub =>
          .target hop hsub hv
      exact fun n hn => Fails.assignment (by simpa using hn)
        (ih hlength hrest (fuel + 1) (Nat.lt_succ_of_le hlength))
  | @value k op ts bs as t' C hop ht h ih =>
      intro n hn
      simp only [List.length_append, List.length_cons] at hlength hn
      obtain ⟨n, rfl⟩ : ∃ m, n = m + 1 := ⟨n - 1, by omega⟩
      have hread :
          ReadsAs (ternary (conditioned names inner fuel) inner (fuel + 1)) .ternary ts t' :=
        complete_of_derives hlocal hinner ht (by omega) (fuel + 1) (by omega)
      have hrest : Unsigned names .assign bs as C v :=
        hunsigned.within (ts ++ [k]) [] (.assign .dummy op t') (by simp) (by simp) rfl fun hsub =>
          by simpa using Around.value hop ht hsub
      have hvalue := ih (by omega) hrest n (by omega)
      exact .assignment_value hop (hternary (fuel + 1)).advances hread hvalue
  | @condition bs as ts fs C t' f h ht hf ih =>
      have hrest : Unsigned names .or bs as C v :=
        hunsigned.within [] _ (.ternary .dummy · t' f) rfl rfl rfl fun hsub =>
          .condition hsub ht hf
      exact fun n hn => Fails.ternary hn
        (ih hlength hrest .or (Nat.le_refl _) (fuel + 1) (Nat.le_succ_of_le hlength))
  | @whenTrue cs bs as fs c f C hc h hf ih =>
      intro n hn
      simp only [List.length_append, List.length_cons] at hlength hn
      obtain ⟨n, rfl⟩ : ∃ m, n = m + 1 := ⟨n - 1, by omega⟩
      have hrest : Unsigned names .assign bs as C v :=
        hunsigned.within (cs ++ [.symbol .question]) _ (.ternary .dummy c · f) (by simp) rfl rfl
          fun hsub => by simpa using Around.whenTrue hc hsub hf
      exact .ternary_true hcondition.advances (hchosen cs c hc (by omega))
        (hfails bs as C h (by omega) hrest)
  | @whenFalse cs ts bs as c t' C hc ht h ih =>
      intro n hn
      simp only [List.length_append, List.length_cons] at hlength hn
      obtain ⟨n, rfl⟩ : ∃ m, n = m + 1 := ⟨n - 1, by omega⟩
      have hrest : Unsigned names .ternary bs as C v :=
        hunsigned.within (cs ++ .symbol .question :: (ts ++ [.symbol .colon])) []
          (.ternary .dummy c t') (by simp) (by simp) rfl
          fun hsub => by simpa using Around.whenFalse hc ht hsub
      exact .ternary_false hcondition.advances (hchosen cs c hc (by omega)) hlocal.advances
        (hinner ts t' ht (by omega)) (ih (by omega) hrest n (by omega))
  | @left k op bs as rs C r hop h hr ih =>
      rw [fails_precedence] at ih ⊢
      have hrest : Unsigned names op.precedence bs as C v :=
        hunsigned.within [] _ (.binary .dummy op · r) rfl rfl rfl fun hsub => .left hop hsub hr
      exact ih hlength hrest
  | @right k op ls bs as l C hop hl h ih =>
      rw [fails_precedence]
      intro min hmin n hn
      simp only [List.length_append, List.length_cons] at hlength hn
      have hclimb : ReachesClimb names inner fuel op.precedence ls l := by
        rw [← complete_precedence]
        exact complete_of_derives hlocal hinner hl (by omega)
      have hrest : Unsigned names op.precedence.next bs as C v :=
        hunsigned.within (ls ++ [k]) [] (.binary .dummy op l) (by simp) (by simp) rfl fun hsub =>
          by simpa using Around.right hop hl hsub
      have hright := ih (by omega) hrest
      exact .binary_right hop hmin hclimb (by omega) fun m hm => hright.binary_next (by omega) hm
  | @unary k op bs as C hop h ih =>
      intro n hn
      have hmin := hunsigned.not_minInt hlarge hop h
      simp only [List.length_cons] at hlength hn
      obtain ⟨n, rfl⟩ : ∃ m, n = m + 1 := ⟨n - 1, by omega⟩
      have hrest : Unsigned names .unary bs as C v :=
        hunsigned.within [k] [] (.unary .dummy op) rfl (by simp) rfl fun hsub =>
          by simpa using Around.unary hop hsub
      exact .unary_operand hop hmin (ih (by omega) hrest n (by omega))
  | @plus bs as C h ih =>
      intro n hn
      simp only [List.length_cons] at hlength hn
      obtain ⟨n, rfl⟩ : ∃ m, n = m + 1 := ⟨n - 1, by omega⟩
      have hrest : Unsigned names .unary bs as C v :=
        hunsigned.within [.symbol .plus] [] id rfl (by simp) rfl fun hsub =>
          by simpa using Around.plus hsub
      exact .unary_plus (ih (by omega) hrest n (by omega))
  | @base bs as ps C p h hp ih =>
      have hrest : Unsigned names .postfixed bs as C v :=
        hunsigned.within [] _ (.index .dummy · p) rfl rfl rfl fun hsub => .base hsub hp
      exact ih hlength hrest
  | @index ls bs as b C hb h ih =>
      simp only [List.length_append, List.length_cons] at hlength
      have hsuffixes : ReachesSuffixes names inner fuel ls b :=
        complete_of_derives hlocal hinner hb (by omega)
      have hrest : Unsigned names .assign bs as C v :=
        hunsigned.within (ls ++ [.symbol .lbracket]) _ (.index .dummy b) (by simp) rfl rfl
          fun hsub => by simpa using Around.index hb hsub
      exact FailsAt.suffixed_index hsuffixes (by omega) (hfails bs as C h (by omega) hrest)
  | @swizzle bs as C name selection h hname ih =>
      have hrest : Unsigned names .postfixed bs as C v :=
        hunsigned.within [] _ (.swizzle .dummy · selection) rfl rfl rfl fun hsub =>
          .swizzle hsub hname
      exact ih hlength hrest
  | @field bs as C name h hname ih =>
      have hrest : Unsigned names .postfixed bs as C v :=
        hunsigned.within [] _ (.field .dummy · name) rfl rfl rfl fun hsub => .field hsub hname
      exact ih hlength hrest
  | @parens bs as C h ih =>
      simp only [List.length_cons] at hlength
      have hrest : Unsigned names .assign bs as C v :=
        hunsigned.within [.symbol .lparen] _ id rfl rfl rfl fun hsub => .parens hsub
      exact FailsAt.primary_parens (hfails bs as C h (by omega) hrest)
  | @argument head bs as build earlier later C hcallee hearlier h hlater ih =>
      simp only [List.length_append, List.length_cons] at hlength
      have hrest : Unsigned names .assign bs as C v :=
        hunsigned.within (head ++ .symbol .lparen :: preceding earlier) _
          (fun e => build (earlier.map Prod.snd ++ e :: later.map Prod.snd)) (by simp) rfl rfl
          fun hsub => by simpa using Around.argument hcallee hearlier hsub hlater
      have hinside := hfails bs as C h (by omega) hrest
      have hcount := count_le_preceding earlier
      have hread : ∀ p ∈ earlier, ReadsAs inner .assign p.1 p.2 := by
        intro p hp
        have hle := length_le_preceding hp
        exact hinner p.1 p.2 (hearlier p hp) (by omega)
      have hlist := failsAt_separated hlocal hread hinside (by omega : earlier.length < fuel + 1)
      exact failsAt_callee hcallee (failsAt_arguments (headD_ne_of_around hlarge h hearlier) hlist)

end Places

/-- A large integer is out of range at every place of an expression where no minus sign before
it makes the smallest one of it. -/
theorem failsAt_expression {fuel : Nat} (hlarge : IsLarge t v)
    (h : Around names .primary .assign bs as C) (hfuel : bs.length < fuel)
    (hunsigned : Unsigned names .assign bs as C v) :
    FailsAt (expression names fuel) bs t (.integerOutOfRange v) := by
  induction fuel generalizing bs as C with
  | zero => exact absurd hfuel (Nat.not_lt_zero _)
  | succ fuel ih =>
      have hlocal := local_expression (alike_refl names) fuel
      rw [expression_succ]
      exact fails_of_around hlocal (fun _ _ h hle => readsAs_expression h hle) hlarge
        (fun _ _ _ h hlt hu => ih h hlt hu) h (Nat.le_of_lt_succ hfuel) hunsigned
        (fuel + 1) hfuel

theorem toInt_ofNat_of_le {v : Nat} (hv : v ≤ intMax) : (Int32.ofNat v).toInt = v :=
  Int32.toInt_ofNat_of_lt (Nat.lt_succ_of_le hv)

/-- Integer literals are exact. The lexer reads digits of any number as their value or refuses
them, by whether it fits. At every place of an expression, the integer token of a value up to
the largest integer is that constant, and a larger one is out of range; but right behind a
minus sign that negates it the next larger one makes the smallest integer together with it. -/
theorem integer_limits (names : Names) :
    (∀ {text rest : List Char} {v : Nat}, Number.Numeral text v → Lexer.Breaks rest →
      Lexer.ReadsNumber text rest (if v ≤ 2 ^ 31 then some (.int v) else none) ∧
      ∀ u ∈ ['u', 'U'], Lexer.ReadsNumber (text ++ [u]) rest
        (if v < 2 ^ 32 then some (.uint (UInt32.ofNat v)) else none)) ∧
    (∀ {bs as : List Kind} {C : Expr → Expr}, Around names .primary .assign bs as C →
      ∀ v fuel : Nat,
        (v < 2 ^ 31 → (bs ++ .int v :: as).length ≤ fuel → (Int32.ofNat v).toInt = v ∧
          ReadsAs (expression names fuel) .assign (bs ++ .int v :: as)
            (C (.constant .dummy (.int (Int32.ofNat v))))) ∧
        (2 ^ 31 ≤ v → bs.length < fuel → (v = 2 ^ 31 → ¬Negated names .assign bs as C) →
          ∀ t : Token, t.kind = .int v →
            FailsAt (expression names fuel) bs t (.integerOutOfRange v))) ∧
    ∀ {bs as : List Kind} {C : Expr → Expr}, Around names .unary .assign bs as C →
      ∀ fuel, (bs ++ .symbol .minus :: .int (2 ^ 31) :: as).length ≤ fuel →
        ReadsAs (expression names fuel) .assign (bs ++ .symbol .minus :: .int (2 ^ 31) :: as)
          (C (.constant .dummy (.int Int32.minValue))) := by
  refine ⟨fun h hrest => Lexer.readsNumber_numeral h hrest, fun h v fuel => ⟨?_, ?_⟩, ?_⟩
  · intro hv hfuel
    have hle : v ≤ intMax := Nat.le_of_lt_succ hv
    have hliteral : Derives names .primary [.int v] (.constant .dummy (.int (Int32.ofNat v))) :=
      .literal (by simp [literal?, hle])
    have hderives := h.derives hliteral
    rw [List.append_assoc, List.singleton_append] at hderives
    exact ⟨toInt_ofNat_of_le hle, readsAs_expression hderives hfuel⟩
  · intro hv hfuel hunsigned t ht
    exact failsAt_expression ⟨ht, hv⟩ h hfuel hunsigned
  · intro bs as C h fuel hfuel
    have hderives := h.derives .minInt
    rw [List.append_assoc] at hderives
    exact readsAs_expression hderives hfuel

/-- The names of the language, and those of no file. -/
def languageNames : Names := ⟨Registry.standard, []⟩

/-- Zeros before the digits, and both limits to the right of `a *`. -/
theorem integer_limits_of_product :
    Number.Numeral "0x0080000000".toList (2 ^ 31) ∧
    Lexer.ReadsNumber "0x0080000000".toList [] (some (.int (2 ^ 31))) ∧
    Around languageNames .primary .assign [.ident "a", .symbol .star] []
      (.binary .dummy .mul (.ref .dummy "a")) ∧
    FailsAt (expression languageNames 3) [.ident "a", .symbol .star]
      ⟨.int (2 ^ 31), ⟨4, 14⟩, ⟨1, 5⟩⟩ (.integerOutOfRange (2 ^ 31)) ∧
    Around languageNames .unary .assign [.ident "a", .symbol .star] []
      (.binary .dummy .mul (.ref .dummy "a")) ∧
    ReadsAs (expression languageNames 4) .assign
      [.ident "a", .symbol .star, .symbol .minus, .int (2 ^ 31)]
      (.binary .dummy .mul (.ref .dummy "a") (.constant .dummy (.int Int32.minValue))) := by
  obtain ⟨hlexer, hplaces, hoperands⟩ := integer_limits languageNames
  have hnumeral : Number.Numeral "0x0080000000".toList (2 ^ 31) :=
    @Number.Numeral.hex 'x' "0080000000".toList (.inl rfl) (by simp)
      (by simp [Number.isHexDigit, Number.isDigit])
  have hmul : binaryOp? (.symbol .star) = some .mul := rfl
  have hname : Derives languageNames .multiplicative [.ident "a"] (.ref .dummy "a") :=
    Derives.weaken (.ref rfl) (le_primary _)
  have hoperand : Around languageNames .unary .assign [.ident "a", .symbol .star] []
      (.binary .dummy .mul (.ref .dummy "a")) :=
    Around.weaken (.right hmul hname .here) (Nat.zero_le _)
  have hplace : Around languageNames .primary .assign [.ident "a", .symbol .star] []
      (.binary .dummy .mul (.ref .dummy "a")) :=
    Around.weaken (.right hmul hname (.tighter (.tighter .here))) (Nat.zero_le _)
  have hunsigned : ¬Negated languageNames .assign [.ident "a", .symbol .star] []
      (.binary .dummy .mul (.ref .dummy "a")) := by
    rintro ⟨bs, as, D, ds, E, -, -, hbs, -⟩
    have hlast := congrArg List.getLast? hbs
    simp at hlast
  refine ⟨hnumeral, (hlexer hnumeral (by simp [Lexer.Breaks])).1, hplace, ?_, hoperand, ?_⟩
  · exact (hplaces hplace (2 ^ 31) 3).2 (Nat.le_refl _) (by decide) (fun _ => hunsigned) _ rfl
  · exact hoperands hoperand 4 (Nat.le_refl _)

end Parse

end Shading
