import Shading.Proofs.Parse.Checks
import Shading.Proofs.Parse.Progress

/-!
# Enough fuel

A loop and a nested production take a token before they go on, so that the number of tokens
bounds every chain and all nesting: with more fuel than there are tokens left, no run ends for
want of fuel, and the fuel has no say in the outcome, be it a tree or an error. Reading a file
therefore ends by itself.
-/

namespace Shading

/-- No check of attributes finds that fuel ran out. -/
theorem Attributes.neverSpent (as : Attributes) :
    as.FaultsWithin fun e => e.fault ≠ .spent :=
  as.faultsWithin fun _ _ _ => by simp

namespace Parse

variable {α β : Type} {names : Names} {n fuel fuel' : Nat}

/-- Induction on a number of tokens and on two fuels that are no less: each round spends one of
all three. -/
theorem fuel_induction {motive : (n fuel fuel' : Nat) → n ≤ fuel → n ≤ fuel' → Prop}
    (zero : ∀ fuel fuel' hfuel hfuel', motive 0 fuel fuel' hfuel hfuel')
    (succ : ∀ n fuel fuel' hfuel hfuel', motive n fuel fuel' hfuel hfuel' →
      motive (n + 1) (fuel + 1) (fuel' + 1) (Nat.succ_le_succ hfuel) (Nat.succ_le_succ hfuel'))
    (n fuel fuel' : Nat) (hfuel : n ≤ fuel) (hfuel' : n ≤ fuel') :
    motive n fuel fuel' hfuel hfuel' := by
  induction n generalizing fuel fuel' with
  | zero => exact zero fuel fuel' hfuel hfuel'
  | succ n ih =>
      obtain ⟨fuel, rfl⟩ : ∃ k, fuel = k + 1 := ⟨fuel - 1, by omega⟩
      obtain ⟨fuel', rfl⟩ : ∃ k, fuel' = k + 1 := ⟨fuel' - 1, by omega⟩
      exact succ n fuel fuel' (Nat.le_of_succ_le_succ hfuel) (Nat.le_of_succ_le_succ hfuel')
        (ih fuel fuel' (Nat.le_of_succ_le_succ hfuel) (Nat.le_of_succ_le_succ hfuel'))

/-- The run ends in another way than for want of fuel. -/
abbrev Settled (out : Except ParseError (α × Cursor)) : Prop :=
  Except.FailsWithin (fun e => e.fault ≠ .spent) out

/-- The production takes no fuel that could run out, from any cursor. -/
def Settles (m : Parse α) : Prop := ∀ c, Settled (m c)

namespace Settles

variable {m m' : Parse α}

theorem pure (a : α) : Settles (Pure.pure a : Parse α) := fun _ => .ok trivial

theorem look : Settles look := fun _ => .ok trivial

theorem kind : Settles kind := fun _ => .ok trivial

theorem take : Settles take := fun _ => .ok trivial

theorem get : Settles (MonadState.get : Parse Cursor) := fun _ => .ok trivial

theorem spanFrom (start : Span) : Settles (spanFrom start) := fun _ => .ok trivial

theorem failAt (t : Token) {fault : ParseFault} (h : fault ≠ .spent) :
    Settles (failAt t fault : Parse α) := fun _ => .error h

theorem unexpected (expected : Expected) : Settles (unexpected expected : Parse α) :=
  fun _ => .error (by simp)

theorem bind {f : α → Parse β} (h : Settles m) (hf : ∀ a, Settles (f a)) :
    Settles (m >>= f) := fun c => (h c).andThen fun out => hf out.1 out.2

/-- The end of a production that spans what it reads. -/
theorem finish (start : Span) (make : Span → α) :
    Settles (do return make (← Parse.spanFrom start)) := (spanFrom start).bind fun _ => .pure _

theorem ite {p : Prop} [Decidable p] (h : Settles m) (h' : Settles m') :
    Settles (if p then m else m') := by
  split
  · exact h
  · exact h'

theorem eat (s : Symbol) : Settles (eat s) :=
  fun _ => .ite (fun _ => .ok trivial) fun _ => .ok trivial

theorem eatKeyword (k : Keyword) : Settles (eatKeyword k) :=
  fun _ => .ite (fun _ => .ok trivial) fun _ => .ok trivial

theorem expect (s : Symbol) : Settles (expect s) :=
  (eat s).bind fun _ => .ite (.pure ()) (.unexpected _)

theorem expectKeyword (k : Keyword) : Settles (expectKeyword k) :=
  (eatKeyword k).bind fun _ => .ite (.pure ()) (.unexpected _)

theorem identifier : Settles identifier := by
  refine look.bind fun t => ?_
  split
  · exact take.bind fun _ => .pure _
  · exact .unexpected _

/-- The brackets of an array are read by recursion on the tokens, which takes no fuel. -/
theorem arraySuffix (base : Ty) : Settles (arraySuffix base) := by
  have hdimensions (previous : Span) (ts : List Token) :
      Except.FailsWithin (fun e => e.fault ≠ .spent) (dimensions previous ts) := by
    fun_induction dimensions previous ts with
    | case1 _ _ _ _ _ _ ih | case3 _ _ _ _ _ _ _ _ _ _ ih => exact ih.andThen fun _ => .ok trivial
    | case2 => exact .error (by simp)
    | case4 | case5 => exact Settles.unexpected _ _
    | case6 => exact .ok trivial
  exact fun c => (hdimensions c.previous c.rest).andThen fun _ => .ok trivial

theorem type (names : Names) : Settles (type names) := by
  refine look.bind fun t => ?_
  split
  · split
    · exact take.bind fun _ => .arraySuffix _
    · exact .failAt t (by simp)
  · exact .unexpected _

theorem atDeclaration (names : Names) : Settles (atDeclaration names) :=
  fun _ => .ok trivial

/-- An argument of an attribute is one token. -/
theorem attributeArgument : Settles attributeArgument := by
  refine kind.bind fun k => ?_
  split
  · exact take.bind fun _ => .pure _
  · exact .unexpected _

/-- A field of a struct is no loop. -/
theorem structField (names : Names) : Settles (structField names) :=
  identifier.bind fun _ => .bind (.expect _) fun _ => .bind (.type names) fun _ =>
    .bind (.expect _) fun _ => .pure _

theorem parameter (names : Names) : Settles (parameter names) :=
  look.bind fun _ => .bind (.type names) fun _ => .bind .identifier fun _ => .finish _ _

/-- The end of a production after its last symbol. -/
theorem finishAfter (s : Symbol) (start : Span) (make : Span → α) :
    Settles (do
      Parse.expect s
      return make (← Parse.spanFrom start)) := (expect s).bind fun _ => .finish start make

theorem checked {result : Checked α} (h : Except.FailsWithin (fun e => e.fault ≠ .spent) result) :
    Settles (checked result) := fun _ => h.andThen fun _ => .ok trivial

end Settles

/-- Two runs have one outcome, which is not that the fuel ran out. -/
structure SameOutcome (x x' : Except ParseError (α × Cursor)) : Prop where
  eq : x = x'
  settled : Settled x

/-- The productions have the same outcome where fewer tokens than this are left. -/
def SameBelow (n : Nat) (m m' : Parse α) : Prop :=
  ∀ c : Cursor, c.rest.length < n → SameOutcome (m c) (m' c)

/-- The same from cursors at a token of the kind. -/
def SameBelowAt (k : Kind) (n : Nat) (m m' : Parse α) : Prop :=
  ∀ c : Cursor, c.current.kind = k → c.rest.length < n → SameOutcome (m c) (m' c)

namespace SameBelow

variable {m m' l l' : Parse α} {f f' : α → Parse β}

theorem refl (h : Settles m) : SameBelow n m m := fun c _ => ⟨rfl, h c⟩

theorem zero : SameBelow 0 m m' := fun _ hc => absurd hc (Nat.not_lt_zero _)

theorem mono (h : SameBelow n m m') {k : Nat} (hk : k ≤ n) : SameBelow k m m' :=
  fun c hc => h c (Nat.lt_of_lt_of_le hc hk)

theorem at_ (h : SameBelow n m m') (k : Kind) : SameBelowAt k n m m' := fun c _ hc => h c hc

/-- The general rule: the first step leaves fewer tokens than `k`. -/
theorem bindBelow {k : Nat} (h : SameBelow n m m')
    (hleft : ∀ c a c', c.rest.length < n → m c = .ok (a, c') → c'.rest.length < k)
    (hf : ∀ a, SameBelow k (f a) (f' a)) : SameBelow n (m >>= f) (m' >>= f') := by
  intro c hc
  obtain ⟨heq, hsettled⟩ := h c hc
  rw [StateT.bind_apply, StateT.bind_apply, ← heq]
  cases hrun : m c with
  | error e => exact ⟨rfl, .error (hsettled.of_error hrun)⟩
  | ok out => exact hf out.1 out.2 (hleft c out.1 out.2 hc hrun)

/-- The first step may leave as many tokens as there were. -/
theorem bind (h : SameBelow n m m') (hm : Advances m) (hf : ∀ a, SameBelow n (f a) (f' a)) :
    SameBelow n (m >>= f) (m' >>= f') := by
  refine h.bindBelow (fun c a c' hc hrun => ?_) hf
  have hle := hm.length_le hrun
  omega

/-- After a step that takes no fuel. -/
theorem after (hm : Settles m) (hadvances : Advances m) (hf : ∀ a, SameBelow n (f a) (f' a)) :
    SameBelow n (m >>= f) (m >>= f') := (refl hm).bind hadvances hf

/-- After a step that takes a token. -/
theorem bindStrict (h : SameBelow (n + 1) m m') (hm : Progresses m)
    (hf : ∀ a, SameBelow n (f a) (f' a)) : SameBelow (n + 1) (m >>= f) (m' >>= f') := by
  refine h.bindBelow (fun c a c' hc hrun => ?_) hf
  have hlt := hm.length_lt hrun
  omega

/-- Before steps that take no fuel. -/
theorem bindSame (h : SameBelow n m m') (hf : ∀ a, Settles (f a)) :
    SameBelow n (m >>= f) (m' >>= f) := by
  intro c hc
  obtain ⟨heq, hsettled⟩ := h c hc
  rw [StateT.bind_apply, StateT.bind_apply, ← heq]
  exact ⟨rfl, hsettled.andThen fun out => hf out.1 out.2⟩

theorem ite {p : Prop} [Decidable p] (h : p → SameBelow n m m') (h' : ¬p → SameBelow n l l') :
    SameBelow n (if p then m else l) (if p then m' else l') := by
  split
  · exact h ‹_›
  · exact h' ‹_›

theorem look {f f' : Token → Parse β} (h : ∀ t, SameBelowAt t.kind n (f t) (f' t)) :
    SameBelow n (Parse.look >>= f) (Parse.look >>= f') :=
  fun c hc => h c.current c rfl hc

theorem kind {f f' : Kind → Parse β} (h : ∀ k, SameBelowAt k n (f k) (f' k)) :
    SameBelow n (Parse.kind >>= f) (Parse.kind >>= f') :=
  fun c hc => h c.current.kind c rfl hc

theorem spanFrom {start : Span} {f f' : Span → Parse β} (h : ∀ s, SameBelow n (f s) (f' s)) :
    SameBelow n (Parse.spanFrom start >>= f) (Parse.spanFrom start >>= f') :=
  after (.spanFrom start) (Local.spanFrom start).advances h

theorem checked {result : Checked α} {f f' : α → Parse β}
    (hresult : Except.FailsWithin (fun e => e.fault ≠ .spent) result)
    (h : ∀ a, SameBelow n (f a) (f' a)) :
    SameBelow n (Parse.checked result >>= f) (Parse.checked result >>= f') :=
  after (.checked hresult) (Local.checked result).advances h

/-- A test that takes the token leaves fewer of them. -/
theorem eat {s : Symbol} {f f' : Bool → Parse β} (htaken : SameBelow n (f true) (f' true))
    (hleft : SameBelow (n + 1) (f false) (f' false)) :
    SameBelow (n + 1) (Parse.eat s >>= f) (Parse.eat s >>= f') := by
  intro c hc
  by_cases hs : c.current.kind = .symbol s
  · have hne : c.current.kind ≠ .eof := by simp [hs]
    obtain ⟨rest, hrest, hadvance⟩ := exists_of_kind_ne_eof hne
    rw [StateT.bind_of_ok (eat_of_kind hs), StateT.bind_of_ok (eat_of_kind hs)]
    refine htaken _ ?_
    rw [hrest, List.length_cons] at hc
    rw [hadvance]
    exact Nat.lt_of_succ_lt_succ hc
  · rw [StateT.bind_of_ok (eat_of_kind_ne hs), StateT.bind_of_ok (eat_of_kind_ne hs)]
    exact hleft c hc

theorem eatKeyword {k : Keyword} {f f' : Bool → Parse β} (h : ∀ b, SameBelow n (f b) (f' b)) :
    SameBelow n (Parse.eatKeyword k >>= f) (Parse.eatKeyword k >>= f') :=
  after (.eatKeyword k) (Local.eatKeyword k).advances h

/-- The symbol takes a token, so that the rest has fewer. -/
theorem expect {s : Symbol} {f f' : Unit → Parse β} (h : SameBelow n (f ()) (f' ())) :
    SameBelow (n + 1) (Parse.expect s >>= f) (Parse.expect s >>= f') :=
  (refl (.expect s)).bindStrict (progresses_expect s) fun _ => h

end SameBelow

namespace SameBelowAt

variable {m m' l l' : Parse α} {k : Kind}

theorem refl (h : Settles m) : SameBelowAt k n m m := (SameBelow.refl h).at_ k

/-- The current token is no end of file, so that taking it leaves fewer. -/
theorem take (hk : k ≠ .eof) {f f' : Unit → Parse β} (h : SameBelow n (f ()) (f' ())) :
    SameBelowAt k (n + 1) (Parse.take >>= f) (Parse.take >>= f') := by
  intro c hc hlength
  obtain ⟨rest, hrest, hadvance⟩ := exists_of_kind_ne_eof (hc ▸ hk : c.current.kind ≠ .eof)
  rw [hrest, List.length_cons] at hlength
  refine h c.advance ?_
  rw [hadvance]
  exact Nat.lt_of_succ_lt_succ hlength

theorem ite {p : Prop} [Decidable p] (h : p → SameBelowAt k n m m')
    (h' : ¬p → SameBelowAt k n l l') :
    SameBelowAt k n (if p then m else l) (if p then m' else l') := by
  split
  · exact h ‹_›
  · exact h' ‹_›

end SameBelowAt

section Lists

variable {item item' : Parse α}

/-- Every round but the first follows a comma. -/
theorem same_separated (h : SameBelow n item item') (hitem : Advances item) (hfuel : n ≤ fuel)
    (hfuel' : n ≤ fuel') : SameBelow n (separated item fuel) (separated item' fuel') := by
  induction n, fuel, fuel', hfuel, hfuel' using fuel_induction with
  | zero => exact .zero
  | succ n fuel fuel' hfuel hfuel' ih =>
      have hrest := ih (h.mono (Nat.le_succ n))
      exact h.bind hitem fun a => .eat (hrest.bindSame fun _ => .pure _) (.refl (.pure _))

/-- Every round of the loop takes a token: this is what an empty item would break. -/
theorem same_upTo (stop : Kind) (h : SameBelow n item item') (hitem : Progresses item)
    (hfuel : n ≤ fuel) (hfuel' : n ≤ fuel') :
    SameBelow n (upTo stop item fuel) (upTo stop item' fuel') := by
  induction n, fuel, fuel', hfuel, hfuel' using fuel_induction with
  | zero => exact .zero
  | succ n fuel fuel' hfuel hfuel' ih =>
      have hrest := ih (h.mono (Nat.le_succ n))
      refine .kind fun k => .ite (fun _ => .refl (.pure _)) fun _ => ?_
      exact (h.bindStrict hitem fun a => hrest.bindSame fun _ => .pure _).at_ _

end Lists

section Expressions

variable {inner inner' operand operand' : Parse Expr}

/-- The arguments stand behind a parenthesis, but the rest may be as long as the whole. -/
theorem same_arguments (h : SameBelow n inner inner') (hinner : Advances inner) (hfuel : n ≤ fuel)
    (hfuel' : n ≤ fuel') : SameBelow n (arguments inner fuel) (arguments inner' fuel') := by
  have hlist : SameBelow n (separated inner (fuel + 1)) (separated inner' (fuel' + 1)) :=
    same_separated h hinner (by omega) (by omega)
  refine .after (.expect _) (progresses_expect _).advances fun _ => ?_
  refine .after (.eat _) (Local.eat _).advances fun close => .ite (fun _ => .refl (.pure _)) ?_
  exact fun _ => hlist.bindSame fun _ => .bind (.expect _) fun _ => .pure _

/-- What stands behind a name has fewer tokens. -/
theorem same_named (h : SameBelow n inner inner') (hinner : Advances inner) (hfuel : n ≤ fuel)
    (hfuel' : n ≤ fuel') (t : Token) (name : String) :
    SameBelowAt (.ident name) (n + 1) (named names inner fuel t name)
      (named names inner' fuel' t name) := by
  have hargs := same_arguments h hinner hfuel hfuel'
  unfold named
  split
  · refine .take (by simp) ?_
    refine .after (.arraySuffix _) (Local.arraySuffix _).advances fun target => ?_
    refine .kind fun k => .ite (fun _ => ?_) fun _ => .refl (.unexpected _)
    exact (hargs.bindSame fun _ => .finish _ _).at_ _
  · refine .take (by simp) (.kind fun k => .ite (fun _ => ?_) fun _ => .refl (.pure _))
    refine SameBelow.at_ (hargs.bindSame fun args => .bind (.spanFrom _) fun s => ?_) _
    split
    · exact .pure _
    · exact .pure _

/-- An expression in parentheses has fewer tokens, and so do the arguments of a call. -/
theorem same_primary (h : SameBelow n inner inner') (hinner : Advances inner) (hfuel : n ≤ fuel)
    (hfuel' : n ≤ fuel') :
    SameBelow (n + 1) (primary names inner fuel) (primary names inner' fuel') := by
  refine .look fun t => ?_
  split
  · exact .refl (.bind .take fun _ => .pure _)
  · split
    · exact .refl (.failAt _ (by simp))
    · rename_i hparen
      rw [hparen]
      exact .take (by simp) (h.bindSame fun _ => .bind (.expect _) fun _ => .pure _)
    · rename_i name hname
      rw [hname]
      exact same_named h hinner hfuel hfuel' t name
    · exact .refl (.failAt _ (by simp))

/-- Every round takes a bracket or a point. -/
theorem same_suffixes (h : SameBelow n inner inner') (hinner : Advances inner) (hfuel : n ≤ fuel)
    (hfuel' : n ≤ fuel') (e : Expr) :
    SameBelow n (suffixes inner fuel e) (suffixes inner' fuel' e) := by
  induction n, fuel, fuel', hfuel, hfuel' using fuel_induction generalizing e with
  | zero => exact .zero
  | succ n fuel fuel' hfuel hfuel' ih =>
      have hinside := h.mono (Nat.le_succ n)
      have hrest (e : Expr) := ih hinside e
      refine .eat ?_ (.eat ?_ (.refl (.pure _)))
      · refine hinside.bind hinner fun place => ?_
        refine .after (.expect _) (progresses_expect _).advances fun _ => ?_
        exact .spanFrom fun s => hrest _
      · refine .after .identifier progresses_identifier.advances fun p => ?_
        dsimp only
        split
        · exact hrest _
        · exact hrest _

/-- Every round takes an operator. -/
theorem same_unary (h : SameBelow n operand operand') (hfuel : n ≤ fuel) (hfuel' : n ≤ fuel') :
    SameBelow n (unary operand fuel) (unary operand' fuel') := by
  induction n, fuel, fuel', hfuel, hfuel' using fuel_induction with
  | zero => exact .zero
  | succ n fuel fuel' hfuel hfuel' ih =>
      have hrest := ih (h.mono (Nat.le_succ n))
      refine .look fun t => ?_
      split
      · rename_i op hop
        have heof : t.kind ≠ .eof := by
          intro heof
          rw [heof] at hop
          cases hop
        refine .take heof (.look fun u => .ite (fun _ => ?_) fun _ => ?_)
        · exact .refl (.bind .take fun _ => .pure _)
        · exact (hrest.bindSame fun _ => .pure _).at_ _
      · refine .ite (fun hplus => ?_) fun _ => h.at_ _
        rw [hplus]
        exact .take (by simp) hrest

/-- Both the operand on the right and what comes after it stand behind an operator. -/
theorem same_climb (h : SameBelow n operand operand') (hoperand : Local operand operand)
    (hfuel : n ≤ fuel) (hfuel' : n ≤ fuel') (min : Precedence) (left : Expr) :
    SameBelow n (climb operand fuel min left) (climb operand' fuel' min left) := by
  induction n, fuel, fuel', hfuel, hfuel' using fuel_induction generalizing min left with
  | zero => exact .zero
  | succ n fuel fuel' hfuel hfuel' ih =>
      have hfirst := h.mono (Nat.le_succ n)
      have hrest := ih hfirst
      refine .kind fun k => ?_
      split
      · rename_i op hop
        refine .ite (fun _ => .refl (.pure _)) fun _ => .take (ne_eof_of_binaryOp? hop) ?_
        have hright := hfirst.bind hoperand.advances fun r => hrest op.precedence.next r
        exact hright.bind (local_binary hoperand fuel _).advances fun r => hrest _ _
      · exact .refl (.pure _)

theorem same_binary (h : SameBelow n operand operand') (hoperand : Local operand operand)
    (hfuel : n ≤ fuel) (hfuel' : n ≤ fuel') (min : Precedence) :
    SameBelow n (binary operand fuel min) (binary operand' fuel' min) :=
  h.bind hoperand.advances fun left => same_climb h hoperand hfuel hfuel' min left

/-- The part between the marks stands behind the first of them, and the part after the colon is
read by the next round. -/
theorem same_ternary {condition condition' : Parse Expr} (h : SameBelow n condition condition')
    (hcondition : Advances condition) (hinner : ∀ k, k < n → SameBelow k inner inner')
    (hadvances : Advances inner) (hfuel : n ≤ fuel) (hfuel' : n ≤ fuel') :
    SameBelow n (ternary condition inner fuel) (ternary condition' inner' fuel') := by
  induction n, fuel, fuel', hfuel, hfuel' using fuel_induction with
  | zero => exact .zero
  | succ n fuel fuel' hfuel hfuel' ih =>
      have hrest := ih (h.mono (Nat.le_succ n)) fun k hk => hinner k (Nat.lt_succ_of_lt hk)
      refine h.bind hcondition fun c => .eat ?_ (.refl (.pure _))
      refine (hinner n (Nat.lt_succ_self n)).bind hadvances fun t => ?_
      refine .after (.expect _) (progresses_expect _).advances fun _ => ?_
      exact hrest.bindSame fun _ => .pure _

/-- The value is read by the next round, behind an assignment operator. -/
theorem same_assignment {target target' : Parse Expr} (h : SameBelow n target target')
    (htarget : Advances target) (hfuel : n ≤ fuel) (hfuel' : n ≤ fuel') :
    SameBelow n (assignment target fuel) (assignment target' fuel') := by
  induction n, fuel, fuel', hfuel, hfuel' using fuel_induction with
  | zero => exact .zero
  | succ n fuel fuel' hfuel hfuel' ih =>
      have hrest := ih (h.mono (Nat.le_succ n))
      refine h.bind htarget fun t => .kind fun k => ?_
      split
      · rename_i op hop
        exact .take (ne_eof_of_assignOp? hop) (hrest.bindSame fun _ => .pure _)
      · exact .refl (.pure _)

/-- An expression inside another one has fewer tokens. -/
theorem same_expression (hfuel : n + 1 ≤ fuel) (hfuel' : n + 1 ≤ fuel') :
    SameBelow n (expression names fuel) (expression names fuel') := by
  induction n generalizing fuel fuel' with
  | zero => exact .zero
  | succ n ih =>
      obtain ⟨fuel, rfl⟩ : ∃ k, fuel = k + 1 := ⟨fuel - 1, by omega⟩
      obtain ⟨fuel', rfl⟩ : ∃ k, fuel' = k + 1 := ⟨fuel' - 1, by omega⟩
      have hinner := ih (Nat.le_of_succ_le_succ hfuel) (Nat.le_of_succ_le_succ hfuel')
      have hlocal := local_expression (alike_refl names) fuel
      have hadvances := hlocal.advances
      have hprimary := local_primary (alike_refl names) hlocal fuel
      have hsuffixed : SameBelow (n + 1) (suffixed names (expression names fuel) fuel)
          (suffixed names (expression names fuel') fuel') := by
        have hstrict := (sound_primary (sound_expression names fuel) fuel).progresses
          hprimary.advances
        refine (same_primary hinner hadvances (by omega) (by omega)).bindStrict hstrict fun e => ?_
        exact same_suffixes hinner hadvances (by omega) (by omega) e
      have hoperand : Local (suffixed names (expression names fuel) fuel) _ :=
        hprimary.bind fun e => local_suffixes hlocal (fuel + 1) e
      have hmore := Nat.le_of_succ_le hfuel
      have hmore' := Nat.le_of_succ_le hfuel'
      have hprefixed := same_unary hsuffixed hmore hmore'
      have hunary := local_unary hoperand (fuel + 1)
      have hcondition := same_binary hprefixed hunary hmore hmore' .or
      have hbinary := local_binary hunary (fuel + 1) .or
      have hternary := same_ternary hcondition hbinary.advances
        (fun k hk => hinner.mono (Nat.le_of_lt_succ hk)) hadvances hmore hmore'
      exact same_assignment hternary (local_ternary hbinary hlocal (fuel + 1)).advances hmore hmore'

end Expressions

section Statements

variable {inner inner' : Parse Stmt}

theorem same_condition (hfuel : n + 1 ≤ fuel) (hfuel' : n + 1 ≤ fuel') :
    SameBelow n (condition names fuel) (condition names fuel') := by
  refine .after (.expect _) (progresses_expect _).advances fun _ => ?_
  exact (same_expression hfuel hfuel').bindSame fun _ => .bind (.expect _) fun _ => .pure _

/-- The initializer is the only part that takes fuel. -/
theorem same_finishVariable (hfuel : n + 1 ≤ fuel) (hfuel' : n + 1 ≤ fuel') (start : Span)
    (isConst : Bool) (t : Ty) (name : String) :
    SameBelow n (finishVariable names fuel start isConst t name)
      (finishVariable names fuel' start isConst t name) := by
  have hend (initializer : Option Expr) : Settles (do
      expect .semicolon
      return Stmt.var (← spanFrom start) ⟨name, t, isConst, initializer⟩) :=
    .finishAfter _ _ _
  unfold finishVariable
  refine .after (.eat _) (Local.eat _).advances fun eq =>
    .ite (fun _ => ?_) fun _ => .refl (.bind (.pure _) fun _ => hend _)
  exact (same_expression hfuel hfuel').bindSame fun _ => .bind (.pure _) fun _ => hend _

theorem same_variableDeclaration (hfuel : n + 1 ≤ fuel) (hfuel' : n + 1 ≤ fuel') :
    SameBelow n (variableDeclaration names fuel) (variableDeclaration names fuel') := by
  refine .look fun start => SameBelow.at_ ?_ _
  refine .eatKeyword fun isConst => ?_
  refine .after (.type _) (progresses_type names).advances fun t => ?_
  refine .after .identifier progresses_identifier.advances fun p => ?_
  exact same_finishVariable hfuel hfuel' _ _ _ _

/-- Where the closing symbol stands no fuel is taken. -/
theorem same_expressionUnless (hfuel : n + 1 ≤ fuel) (hfuel' : n + 1 ≤ fuel') (close : Symbol) :
    SameBelow n (expressionUnless names fuel close) (expressionUnless names fuel' close) := by
  refine .kind fun k => .ite (fun _ => .refl (.pure _)) fun _ => ?_
  exact ((same_expression hfuel hfuel').bindSame fun _ => .pure _).at_ _

/-- What is between braces has fewer tokens than the whole. -/
theorem same_braced (h : SameBelow n inner inner') (hinner : Progresses inner) (hfuel : n ≤ fuel)
    (hfuel' : n ≤ fuel') : SameBelow (n + 1) (braced inner fuel) (braced inner' fuel') := by
  have hlist : SameBelow n (upTo (.symbol .rbrace) inner (fuel + 1))
      (upTo (.symbol .rbrace) inner' (fuel' + 1)) :=
    same_upTo _ h hinner (by omega) (by omega)
  exact .expect (hlist.bindSame fun _ => .bind (.expect _) fun _ => .pure _)

/-- The condition takes a parenthesis, so that the statement has fewer tokens. -/
theorem same_arm (h : SameBelow n inner inner') (hfuel : n + 2 ≤ fuel) (hfuel' : n + 2 ≤ fuel') :
    SameBelow (n + 1) (arm names inner fuel) (arm names inner' fuel') :=
  (same_condition hfuel hfuel').bindStrict (progresses_condition fuel) fun _ =>
    h.bindSame fun _ => .pure _

theorem same_moreArms (h : SameBelow n inner inner') (hinner : Advances inner)
    (hfuel : n + 1 ≤ fuel) (hfuel' : n + 1 ≤ fuel') {count count' : Nat} (hcount : n ≤ count)
    (hcount' : n ≤ count') :
    SameBelow n (moreArms names inner fuel count) (moreArms names inner' fuel' count') := by
  induction n, count, count', hcount, hcount' using fuel_induction with
  | zero => exact .zero
  | succ n count count' hcount hcount' ih =>
      have hrest := ih (h.mono (Nat.le_succ n)) (Nat.le_of_succ_le hfuel) (Nat.le_of_succ_le hfuel')
      refine .eatKeyword fun more => .ite (fun _ => ?_) fun _ => .refl (.pure _)
      refine .eatKeyword fun another => .ite (fun _ => ?_) fun _ => h.bindSame fun _ => .pure _
      have harm : SameBelow (n + 1) (arm names inner fuel) (arm names inner' fuel') :=
        same_arm (h.mono (Nat.le_succ n)) hfuel hfuel'
      exact harm.bindStrict (progresses_arm hinner fuel) fun a => hrest.bindSame fun _ => .pure _

/-- The first clause of a `for` is a declaration or an expression. -/
theorem same_forInit (hfuel : n + 1 ≤ fuel) (hfuel' : n + 1 ≤ fuel') :
    SameBelow n (forInit names fuel) (forInit names fuel') := by
  refine .after (.eat _) (Local.eat _).advances fun empty => .ite (fun _ => .refl (.pure _)) ?_
  intro _
  refine .kind fun k => SameBelow.at_ ?_ _
  refine .after (.atDeclaration _) (Local.atDeclaration (alike_refl names)).advances
    fun declared => ?_
  refine .ite (fun _ => ?_) fun _ => .look fun start => SameBelow.at_ ?_ _
  · exact (same_variableDeclaration hfuel hfuel').bindSame fun _ => .pure _
  · exact (same_expression hfuel hfuel').bindSame fun _ => .finishAfter _ _ _

/-- The body stands behind a parenthesis, so that it has fewer tokens than the whole. -/
theorem same_forLoop (h : SameBelow n inner inner') (hfuel : n + 1 ≤ fuel)
    (hfuel' : n + 1 ≤ fuel') :
    SameBelow (n + 1) (forLoop names inner fuel) (forLoop names inner' fuel') := by
  have hclause (close : Symbol) := (local_expressionUnless (alike_refl names) fuel close).advances
  refine .look fun start => SameBelow.at_ ?_ _
  refine .after .take Local.take.advances fun _ => .expect ?_
  refine (same_forInit hfuel hfuel').bind (local_forInit (alike_refl names) fuel).advances ?_
  intro init
  refine (same_expressionUnless hfuel hfuel' _).bind (hclause _) fun test => ?_
  refine .after (.expect _) (progresses_expect _).advances fun _ => ?_
  refine (same_expressionUnless hfuel hfuel' _).bind (hclause _) fun step => ?_
  exact .after (.expect _) (progresses_expect _).advances fun _ => h.bindSame fun _ => .finish _ _

theorem same_optionalBody {items items' : Parse (List Stmt)} (h : SameBelow n items items') :
    SameBelow n (optionalBody items) (optionalBody items') :=
  .look fun _ => (h.bindSame fun _ => .finish _ _).at_ _

/-- The alternative is read by the next round, behind the keyword. -/
theorem same_optional {items items' : Parse (List Stmt)} (h : SameBelow n items items')
    (hitems : Closes items items) (hfuel : n + 1 ≤ fuel) (hfuel' : n + 1 ≤ fuel')
    {count count' : Nat} (hcount : n ≤ count) (hcount' : n ≤ count') :
    SameBelow n (optional names items fuel count) (optional names items' fuel' count') := by
  induction n, count, count', hcount, hcount' using fuel_induction with
  | zero => exact .zero
  | succ n count count' hcount hcount' ih =>
      have hbody := same_optionalBody (h.mono (Nat.le_succ n))
      have hnext := ih (h.mono (Nat.le_succ n)) (Nat.le_of_succ_le hfuel) (Nat.le_of_succ_le hfuel')
      have hcondition : SameBelow n (condition names fuel) (condition names fuel') :=
        same_condition (Nat.le_of_succ_le hfuel) (Nat.le_of_succ_le hfuel')
      have hend (start : Token) (c : Expr) (body : Stmt) (otherwise : Option Stmt) : Settles (do
          let otherwise ← pure otherwise
          return Stmt.optional (← spanFrom start.span) c body otherwise) :=
        .bind (.pure otherwise) fun _ => .finish _ _
      unfold optional
      dsimp only
      refine .look fun start => SameBelow.at_ ?_ _
      refine (SameBelow.refl (.expectKeyword _)).bindStrict (progresses_expectKeyword _) fun _ => ?_
      refine hcondition.bind (progresses_condition fuel).advances fun c => ?_
      refine hbody.bind (closes_optionalBody hitems).isLocal.advances fun body => ?_
      refine .eatKeyword fun more => .ite (fun _ => ?_) fun _ => .refl (hend _ _ _ none)
      refine .kind fun k => SameBelow.at_ (.ite (fun _ => ?_) fun _ => ?_) _
      · exact hnext.bindSame fun s => hend _ _ _ (some s)
      · exact hbody.bindSame fun s => hend _ _ _ (some s)

/-- A statement inside another one has fewer tokens. -/
theorem same_statement (hfuel : n + 2 ≤ fuel) (hfuel' : n + 2 ≤ fuel') :
    SameBelow n (statement names fuel) (statement names fuel') := by
  induction n generalizing fuel fuel' with
  | zero => exact .zero
  | succ n ih =>
      obtain ⟨fuel, rfl⟩ : ∃ k, fuel = k + 1 := ⟨fuel - 1, by omega⟩
      obtain ⟨fuel', rfl⟩ : ∃ k, fuel' = k + 1 := ⟨fuel' - 1, by omega⟩
      have hfuel : n + 2 ≤ fuel := Nat.le_of_succ_le_succ hfuel
      have hfuel' : n + 2 ≤ fuel' := Nat.le_of_succ_le_succ hfuel'
      have hless : n + 1 ≤ fuel := Nat.le_of_succ_le hfuel
      have hless' : n + 1 ≤ fuel' := Nat.le_of_succ_le hfuel'
      have hinner := ih hfuel hfuel'
      have hprogress := progresses_statement names fuel
      have hbraced := same_braced hinner hprogress (Nat.le_of_succ_le hless)
        (Nat.le_of_succ_le hless')
      have hcondition : SameBelow (n + 1) (condition names fuel) (condition names fuel') :=
        same_condition hfuel hfuel'
      have hdeclaration : SameBelow (n + 1) (variableDeclaration names fuel)
          (variableDeclaration names fuel') := same_variableDeclaration hfuel hfuel'
      unfold statement
      dsimp only
      refine .look fun start => ?_
      split
      · exact (hbraced.bindSame fun _ => .finish _ _).at_ _
      · refine SameBelow.at_ (.after .take Local.take.advances fun _ => ?_) _
        refine (same_arm hinner hfuel hfuel').bindStrict (progresses_arm hprogress.advances fuel) ?_
        intro first
        have hmore : SameBelow n (moreArms names _ fuel (fuel + 1))
            (moreArms names _ fuel' (fuel' + 1)) :=
          same_moreArms hinner hprogress.advances hless hless' (by omega) (by omega)
        exact hmore.bindSame fun _ => .finish _ _
      · exact (same_forLoop hinner hless hless').at_ _
      · refine SameBelow.at_ (.after .take Local.take.advances fun _ => ?_) _
        refine hcondition.bindStrict (progresses_condition fuel) fun c => ?_
        exact hinner.bindSame fun _ => .finish _ _
      · rename_i hdo
        rw [hdo]
        refine .take (by simp) (hinner.bind hprogress.advances fun body => ?_)
        refine .after (.expectKeyword _) (Local.expectKeyword _).advances fun _ => ?_
        exact (hcondition.mono (Nat.le_succ n)).bindSame fun _ => .finishAfter _ _ _
      · exact .refl (.bind .take fun _ => .finishAfter _ _ _)
      · exact .refl (.bind .take fun _ => .finishAfter _ _ _)
      · exact .refl (.bind .take fun _ => .finishAfter _ _ _)
      · refine SameBelow.at_ (.after .take Local.take.advances fun _ => ?_) _
        exact (same_expressionUnless hfuel hfuel' _).bindSame fun _ => .finishAfter _ _ _
      · have hclosed := closes_braced (local_statement (alike_refl names) fuel) fuel
        exact (same_optional hbraced hclosed hfuel hfuel' hless hless').at_ _
      · exact hdeclaration.at_ _
      · have hat := (Local.atDeclaration (alike_refl names)).advances
        refine SameBelow.at_ (.after (.atDeclaration _) hat
          fun declared => .ite (fun _ => hdeclaration) fun _ => ?_) _
        exact (same_expression hfuel hfuel').bindSame fun _ => .finishAfter _ _ _

end Statements

section Items

/-- The arguments of an attribute are a list between commas. -/
theorem same_oneAttribute (hfuel : n ≤ fuel) (hfuel' : n ≤ fuel') :
    SameBelow n (oneAttribute fuel) (oneAttribute fuel') := by
  have hlist : SameBelow n (separated attributeArgument (fuel + 1))
      (separated attributeArgument (fuel' + 1)) :=
    same_separated (.refl .attributeArgument) local_attributeArgument.advances (by omega) (by omega)
  refine .look fun t => SameBelow.at_ ?_ _
  refine .after .identifier progresses_identifier.advances fun p => ?_
  refine .after (.eat _) (Local.eat _).advances fun paren => .ite (fun _ => ?_) fun _ => ?_
  · exact hlist.bindSame fun _ => .finishAfter _ _ _
  · exact .refl (.finish _ _)

/-- Every round takes a bracket. -/
theorem same_attributeGroups (hfuel : n ≤ fuel) (hfuel' : n ≤ fuel') :
    SameBelow n (attributeGroups fuel) (attributeGroups fuel') := by
  induction n, fuel, fuel', hfuel, hfuel' using fuel_induction with
  | zero => exact .zero
  | succ n fuel fuel' hfuel hfuel' ih =>
      have hgroup : SameBelow n (separated (oneAttribute fuel) (fuel + 1))
          (separated (oneAttribute fuel') (fuel' + 1)) :=
        same_separated (same_oneAttribute hfuel hfuel') (local_oneAttribute fuel).advances
          (by omega) (by omega)
      have hgroups := (local_oneAttribute fuel).separated (fuel + 1)
      refine .eat ?_ (.refl (.pure _))
      refine hgroup.bind hgroups.advances fun group => ?_
      refine .after (.expect _) (progresses_expect _).advances fun _ => ?_
      exact ih.bindSame fun _ => .pure _

theorem same_attributes (hfuel : n ≤ fuel) (hfuel' : n ≤ fuel') :
    SameBelow n (attributes fuel) (attributes fuel') :=
  .look fun _ =>
    SameBelow.at_ ((same_attributeGroups (by omega) (by omega)).bindSame fun _ => .pure _) _

/-- Only the attributes take fuel. -/
theorem same_entryHead (hfuel : n ≤ fuel) (hfuel' : n ≤ fuel') :
    SameBelow n (entryHead names fuel) (entryHead names fuel') :=
  (same_attributes hfuel hfuel').bindSame fun _ => .bind (.type _) fun _ =>
    .bind .identifier fun _ => .pure _

theorem same_interfaceEntry (hfuel : n ≤ fuel) (hfuel' : n ≤ fuel') :
    SameBelow n (interfaceEntry names fuel) (interfaceEntry names fuel') :=
  (same_entryHead hfuel hfuel').bindSame fun head => .bind (.expect _) fun _ =>
    .bind (.checked head.1.neverSpent.failsWithin_slot) fun _ => .finish _ _

theorem same_externalEntry (hfuel : n ≤ fuel) (hfuel' : n ≤ fuel') :
    SameBelow n (externalEntry names fuel) (externalEntry names fuel') :=
  (same_entryHead hfuel hfuel').bindSame fun head => .bind (.expect _) fun _ =>
    .bind (.checked head.1.neverSpent.failsWithin_binding) fun _ => .finish _ _

theorem same_optionEntry (hfuel : n + 1 ≤ fuel) (hfuel' : n + 1 ≤ fuel') :
    SameBelow n (optionEntry names fuel) (optionEntry names fuel') := by
  have hhead : SameBelow n (entryHead names fuel) (entryHead names fuel') :=
    same_entryHead (Nat.le_of_succ_le hfuel) (Nat.le_of_succ_le hfuel')
  refine hhead.bind (local_entryHead (alike_refl names) fuel).advances fun head => ?_
  refine .checked (head.1.neverSpent.failsWithin_none _) fun _ => ?_
  refine .after (.eat _) (Local.eat _).advances fun eq => .ite (fun _ => ?_) fun _ => ?_
  · exact (same_expression hfuel hfuel').bindSame fun _ => .bind (.pure _) fun _ =>
      .finishAfter _ _ _
  · exact .refl (.bind (.pure _) fun _ => .finishAfter _ _ _)

theorem same_constEntry (hfuel : n + 1 ≤ fuel) (hfuel' : n + 1 ≤ fuel') :
    SameBelow n (constEntry names fuel) (constEntry names fuel') := by
  have hhead : SameBelow n (entryHead names fuel) (entryHead names fuel') :=
    same_entryHead (Nat.le_of_succ_le hfuel) (Nat.le_of_succ_le hfuel')
  refine hhead.bind (local_entryHead (alike_refl names) fuel).advances fun head => ?_
  refine .checked (head.1.neverSpent.failsWithin_none _) fun _ => ?_
  refine .after (.expect _) (progresses_expect _).advances fun _ => ?_
  exact (same_expression hfuel hfuel').bindSame fun _ => .finishAfter _ _ _

/-- Every entry of a block takes a token. -/
theorem same_entries {entry entry' : Parse α} (h : SameBelow n entry entry')
    (hentry : Progresses entry) (hfuel : n ≤ fuel) (hfuel' : n ≤ fuel') :
    SameBelow n (entries entry fuel) (entries entry' fuel') := by
  refine .after .take Local.take.advances fun _ => ?_
  refine .after (.expect _) (progresses_expect _).advances fun _ => ?_
  exact (same_upTo _ h hentry (by omega) (by omega)).bindSame fun _ =>
    .bind (.expect _) fun _ => .bind (.eat _) fun _ => .pure _

/-- Every field of a struct takes a token. -/
theorem same_struct (hfuel : n ≤ fuel) (hfuel' : n ≤ fuel') (start : Span) :
    SameBelow n (struct names fuel start) (struct names fuel' start) := by
  have hlist : SameBelow n (upTo (.symbol .rbrace) (structField names) (fuel + 1))
      (upTo (.symbol .rbrace) (structField names) (fuel' + 1)) :=
    same_upTo _ (.refl (.structField names)) (progresses_structField names) (by omega) (by omega)
  refine .after .take Local.take.advances fun _ => ?_
  refine .after .identifier progresses_identifier.advances fun p => ?_
  refine .after (.expect _) (progresses_expect _).advances fun _ => ?_
  exact hlist.bindSame fun _ => .bind (.expect _) fun _ => .bind (.eat _) fun _ => .finish _ _

/-- A parameter takes a token, and the body stands between braces. -/
theorem same_function (hfuel : n + 2 ≤ fuel) (hfuel' : n + 2 ≤ fuel') (as : Attributes) (t : Ty)
    (name : String) :
    SameBelow (n + 1) (function names fuel as t name) (function names fuel' as t name) := by
  have hlocal := local_parameter (alike_refl names)
  have hless : n + 1 ≤ fuel := Nat.le_of_succ_le hfuel
  have hless' : n + 1 ≤ fuel' := Nat.le_of_succ_le hfuel'
  have hlist : SameBelow (n + 1) (separated (parameter names) (fuel + 1))
      (separated (parameter names) (fuel' + 1)) :=
    same_separated (.refl (.parameter names)) hlocal.advances (by omega) (by omega)
  have hbody := same_braced (same_statement hfuel hfuel') (progresses_statement names fuel)
    (Nat.le_of_succ_le hless) (Nat.le_of_succ_le hless')
  have hrest (parameters : List Parameter) (entry : Option EntryPoint) : SameBelow (n + 1)
      (do
        expect .rparen
        let body ← braced (statement names fuel) fuel
        return Stmt.function (← spanFrom as.start.span) ⟨name, parameters, t, entry⟩ body)
      (do
        expect .rparen
        let body ← braced (statement names fuel') fuel'
        return Stmt.function (← spanFrom as.start.span) ⟨name, parameters, t, entry⟩ body) :=
    .after (.expect _) (progresses_expect _).advances fun _ => hbody.bindSame fun _ => .finish _ _
  unfold function
  dsimp only
  refine .checked as.neverSpent.failsWithin_entry fun entry => ?_
  refine .after (.expect _) (progresses_expect _).advances fun _ => .kind fun k => ?_
  refine SameBelow.at_ (.ite (fun _ => ?_) fun _ => ?_) _
  · exact .after (.pure _) (Local.pure _).advances fun parameters => hrest _ _
  · exact hlist.bind (hlocal.separated (fuel + 1)).advances fun parameters => hrest _ _

/-- Every round takes a point. -/
theorem same_libraryParts (hfuel : n ≤ fuel) (hfuel' : n ≤ fuel') :
    SameBelow n (libraryParts fuel) (libraryParts fuel') := by
  induction n, fuel, fuel', hfuel, hfuel' using fuel_induction with
  | zero => exact .zero
  | succ n fuel fuel' hfuel hfuel' ih =>
      refine .eat ?_ (.refl (.pure _))
      exact .after .identifier progresses_identifier.advances fun p => ih.bindSame fun _ => .pure _

theorem same_library (hfuel : n ≤ fuel) (hfuel' : n ≤ fuel') (start : Span) :
    SameBelow n (library fuel start) (library fuel' start) := by
  refine .after .take Local.take.advances fun _ => ?_
  refine .after .identifier progresses_identifier.advances fun p => ?_
  exact (same_libraryParts (by omega) (by omega)).bindSame fun _ => .finishAfter _ _ _

theorem advances_get : Advances (get : Parse Cursor) := by
  intro c a c' hrun
  cases hrun
  exact ⟨[], rfl, by simp⟩

/-- A declaration inside another one has fewer tokens. -/
theorem same_item (hfuel : n + 2 ≤ fuel) (hfuel' : n + 2 ≤ fuel') :
    SameBelow n (item names fuel) (item names fuel') := by
  induction n generalizing fuel fuel' with
  | zero => exact .zero
  | succ n ih =>
      obtain ⟨fuel, rfl⟩ : ∃ k, fuel = k + 1 := ⟨fuel - 1, by omega⟩
      obtain ⟨fuel', rfl⟩ : ∃ k, fuel' = k + 1 := ⟨fuel' - 1, by omega⟩
      have hfuel : n + 2 ≤ fuel := Nat.le_of_succ_le_succ hfuel
      have hfuel' : n + 2 ≤ fuel' := Nat.le_of_succ_le_succ hfuel'
      have hless : n + 1 ≤ fuel := Nat.le_of_succ_le hfuel
      have hless' : n + 1 ≤ fuel' := Nat.le_of_succ_le hfuel'
      have hbraced := same_braced (ih hfuel hfuel') (progresses_item names fuel)
        (Nat.le_of_succ_le hless) (Nat.le_of_succ_le hless')
      have hblock {α : Type} {entry entry' : Parse α} (h : SameBelow (n + 1) entry entry')
          (hentry : Progresses entry) (as : Attributes) (make : Span → List α → Stmt) :
          SameBelow (n + 1)
            (do
              checked (as.none .block)
              let es ← entries entry fuel
              return make (← spanFrom as.start.span) es)
            (do
              checked (as.none .block)
              let es ← entries entry' fuel'
              return make (← spanFrom as.start.span) es) :=
        .checked (as.neverSpent.failsWithin_none _) fun _ =>
          (same_entries h hentry hless hless').bindSame fun _ => .finish _ _
      unfold item
      dsimp only
      refine (same_attributes hless hless').bind (local_attributes fuel).advances fun as => ?_
      have hnone (target : AttributeTarget) := as.neverSpent.failsWithin_none target
      refine .look fun t => SameBelow.at_ ?_ _
      split
      · exact .checked (hnone _) fun _ => same_struct hless hless' _
      · exact hblock (same_interfaceEntry hless hless') (progresses_interfaceEntry names fuel) _ _
      · exact hblock (same_interfaceEntry hless hless') (progresses_interfaceEntry names fuel) _ _
      · exact hblock (same_externalEntry hless hless') (progresses_externalEntry names fuel) _ _
      · exact hblock (same_optionEntry hfuel hfuel') (progresses_optionEntry names fuel) _ _
      · refine .after .get advances_get fun c => .ite (fun _ => ?_) fun _ => ?_
        · exact hblock (same_constEntry hfuel hfuel') (progresses_constEntry names fuel) _ _
        · exact .checked (hnone _) fun _ => same_variableDeclaration hfuel hfuel'
      · have hclosed := closes_braced (closes_item (alike_refl names) fuel).isLocal fuel
        exact .checked (hnone _) fun _ => same_optional hbraced hclosed hfuel hfuel' hless hless'
      · exact .checked (hnone _) fun _ => same_library hless hless' _
      · refine .after (.type _) (progresses_type names).advances fun t => ?_
        refine .after .identifier progresses_identifier.advances fun p => ?_
        refine .kind fun k => SameBelow.at_ (.ite (fun _ => ?_) fun _ => ?_) _
        · exact same_function hfuel hfuel' as t p.1
        · exact .checked (hnone _) fun _ => same_finishVariable hfuel hfuel' _ _ _ _
      · exact .refl (.unexpected _)

/-- Every item of a file takes a token. -/
theorem same_file (hfuel : n + 2 ≤ fuel) (hfuel' : n + 2 ≤ fuel') :
    SameBelow n (file names fuel) (file names fuel') := by
  have hitems : SameBelow n (upTo .eof (item names fuel) (fuel + 1))
      (upTo .eof (item names fuel') (fuel' + 1)) :=
    same_upTo .eof (same_item hfuel hfuel') (progresses_item names fuel) (by omega) (by omega)
  refine .look fun start => SameBelow.at_ (hitems.bindSame fun items => ?_) _
  refine .bind .kind fun k => .ite ?_ (.unexpected _)
  split
  · exact .pure _
  · exact .finish _ _

end Items

end Parse

open Parse

section File

variable (registry : Registry) (tokens : List Token)

/-- Reading a file with one fuel for each token and three more is reading it with any more. -/
theorem same_readFile {fuel : Nat} (hfuel : tokens.length + 3 ≤ fuel) :
    SameOutcome (file (.ofTokens registry tokens) fuel (.ofTokens tokens))
      (file (.ofTokens registry tokens) (tokens.length + 4) (.ofTokens tokens)) :=
  same_file hfuel (Nat.le_succ (tokens.length + 3)) _ (Nat.lt_succ_self tokens.length)

/-- Any fuel above the number of tokens gives the outcome of reading a file. -/
theorem file_eq_parseTokens (fuel : Nat) (hfuel : tokens.length + 3 ≤ fuel) :
    (file (.ofTokens registry tokens) fuel (.ofTokens tokens)).map Prod.fst
      = parseTokens tokens registry := by
  rw [parseTokens, (same_readFile registry tokens hfuel).eq]
  cases file (.ofTokens registry tokens) (tokens.length + 4) (.ofTokens tokens) with
  | error e => rfl
  | ok out => rfl

/-- Reading a file comes to a tree or to an error of the grammar. -/
theorem parseTokens_settles :
    Except.FailsWithin (fun e => e.fault ≠ .spent) (parseTokens tokens registry) :=
  have hread := same_readFile registry tokens (Nat.le_succ (tokens.length + 3))
  hread.settled.andThen fun _ => .ok trivial

/-- The parser always makes progress. Reading a file ends by itself and never for want of fuel:
any larger bound on its loops and its nesting gives the same outcome. No production goes back or
takes an end of file, and every part of a list takes a token. -/
theorem parser_progresses :
    (∀ e, parseTokens tokens registry = .error e → e.fault ≠ .spent) ∧
    (∀ fuel, tokens.length + 3 ≤ fuel →
      (file (.ofTokens registry tokens) fuel (.ofTokens tokens)).map Prod.fst
        = parseTokens tokens registry) ∧
    ∀ names : Names, (∀ {α : Type} (m : Parse α), Production names m → Advances m) ∧
      Progresses (type names) ∧ Progresses (structField names) ∧
      ∀ fuel, Progresses (expression names fuel) ∧ Progresses (statement names fuel) ∧
        Progresses (item names fuel) ∧ Progresses (interfaceEntry names fuel) ∧
        Progresses (externalEntry names fuel) ∧ Progresses (optionEntry names fuel) ∧
        Progresses (constEntry names fuel) := by
  refine ⟨fun e he => (parseTokens_settles registry tokens).of_error he, ?_, ?_⟩
  · exact fun fuel hfuel => file_eq_parseTokens registry tokens fuel hfuel
  · intro names
    refine ⟨fun m h => h.advances, progresses_type names, progresses_structField names, ?_⟩
    intro fuel
    exact ⟨progresses_expression names fuel, progresses_statement names fuel,
      progresses_item names fuel, progresses_interfaceEntry names fuel,
      progresses_externalEntry names fuel, progresses_optionEntry names fuel,
      progresses_constEntry names fuel⟩

end File

end Shading
