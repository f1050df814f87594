import Shading.Proofs.Parse.Grammar
import Shading.Proofs.Parse.Takes

/-!
# Expressions that are read are derived

Whatever the expression parser reads, the tokens that it took derive the tree that it gives.
-/

namespace Shading

namespace Parse

variable {names : Names}

section Lists

variable {α : Type} {item : Parse α} {R : List Kind → α → Prop}

/-- A list between commas takes its items and the commas between them. -/
theorem takes_separated (hitem : Takes item fun ks a _ => R ks a) (fuel : Nat) :
    Takes (separated item fuel) fun ks as _ => ∃ parts : List (List Kind × α),
      parts ≠ [] ∧ ks = commas (parts.map Prod.fst) ∧ as = parts.map Prod.snd ∧
        ∀ p ∈ parts, R p.1 p.2 := by
  have hone {ks : List Kind} {a : α} (h : R ks a) : ∃ parts : List (List Kind × α),
      parts ≠ [] ∧ ks = commas (parts.map Prod.fst) ∧ [a] = parts.map Prod.snd ∧
        ∀ p ∈ parts, R p.1 p.2 :=
    ⟨[(ks, a)], by simp, rfl, rfl, by simpa using h⟩
  induction fuel with
  | zero => exact .spent
  | succ fuel ih =>
      refine .bind hitem fun ks a ha => .eat ?_ ?_
      · refine .bind ih fun ls as has => .pure fun _ => ?_
        obtain ⟨parts, hne, rfl, rfl, hall⟩ := has
        obtain ⟨p, ps, rfl⟩ := List.exists_cons_of_ne_nil hne
        refine ⟨(ks, a) :: p :: ps, by simp, by simp [commas], by simp, ?_⟩
        intro q hq
        rcases List.mem_cons.mp hq with rfl | hq
        · exact ha
        · exact hall q hq
      · exact .pure fun _ => by simpa using hone ha

end Lists

/-- The tokens are a list of arguments, each of which derives its tree. -/
def DerivesArguments (names : Names) (ks : List Kind) (es : List Expr) : Prop :=
  ∃ parts : List (List Kind × Expr), ks = argumentList (parts.map Prod.fst) ∧
    es.map Expr.erased = parts.map Prod.snd ∧ ∀ p ∈ parts, Derives names .assign p.1 p.2

/-- Whatever the production reads is derived at the level. -/
def Sound (names : Names) (level : Precedence) (m : Parse Expr) : Prop :=
  Takes m fun ks e _ => Derives names level ks e.erased

section Levels

variable {inner : Parse Expr} (hinner : Sound names .assign inner)
include hinner

/-- The arguments that are read are derived from their tokens. -/
theorem takes_arguments (fuel : Nat) :
    Takes (arguments inner fuel) fun ks es _ => DerivesArguments names ks es := by
  refine .expect (.eat ?_ ?_)
  · exact .pure fun _ => ⟨[], rfl, rfl, by simp⟩
  · refine .bind (takes_separated hinner _) fun ks es hes => .expect (.pure fun _ => ?_)
    obtain ⟨parts, -, rfl, rfl, hall⟩ := hes
    refine ⟨parts.map fun p => (p.1, p.2.erased), ?_, ?_, ?_⟩
    · simp [argumentList, Function.comp_def]
    · simp [Function.comp_def]
    · intro p hp
      obtain ⟨q, hq, rfl⟩ := List.mem_map.mp hp
      exact hall q hq

end Levels

/-- The tokens that brackets were read from. -/
theorem brackets_of_dimensions (previous : Span) (ts : List Token) (dims : List ArraySize)
    (c : Cursor) (h : dimensions previous ts = .ok (dims, c)) :
    ∃ ks, ts.map Token.kind = ks ++ c.kinds ∧ Brackets ks dims := by
  induction previous, ts using dimensions.induct generalizing dims c with
  | case1 previous bracket position close position' rest ih =>
      simp only [dimensions] at h
      obtain ⟨⟨ds, d⟩, hrun, hout⟩ := Except.bind_eq_ok_iff.mp h
      cases hout
      obtain ⟨ks, hks, hbrackets⟩ := ih _ _ hrun
      exact ⟨_, by simp [hks], .implicit hbrackets⟩
  | case2 previous bracket position size rest hsize hnone =>
      simp [dimensions, hnone] at h
  | case3 previous bracket position size hsize n hn close position' rest ih =>
      simp only [dimensions, hn] at h
      obtain ⟨⟨ds, d⟩, hrun, hout⟩ := Except.bind_eq_ok_iff.mp h
      cases hout
      obtain ⟨ks, hks, hbrackets⟩ := ih _ _ hrun
      exact ⟨_, by simp [hks], .fixed hn hbrackets⟩
  | case4 previous bracket position size hsize n hn rest hrest =>
      simp [dimensions, hn, unexpected] at h
  | case5 previous bracket position => simp [dimensions, unexpected] at h
  | case6 previous rest hrest =>
      rw [dimensions] at h
      · cases h
        exact ⟨[], rfl, .nil⟩
      · exact hrest

theorem Brackets.eof_notMem {ks : List Kind} {dims : List ArraySize} (h : Brackets ks dims) :
    .eof ∉ ks := by
  induction h with
  | nil => simp
  | implicit h ih => simpa using ih
  | @fixed k n ks dims hk h ih =>
      have hne : k ≠ .eof := by
        rintro rfl
        cases hk
      simpa [hne.symm] using ih

/-- The suffix of an array takes the brackets of its dimensions. -/
theorem takes_arraySuffix (base : Ty) :
    Takes (arraySuffix base) fun ks t _ => ∃ dims, Brackets ks dims ∧
      t = dims.foldr (fun size t => .array t size) base := by
  intro c t c' h
  obtain ⟨⟨dims, d⟩, hdims, hout⟩ := Except.bind_eq_ok_iff.mp h
  cases hout
  obtain ⟨ks, hks, hbrackets⟩ := brackets_of_dimensions c.previous c.rest dims _ hdims
  exact ⟨ks, hks, hbrackets.eof_notMem, dims, hbrackets, rfl⟩

section Levels

variable {inner : Parse Expr} (hinner : Sound names .assign inner)
include hinner

/-- A name is derived as a reference, a call or a cast. -/
theorem takes_named (fuel : Nat) (t : Token) (name : String) :
    TakesAt (.ident name) (named names inner fuel t name) fun ks e _ =>
      Derives names .primary ks e.erased := by
  unfold named
  split
  · rename_i base htype
    refine .take (by simp) (.bind (takes_arraySuffix base) fun bs target htarget => .kind fun k =>
      ?_)
    obtain ⟨dims, hdims, rfl⟩ := htarget
    refine .ite (fun _ => Takes.at_ ?_ _) fun _ => (Takes.unexpected _).at_ _
    refine .bind (takes_arguments hinner fuel) fun ks es hes => .spanFrom fun s => .pure fun _ => ?_
    obtain ⟨parts, rfl, hparts, hall⟩ := hes
    simpa [hparts] using Derives.cast htype hdims hall
  · rename_i htype
    refine .take (by simp) (.kind fun k => .ite (fun _ => Takes.at_ ?_ _) fun _ => Takes.at_ ?_ _)
    · refine .bind (takes_arguments hinner fuel) fun ks es hes => .spanFrom fun s => ?_
      obtain ⟨parts, rfl, hparts, hall⟩ := hes
      split
      · rename_i f hf
        refine .pure fun _ => ?_
        simpa [hparts] using Derives.builtin htype hf hall
      · rename_i hf
        refine .pure fun _ => ?_
        simpa [hparts] using Derives.call htype hf hall
    · exact .pure fun _ => .ref htype

/-- An operand that is read is derived from its tokens. -/
theorem sound_primary (fuel : Nat) : Sound names .primary (primary names inner fuel) := by
  refine .look fun t => ?_
  split
  · rename_i c hliteral
    exact .take (ne_eof_of_literal? hliteral) (.pure fun _ => .literal hliteral)
  · split
    · exact (Takes.failAt _ _).at_ _
    · rename_i heq
      rw [heq]
      exact .take (by simp) (.bind hinner fun ks e he => .expect (.pure fun _ => .parens he))
    · rename_i name heq
      rw [heq]
      exact takes_named hinner fuel t name
    · exact (Takes.failAt _ _).at_ _

/-- The suffixes after an expression continue its derivation. -/
theorem takes_suffixes (fuel : Nat) (e : Expr) :
    Takes (suffixes inner fuel e) fun ls e' _ => ∀ ks, Derives names .postfixed ks e.erased →
      Derives names .postfixed (ks ++ ls) e'.erased := by
  induction fuel generalizing e with
  | zero => exact .spent
  | succ fuel ih =>
      refine .eat ?_ (.eat ?_ ?_)
      · refine .bind hinner fun ps place hplace => .expect (.spanFrom fun s => ?_)
        refine (ih _).mono fun ls e' _ h ks he => ?_
        simpa using h _ (.index he hplace)
      · refine .identifier fun name span => ?_
        dsimp only
        split
        · rename_i selection hname
          refine (ih _).mono fun ls e' _ h ks he => ?_
          simpa using h _ (.swizzle he hname)
        · rename_i hname
          refine (ih _).mono fun ls e' _ h ks he => ?_
          simpa using h _ (.field he hname)
      · exact .pure fun _ ks h => by simpa using h

end Levels

/-- Signs before an operand are derived from the outside in. -/
theorem sound_unary {operand : Parse Expr} (hoperand : Sound names .postfixed operand)
    (fuel : Nat) : Sound names .unary (unary operand fuel) := by
  have hplain : Sound names .unary operand := hoperand.mono fun _ _ _ h => .tighter h
  induction fuel with
  | zero => exact .spent
  | succ fuel ih =>
      refine .look fun t => ?_
      split
      · rename_i op hop
        have heof : t.kind ≠ .eof := by
          intro heof
          rw [heof] at hop
          cases hop
        refine .take heof (.look fun u => .ite (fun hmin => ?_) fun _ => Takes.at_ ?_ _)
        · obtain ⟨rfl, hu⟩ := hmin
          have hminus : t.kind = .symbol .minus := by
            generalize t.kind = k at hop
            unfold unaryOp? at hop
            split at hop <;> first | rfl | cases hop
          rw [hu, hminus]
          exact .take (by simp) (.pure fun _ => .minInt)
        · exact .bind ih fun ks e he => .pure fun _ => by simpa using Derives.unary hop he
      · refine .ite (fun hplus => ?_) fun _ => hplain.at_ _
        rw [hplus]
        exact .take (by simp) (ih.mono fun _ _ _ h => .plus h)

/-- The operators after an operand continue its derivation. The operand is derived at a level
at which it may stand to the left of the first of them. -/
theorem takes_climb {operand : Parse Expr} (hoperand : Sound names .unary operand) (fuel : Nat)
    (min : Precedence) (left : Expr) :
    Takes (climb operand fuel min left) fun ls e rest => ∀ ks level, min ≤ level →
      Derives names level ks left.erased → NoOperator level.next (ls ++ rest) →
      Derives names min (ks ++ ls) e.erased ∧ NoOperator min rest := by
  induction fuel generalizing min left with
  | zero => exact .spent
  | succ fuel ih =>
      refine .kind fun k => ?_
      have hstop (hk : ∀ op, binaryOp? k = some op → op.precedence < min) :
          TakesAt k (pure left) fun ls e rest => ∀ ks level, min ≤ level →
            Derives names level ks left.erased → NoOperator level.next (ls ++ rest) →
            Derives names min (ks ++ ls) e.erased ∧ NoOperator min rest := by
        refine .pure fun rest hrest ks level hle h _ => ⟨?_, fun op hop => hk op (hrest ▸ hop)⟩
        simpa using h.weaken hle
      cases hop : binaryOp? k with
      | none => exact hstop (by simp [hop])
      | some op =>
          refine .ite (fun hlt => ?_) fun hmin => ?_
          · refine hstop fun op' hop' => ?_
            obtain rfl := Option.some.inj (hop.symm.trans hop')
            exact hlt
          · have hright : Takes (do climb operand fuel op.precedence.next (← operand))
                fun rs r rest => Derives names op.precedence.next rs r.erased ∧
                  NoOperator op.precedence.next rest := by
              refine .bind hoperand fun ks r hr => (ih _ r).mono fun ls e rest h => ?_
              exact h ks .unary (next_le_unary op) hr (noOperator_postfixed _)
            refine .take (ne_eof_of_binaryOp? hop) ?_
            refine .bindRest hright fun r => (ih min _).mono fun ls e rest h => ?_
            rintro rs ⟨hr, hrest⟩ ks level _ hleft hfollows
            have hlevel : op.precedence ≤ level := le_of_lt_next op (hfollows op hop)
            have hbinary : Derives names op.precedence (ks ++ k :: rs)
                (.binary .dummy op left.erased r.erased) :=
              .binary hop (hleft.weaken hlevel) hr
            have hloop := h (ks ++ k :: rs) op.precedence (Nat.le_of_not_lt hmin)
              (by simpa using hbinary) hrest
            simpa using hloop

/-- The operand and the operators after it derive a tree at the level. -/
theorem sound_binary {operand : Parse Expr} (hoperand : Sound names .unary operand) (fuel : Nat)
    {min : Precedence} (hmin : min ≤ .unary) : Sound names min (binary operand fuel min) := by
  refine .bind hoperand fun ks left hleft => (takes_climb hoperand fuel min left).mono ?_
  exact fun ls e rest h => (h ks .unary hmin hleft (noOperator_postfixed _)).1

/-- A ternary expression is derived from its three parts. -/
theorem sound_ternary {condition inner : Parse Expr} (hcondition : Sound names .or condition)
    (hinner : Sound names .assign inner) (fuel : Nat) :
    Sound names .ternary (ternary condition inner fuel) := by
  induction fuel with
  | zero => exact .spent
  | succ fuel ih =>
      refine .bind hcondition fun cs c hc => .eat ?_ ?_
      · refine .bind hinner fun ts t ht => .expect (.bind ih fun fs f hf => .pure fun _ => ?_)
        simpa using Derives.ternary hc ht hf
      · exact .pure fun _ => by simpa using Derives.tighter hc

/-- An assignment groups to the right. -/
theorem sound_assignment {target : Parse Expr} (htarget : Sound names .ternary target)
    (fuel : Nat) : Sound names .assign (assignment target fuel) := by
  induction fuel with
  | zero => exact .spent
  | succ fuel ih =>
      refine .bind htarget fun ts t ht => .kind fun k => ?_
      split
      · rename_i op hop
        exact .take (ne_eof_of_assignOp? hop) (.bind ih fun vs v hv => .pure fun _ => by
          simpa using Derives.assign hop ht hv)
      · exact Takes.at_ (.pure fun _ => by simpa using Derives.tighter ht) _

/-- The tokens of an expression that is read derive it, with any fuel. -/
theorem sound_expression (names : Names) (fuel : Nat) :
    Sound names .assign (expression names fuel) := by
  induction fuel with
  | zero => exact .spent
  | succ fuel ih =>
      have hsuffixed : Sound names .postfixed
          (do
            suffixes (expression names fuel) (fuel + 1)
              (← primary names (expression names fuel) fuel)) := by
        refine .bind (sound_primary ih fuel) fun ks e he => ?_
        exact (takes_suffixes ih _ e).mono fun ls e' _ h => h ks (.tighter he)
      have hoperand := sound_unary hsuffixed (fuel + 1)
      have hlevel : Precedence.or ≤ .unary := by decide
      have hcondition := sound_binary hoperand (fuel + 1) hlevel
      exact sound_assignment (sound_ternary hcondition ih _) _

end Parse

end Shading
