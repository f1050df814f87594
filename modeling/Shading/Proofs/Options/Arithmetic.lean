import Shading.Proofs.Options.Evaluated
import Shading.Proofs.Options.Meaning

/-!
# The arithmetic of conditions

Where no float occurs, a condition is computed exactly: its value is that over the unbounded
integers, and so is that of every part that is evaluated, all of them in range. It fails exactly
when an operator in it meets operands that it is not defined for.
-/

namespace Shading

namespace Expr

variable {lookup : String → Span → Except SpecializeError Constant}

/-- Built by operators from constants and from variables that have values, without floats. -/
def Integral (lookup : String → Span → Except SpecializeError Constant) : Expr → Prop
  | .constant _ value => value.primitive ≠ .float
  | .ref span name => ∃ value, lookup name span = .ok value ∧ value.primitive ≠ .float
  | .unary _ _ e => e.Integral lookup
  | .binary _ _ l r => l.Integral lookup ∧ r.Integral lookup
  | .ternary _ c t f => c.Integral lookup ∧ t.Integral lookup ∧ f.Integral lookup
  | _ => False

/-- The value of an expression over the unbounded integers, whatever leaves its range on the
way. -/
def meaning? (lookup : String → Span → Except SpecializeError Constant) : Expr → Option Meaning
  | .constant _ value => value.meaning?
  | .ref span name =>
    match lookup name span with
    | .ok value => value.meaning?
    | .error _ => none
  | .unary _ op e => (e.meaning? lookup).bind (Meaning.unary? op)
  | .binary _ op l r =>
    (l.meaning? lookup).bind fun v => (r.meaning? lookup).bind (Meaning.binary? op v)
  | .ternary _ c t f =>
    match c.meaning? lookup with
    | some (.bool true) => t.meaning? lookup
    | some (.bool false) => f.meaning? lookup
    | _ => none
  | _ => none

/-- The outermost operator is not defined for its operands. -/
def Faulty (lookup : String → Span → Except SpecializeError Constant) : Expr → Prop
  | .unary _ op e => ∃ v, e.meaning? lookup = some v ∧ Meaning.UnaryFault op v
  | .binary _ op l r =>
    ∃ v w, l.meaning? lookup = some v ∧ r.meaning? lookup = some w ∧ Meaning.BinaryFault op v w
  | .ternary _ c _ _ => ∃ v, c.meaning? lookup = some v ∧ v.kind ≠ .bool
  | _ => False

/-- How the evaluation of an expression ends: with its meaning and without a fault of its
outermost operator, or because of a faulty part. -/
inductive Outcome (lookup : String → Span → Except SpecializeError Constant) (e : Expr) :
    Except SpecializeError Constant → Prop where
  | value {c : Constant} {v : Meaning} (hc : c.meaning? = some v)
      (hv : e.meaning? lookup = some v) (h : ¬e.Faulty lookup) : Outcome lookup e (.ok c)
  | fault {part : Expr} {fault : SpecializeError} (hpart : e.Evaluated lookup part)
      (h : part.Faulty lookup) : Outcome lookup e (.error fault)

/-- A value that is not floating point has an exact meaning. -/
theorem exists_meaning? {c : Constant} (h : c.primitive ≠ .float) : ∃ v, c.meaning? = some v := by
  cases c with
  | float _ => exact absurd rfl h
  | bool _ | int _ | uint _ => exact ⟨_, rfl⟩

/-- A constant is its own outcome. The lemmas below do the same for every form of expression. -/
theorem outcome_constant {s : Span} {value : Constant} (h : value.primitive ≠ .float) :
    Outcome lookup (.constant s value) ((Expr.constant s value).evaluate lookup) := by
  obtain ⟨v, hv⟩ := exists_meaning? h
  exact .value hv hv id

theorem outcome_ref {s : Span} {n : String} {value : Constant} (hn : lookup n s = .ok value)
    (h : value.primitive ≠ .float) :
    Outcome lookup (.ref s n) ((Expr.ref s n).evaluate lookup) := by
  obtain ⟨v, hv⟩ := exists_meaning? h
  rw [evaluate, hn]
  exact .value hv (by rw [meaning?, hn]; exact hv) id

theorem outcome_unary {s : Span} {op : UnaryOp} {e : Expr}
    (h : Outcome lookup e (e.evaluate lookup)) :
    Outcome lookup (.unary s op e) ((Expr.unary s op e).evaluate lookup) := by
  rw [evaluate]
  generalize e.evaluate lookup = operand at h ⊢
  cases h with
  | fault hpart h => exact .fault (.operand hpart) h
  | @value c v hc hv _ =>
      rw [Except.ok_bind]
      have hrenders := Constant.renders_unary? op hc
      -- The result is a variable now, so that the cases of `hrenders` determine it.
      generalize Constant.unary? op c = result at hrenders ⊢
      cases hrenders with
      | missing h => exact .fault (.self _) ⟨v, hv, h⟩
      | result hresult hexact hfine =>
          refine .value hresult (by rw [meaning?, hv]; exact hexact) ?_
          rintro ⟨v', hv', h⟩
          obtain rfl : v' = v := Option.some.inj (hv'.symm.trans hv)
          exact hfine h

/-- A binary expression fails where a side does or where the exact result is a fault. -/
theorem outcome_binary {s : Span} {op : BinaryOp} {l r : Expr}
    (hl : Outcome lookup l (l.evaluate lookup)) (hr : Outcome lookup r (r.evaluate lookup)) :
    Outcome lookup (.binary s op l r) ((Expr.binary s op l r).evaluate lookup) := by
  rw [evaluate]
  generalize l.evaluate lookup = left at hl ⊢
  generalize r.evaluate lookup = right at hr ⊢
  cases hl with
  | fault hpart h => exact .fault (.left hpart) h
  | @value c v hc hv _ =>
      rw [Except.ok_bind]
      cases hr with
      | fault hpart h => exact .fault (.right hpart) h
      | @value d w hd hw _ =>
          rw [Except.ok_bind]
          have hrenders := Constant.renders_binary? op hc hd
          generalize Constant.binary? op c d = result at hrenders ⊢
          cases hrenders with
          | missing h => exact .fault (.self _) ⟨v, w, hv, hw, h⟩
          | result hresult hexact hfine =>
              refine .value hresult (by rw [meaning?, hv, hw]; exact hexact) ?_
              rintro ⟨v', w', hv', hw', h⟩
              obtain rfl : v' = v := Option.some.inj (hv'.symm.trans hv)
              obtain rfl : w' = w := Option.some.inj (hw'.symm.trans hw)
              exact hfine h

/-- A ternary whose condition has a value is no fault itself; only its selected side may be. -/
theorem not_faulty_ternary {s : Span} {c t f : Expr} {b : Bool}
    (hc : c.meaning? lookup = some (.bool b)) : ¬(Expr.ternary s c t f).Faulty lookup := by
  rintro ⟨v, hv, h⟩
  obtain rfl : v = .bool b := Option.some.inj (hv.symm.trans hc)
  exact h rfl

theorem outcome_ternary {s : Span} {c t f : Expr}
    (hc : Outcome lookup c (c.evaluate lookup)) (ht : Outcome lookup t (t.evaluate lookup))
    (hf : Outcome lookup f (f.evaluate lookup)) :
    Outcome lookup (.ternary s c t f) ((Expr.ternary s c t f).evaluate lookup) := by
  rw [evaluate]
  generalize hcondition : c.evaluate lookup = condition at hc
  cases hc with
  | fault hpart h => exact .fault (.condition hpart) h
  | @value value v hvalue hv _ =>
      rw [Except.ok_bind]
      cases value with
      | bool b =>
          cases hvalue
          cases b with
          | true =>
              generalize t.evaluate lookup = arm at ht ⊢
              cases ht with
              | fault hpart h => exact .fault (.whenTrue hcondition hpart) h
              | value hd hw _ =>
                  exact .value hd (by rw [meaning?, hv]; exact hw) (not_faulty_ternary hv)
          | false =>
              generalize f.evaluate lookup = arm at hf ⊢
              cases hf with
              | fault hpart h => exact .fault (.whenFalse hcondition hpart) h
              | value hd hw _ =>
                  exact .value hd (by rw [meaning?, hv]; exact hw) (not_faulty_ternary hv)
      | int _ | uint _ =>
          cases hvalue
          exact .fault (.self _) ⟨_, hv, by simp [Meaning.kind]⟩
      | float _ => cases hvalue

/-- Every expression without floats ends in one of the two ways. -/
theorem outcome_evaluate {e : Expr} (h : e.Integral lookup) :
    Outcome lookup e (e.evaluate lookup) := by
  cases e with
  | constant s value => exact outcome_constant h
  | ref s n =>
      obtain ⟨value, hn, hvalue⟩ := h
      exact outcome_ref hn hvalue
  | unary s op e => exact outcome_unary (outcome_evaluate (e := e) h)
  | binary s op l r => exact outcome_binary (outcome_evaluate h.1) (outcome_evaluate h.2)
  | ternary s c t f =>
      exact outcome_ternary (outcome_evaluate h.1) (outcome_evaluate h.2.1)
        (outcome_evaluate h.2.2)
  | _ => exact h.elim

/-- What is evaluated inside an integral expression is integral. -/
theorem Evaluated.integral {e part : Expr} (hpart : e.Evaluated lookup part)
    (h : e.Integral lookup) : part.Integral lookup := by
  induction hpart with
  | self => exact h
  | operand _ ih => exact ih h
  | left _ ih => exact ih h.1
  | right _ ih => exact ih h.2
  | condition _ ih => exact ih h.1
  | whenTrue _ _ ih => exact ih h.2.1
  | whenFalse _ _ ih => exact ih h.2.2

/-- A value that is returned has the exact meaning, and nothing that was evaluated is at fault. -/
theorem outcome_of_ok {e : Expr} (h : e.Integral lookup) {c : Constant}
    (hc : e.evaluate lookup = .ok c) :
    ¬e.Faulty lookup ∧ ∃ v, c.meaning? = some v ∧ e.meaning? lookup = some v := by
  have houtcome := outcome_evaluate h
  rw [hc] at houtcome
  cases houtcome with
  | value hcv hv hfine => exact ⟨hfine, _, hcv, hv⟩

/-- An error that is returned comes from a part that was evaluated and is at fault. -/
theorem outcome_of_error {e : Expr} (h : e.Integral lookup) {fault : SpecializeError}
    (hfault : e.evaluate lookup = .error fault) :
    ∃ part, e.Evaluated lookup part ∧ part.Faulty lookup := by
  have houtcome := outcome_evaluate h
  rw [hfault] at houtcome
  cases houtcome with
  | fault hpart hfaulty => exact ⟨_, hpart, hfaulty⟩

/-- Where it succeeds, the evaluation gives the exact value, and the exact values of all the
parts that it evaluates are in range. It fails exactly if one of these parts has operands that
its operator is not defined for. -/
theorem evaluate_exact (lookup : String → Span → Except SpecializeError Constant) (e : Expr)
    (h : e.Integral lookup) :
    (∀ c, e.evaluate lookup = .ok c →
      (∃ v, c.meaning? = some v ∧ e.meaning? lookup = some v) ∧
        ∀ part, e.Evaluated lookup part → ∃ v, part.meaning? lookup = some v ∧ v.InRange) ∧
    ((∃ fault, e.evaluate lookup = .error fault) ↔
      ∃ part, e.Evaluated lookup part ∧ part.Faulty lookup) := by
  refine ⟨fun c hc => ⟨(outcome_of_ok h hc).2, fun part hpart => ?_⟩,
    fun ⟨fault, hfault⟩ => outcome_of_error h hfault, ?_⟩
  · obtain ⟨d, hd⟩ := hpart.succeeds hc
    obtain ⟨-, v, hdv, hv⟩ := outcome_of_ok (hpart.integral h) hd
    exact ⟨v, hv, Constant.inRange_of_meaning? hdv⟩
  · rintro ⟨part, hpart, hfaulty⟩
    cases hresult : e.evaluate lookup with
    | error fault => exact ⟨fault, rfl⟩
    | ok c =>
        obtain ⟨d, hd⟩ := hpart.succeeds hresult
        exact absurd hfaulty (outcome_of_ok (hpart.integral h) hd).1

/-- `N == 0 ? 1 / N : 2147483645 + N`. -/
def guarded : Expr :=
  .ternary Span.dummy
    (.binary Span.dummy .eq (.ref Span.dummy "N") (.constant Span.dummy (.int 0)))
    (.binary Span.dummy .div (.constant Span.dummy (.int 1)) (.ref Span.dummy "N"))
    (.binary Span.dummy .add (.constant Span.dummy (.int 2147483645)) (.ref Span.dummy "N"))

/-- The guarded division is not evaluated: two gives the greatest integer, and three overflows. -/
theorem guarded_exact :
    ∃ p q, Permutation.of ⟨[("N", .int 2)], ⟨false, false⟩, .newest⟩ (.block Span.dummy []) =
        .ok p ∧
      Permutation.of ⟨[("N", .int 3)], ⟨false, false⟩, .newest⟩ (.block Span.dummy []) = .ok q ∧
      guarded.Integral p.lookup ∧ guarded.Integral q.lookup ∧
      guarded.meaning? p.lookup = some (.int 2147483647) ∧
      guarded.evaluate p.lookup = .ok (.int 2147483647) ∧
      ∃ fault, guarded.evaluate q.lookup = .error fault := by
  obtain ⟨p, hp, hpN, hpvalue⟩ :
      ∃ p, Permutation.of ⟨[("N", .int 2)], ⟨false, false⟩, .newest⟩ (.block Span.dummy []) =
          .ok p ∧
        p.lookup "N" Span.dummy = .ok (.int 2) ∧
        guarded.evaluate p.lookup = .ok (.int 2147483647) := ⟨_, rfl, rfl, rfl⟩
  obtain ⟨q, hq, hqN, hqcondition⟩ :
      ∃ q, Permutation.of ⟨[("N", .int 3)], ⟨false, false⟩, .newest⟩ (.block Span.dummy []) =
          .ok q ∧
        q.lookup "N" Span.dummy = .ok (.int 3) ∧
        (Expr.binary Span.dummy .eq (.ref Span.dummy "N")
          (.constant Span.dummy (.int 0))).evaluate q.lookup = .ok (.bool false) :=
    ⟨_, rfl, rfl, rfl⟩
  have hpintegral : guarded.Integral p.lookup := by
    simp [guarded, Integral, hpN, Constant.primitive]
  have hqintegral : guarded.Integral q.lookup := by
    simp [guarded, Integral, hqN, Constant.primitive]
  obtain ⟨⟨v, hv, hmeaning⟩, -⟩ := (evaluate_exact p.lookup guarded hpintegral).1 _ hpvalue
  obtain rfl : Meaning.int 2147483647 = v := Option.some.inj hv
  have hsum : (Expr.binary Span.dummy .add (.constant Span.dummy (.int 2147483645))
      (.ref Span.dummy "N")).Faulty q.lookup := by
    refine ⟨.int 2147483645, .int 3, rfl, by rw [meaning?, hqN]; rfl, ?_⟩
    exact .outOfRange (by simp) (v := .int 2147483648) rfl (by simp [Meaning.InRange])
  exact ⟨p, q, hp, hq, hpintegral, hqintegral, hmeaning, hpvalue,
    (evaluate_exact q.lookup guarded hqintegral).2.mpr ⟨_, .whenFalse hqcondition (.self _), hsum⟩⟩

end Expr

end Shading
