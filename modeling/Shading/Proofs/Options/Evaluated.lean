import Shading.Proofs.Options.Mentions

/-!
# What a condition evaluates

An operator evaluates all of its operands, also those that cannot change its result. The only
exception is the ternary, which leaves the arm that it does not select. So a variable without a
value makes a condition fail, unless the variable stands in such arms only, and then the
condition does not depend on it at all.
-/

namespace Shading

namespace Expr

variable {lookup lookup' : String → Span → Except SpecializeError Constant}

/-- The parts of an expression that are evaluated as long as none of them fails: all but those
in the arms that a ternary does not select. -/
inductive Evaluated (lookup : String → Span → Except SpecializeError Constant) :
    Expr → Expr → Prop where
  | self (e : Expr) : Evaluated lookup e e
  | operand {s : Span} {op : UnaryOp} {e part : Expr} (h : Evaluated lookup e part) :
      Evaluated lookup (.unary s op e) part
  | left {s : Span} {op : BinaryOp} {l r part : Expr} (h : Evaluated lookup l part) :
      Evaluated lookup (.binary s op l r) part
  | right {s : Span} {op : BinaryOp} {l r part : Expr} (h : Evaluated lookup r part) :
      Evaluated lookup (.binary s op l r) part
  | condition {s : Span} {c t f part : Expr} (h : Evaluated lookup c part) :
      Evaluated lookup (.ternary s c t f) part
  | whenTrue {s : Span} {c t f part : Expr} (hc : c.evaluate lookup = .ok (.bool true))
      (h : Evaluated lookup t part) : Evaluated lookup (.ternary s c t f) part
  | whenFalse {s : Span} {c t f part : Expr} (hc : c.evaluate lookup = .ok (.bool false))
      (h : Evaluated lookup f part) : Evaluated lookup (.ternary s c t f) part

/-- The whole fails with each of its evaluated parts. -/
theorem Evaluated.fails {e part : Expr} (h : e.Evaluated lookup part) {fault : SpecializeError}
    (hpart : part.evaluate lookup = .error fault) :
    ∃ fault', e.evaluate lookup = .error fault' := by
  induction h with
  | self => exact ⟨fault, hpart⟩
  | operand _ ih =>
      obtain ⟨fault', hfault⟩ := ih hpart
      exact ⟨fault', by rw [evaluate, hfault, Except.error_bind]⟩
  | left _ ih =>
      obtain ⟨fault', hfault⟩ := ih hpart
      exact ⟨fault', by rw [evaluate, hfault, Except.error_bind]⟩
  | @right _ _ l _ _ _ ih =>
      obtain ⟨fault', hfault⟩ := ih hpart
      cases hl : l.evaluate lookup with
      | error first => exact ⟨first, by rw [evaluate, hl, Except.error_bind]⟩
      | ok _ => exact ⟨fault', by rw [evaluate, hl, hfault, Except.ok_bind, Except.error_bind]⟩
  | condition _ ih =>
      obtain ⟨fault', hfault⟩ := ih hpart
      exact ⟨fault', by rw [evaluate, hfault, Except.error_bind]⟩
  | whenTrue hc _ ih =>
      obtain ⟨fault', hfault⟩ := ih hpart
      exact ⟨fault', by rw [evaluate, hc, Except.ok_bind, hfault]⟩
  | whenFalse hc _ ih =>
      obtain ⟨fault', hfault⟩ := ih hpart
      exact ⟨fault', by rw [evaluate, hc, Except.ok_bind, hfault]⟩

/-- No part of an expression that has a value fails. -/
theorem Evaluated.succeeds {e part : Expr} (hpart : e.Evaluated lookup part) {c : Constant}
    (hc : e.evaluate lookup = .ok c) : ∃ d, part.evaluate lookup = .ok d := by
  cases hresult : part.evaluate lookup with
  | ok d => exact ⟨d, rfl⟩
  | error _ =>
      obtain ⟨fault, hfault⟩ := hpart.fails hresult
      rw [hc] at hfault
      cases hfault

/-- Only the variables that are evaluated are looked up. -/
theorem evaluate_eq_of_evaluated (e : Expr)
    (h : ∀ n span, e.Evaluated lookup (.ref span n) → lookup' n span = lookup n span) :
    e.evaluate lookup' = e.evaluate lookup := by
  cases e with
  | ref s n => exact h n s (.self _)
  | unary s op e =>
      rw [evaluate, evaluate, evaluate_eq_of_evaluated e fun n span hn => h n span (.operand hn)]
  | binary s op l r =>
      rw [evaluate, evaluate, evaluate_eq_of_evaluated l fun n span hn => h n span (.left hn),
        evaluate_eq_of_evaluated r fun n span hn => h n span (.right hn)]
  | ternary s c t f =>
      rw [evaluate, evaluate,
        evaluate_eq_of_evaluated c fun n span hn => h n span (.condition hn)]
      cases hc : c.evaluate lookup with
      | error _ => rfl
      | ok value =>
          rw [Except.ok_bind, Except.ok_bind]
          cases value with
          | bool b =>
              cases b with
              | true => exact evaluate_eq_of_evaluated t fun n span hn => h n span (.whenTrue hc hn)
              | false =>
                  exact evaluate_eq_of_evaluated f fun n span hn => h n span (.whenFalse hc hn)
          | int _ | uint _ | float _ => rfl
  | _ => rfl

/-- Built from constants, variables and operators that evaluate all of their operands. -/
def Strict : Expr → Prop
  | .constant _ _ | .ref _ _ => True
  | .unary _ _ e => e.Strict
  | .binary _ _ l r => l.Strict ∧ r.Strict
  | _ => False

/-- Without a ternary every variable is evaluated. -/
theorem Strict.evaluated {e : Expr} (h : e.Strict) {n : String} {span : Span}
    (hn : Node.expr (.ref span n) ∈ e.nodes) : e.Evaluated lookup (.ref span n) := by
  cases e with
  | constant s v => simp [nodes] at hn
  | ref s m =>
      obtain ⟨rfl, rfl⟩ : span = s ∧ n = m := by simpa [nodes] using hn
      exact .self _
  | unary s op e =>
      have hoperand : Node.expr (.ref span n) ∈ e.nodes := by simpa [nodes] using hn
      exact .operand (Strict.evaluated (e := e) h hoperand)
  | binary s op l r =>
      have hsides : Node.expr (.ref span n) ∈ l.nodes ∨ Node.expr (.ref span n) ∈ r.nodes := by
        simpa [nodes] using hn
      rcases hsides with hl | hr
      · exact .left (Strict.evaluated h.1 hl)
      · exact .right (Strict.evaluated h.2 hr)
  | _ => exact h.elim

/-- A condition fails whenever a variable that it evaluates has no value, whatever its other
operands evaluate to; without a ternary these are all of its variables. What the lookup says of
any other variable does not change the outcome. -/
theorem evaluateCondition_demands (lookup : String → Span → Except SpecializeError Constant)
    (e : Expr) :
    (∀ n span fault, e.Evaluated lookup (.ref span n) → lookup n span = .error fault →
      ∃ fault', e.evaluateCondition lookup = .error fault') ∧
    (e.Strict → ∀ n span, Node.expr (.ref span n) ∈ e.nodes →
      e.Evaluated lookup (.ref span n)) ∧
    ∀ lookup', (∀ n span, e.Evaluated lookup (.ref span n) → lookup' n span = lookup n span) →
      e.evaluateCondition lookup' = e.evaluateCondition lookup := by
  refine ⟨fun n span fault hn hnone => ?_, fun h n span hn => h.evaluated hn, fun lookup' h => ?_⟩
  · obtain ⟨fault', hfault⟩ := hn.fails hnone
    exact ⟨fault', by rw [evaluateCondition, hfault, Except.error_bind]⟩
  · rw [evaluateCondition, evaluateCondition, evaluate_eq_of_evaluated e h]

/-- `S && (true ? T : U)`: the conjunction is false with `S`, and `T` is evaluated nevertheless. -/
def conjunction : Expr :=
  .binary Span.dummy .and (.ref Span.dummy "S")
    (.ternary Span.dummy (.constant Span.dummy (.bool true)) (.ref Span.dummy "T")
      (.ref Span.dummy "U"))

/-- A conjunction evaluates its right side even where the left one is false. -/
theorem conjunction_demands :
    ∃ p fault, Permutation.of ⟨[("S", .bool false)], ⟨false, false⟩, .newest⟩
        (.block Span.dummy []) = .ok p ∧
      conjunction.Evaluated p.lookup (.ref Span.dummy "T") ∧
      p.lookup "T" Span.dummy = .error (.unresolvedOption "T" Span.dummy) ∧
      conjunction.evaluateCondition p.lookup = .error fault := by
  obtain ⟨p, hp, hselected, hnone⟩ :
      ∃ p, Permutation.of ⟨[("S", .bool false)], ⟨false, false⟩, .newest⟩ (.block Span.dummy []) =
          .ok p ∧
        (Expr.constant Span.dummy (.bool true)).evaluate p.lookup = .ok (.bool true) ∧
        p.lookup "T" Span.dummy = .error (.unresolvedOption "T" Span.dummy) :=
    ⟨_, rfl, rfl, rfl⟩
  have hevaluated : conjunction.Evaluated p.lookup (.ref Span.dummy "T") :=
    .right (.whenTrue hselected (.self _))
  obtain ⟨fault, hfault⟩ :=
    (evaluateCondition_demands p.lookup conjunction).1 "T" Span.dummy _ hevaluated hnone
  exact ⟨p, fault, hp, hevaluated, hnone, hfault⟩

/-- In `true ? true : T` the option `T` needs no value. -/
example : (Expr.ternary Span.dummy (.constant Span.dummy (.bool true))
    (.constant Span.dummy (.bool true)) (.ref Span.dummy "T")).evaluateCondition
      Permutation.noOptions = .ok true := rfl

end Expr

end Shading
