import Mathlib.Tactic.Common
import Shading.Extract.Dependencies

/-!
# Variables that are collected

What collecting adds to the variables of a declaration: an expression adds the names it
mentions that no scope has, and it leaves the scopes as they are.
-/

namespace Shading

namespace Expr

mutual

/-- The variables that an expression mentions. -/
def references : Expr → List String
  | .constant _ _ => []
  | .ref _ name => [name]
  | .index _ base place => base.references ++ place.references
  | .field _ base _ | .swizzle _ base _ => base.references
  | .assign _ _ target value => target.references ++ value.references
  | .unary _ _ operand => operand.references
  | .binary _ _ left right => left.references ++ right.references
  | .call _ _ args | .builtin _ _ args | .cast _ _ args => referencesList args
  | .ternary _ c t f => c.references ++ t.references ++ f.references

def referencesList : List Expr → List String
  | [] => []
  | e :: es => e.references ++ referencesList es

end

end Expr

namespace Collector

/-- The variables found so far, externals among them. -/
def mentioned (c : Collector) : List String := c.found.values.names ++ c.found.externals.names

variable {c : Collector}

/-- Noting a name adds it to the names. -/
theorem mem_names_note (uses : Uses) (name : String) (span : Span) (n : String) :
    n ∈ (uses.note name span).names ↔ n ∈ uses.names ∨ n = name := by
  by_cases hused : (uses.lookup name).isSome
  · have hmem : name ∈ uses.names := by
      obtain ⟨s, hs⟩ := Option.isSome_iff_exists.mp hused
      rw [List.lookup_eq_some_iff] at hs
      obtain ⟨before, after, rfl, _⟩ := hs
      simp [Uses.names]
    rw [Uses.note, if_pos hused]
    constructor
    · exact .inl
    · rintro (h | rfl)
      · exact h
      · exact hmem
  · rw [Uses.note, if_neg hused]
    simp [Uses.names]

@[simp] theorem scopes_locateTypes (span : Span) : (c.locateTypes span).scopes = c.scopes := rfl

@[simp] theorem mentioned_locateTypes (span : Span) :
    (c.locateTypes span).mentioned = c.mentioned := rfl

@[simp] theorem scopes_type (t : Ty) : (c.type t).scopes = c.scopes := by
  rw [type]
  cases t.structName? <;> rfl

/-- A type mentions no value. -/
@[simp] theorem mentioned_type (t : Ty) : (c.type t).mentioned = c.mentioned := by
  rw [type]
  cases t.structName? <;> rfl

@[simp] theorem scopes_typeAt (t : Ty) (span : Span) : (c.typeAt t span).scopes = c.scopes := by
  rw [typeAt, scopes_type, scopes_locateTypes]

@[simp] theorem mentioned_typeAt (t : Ty) (span : Span) :
    (c.typeAt t span).mentioned = c.mentioned := by
  rw [typeAt, mentioned_type, mentioned_locateTypes]

@[simp] theorem scopes_call (name : String) (span : Span) :
    (c.call name span).scopes = c.scopes := rfl

@[simp] theorem mentioned_call (name : String) (span : Span) :
    (c.call name span).mentioned = c.mentioned := rfl

@[simp] theorem mentioned_declare (name : String) : (c.declare name).mentioned = c.mentioned := by
  rw [declare]
  split <;> rfl

@[simp] theorem mentioned_pushScope (names : List String) :
    (c.pushScope names).mentioned = c.mentioned := rfl

@[simp] theorem mentioned_popScope : c.popScope.mentioned = c.mentioned := rfl

@[simp] theorem scopes_reference (name : String) (span : Span) :
    (c.reference name span).scopes = c.scopes := by
  unfold reference
  split
  · rfl
  · split <;> rfl

/-- A reference mentions its name unless that is local. -/
theorem mem_mentioned_reference (name : String) (span : Span) (n : String) :
    n ∈ (c.reference name span).mentioned ↔
      n ∈ c.mentioned ∨ n = name ∧ c.isLocal n = false := by
  cases hlocal : c.isLocal name with
  | true =>
      rw [reference, hlocal, if_pos rfl]
      constructor
      · exact .inl
      · rintro (h | ⟨rfl, hn⟩)
        · exact h
        · rw [hlocal] at hn
          cases hn
  | false =>
      have hname : n = name ↔ n = name ∧ c.isLocal n = false := by
        constructor
        · rintro rfl
          exact ⟨rfl, hlocal⟩
        · exact And.left
      rw [← hname, reference, hlocal, if_neg Bool.false_ne_true]
      by_cases hext : name ∈ c.externals
      · simp only [hext, if_true, mentioned, List.mem_append, mem_names_note, or_assoc]
      · simp only [hext, if_false, mentioned, List.mem_append, mem_names_note, or_right_comm]

theorem isLocal_eq_of_scopes {c' : Collector} (h : c'.scopes = c.scopes) (n : String) :
    c'.isLocal n = c.isLocal n := by
  rw [isLocal, isLocal, h]

mutual

/-- An expression opens no scope. -/
@[simp] theorem scopes_expr (c : Collector) (e : Expr) : (c.expr e).scopes = c.scopes := by
  cases e with
  | constant _ _ => rfl
  | ref s name => rw [expr, scopes_reference]
  | index _ base place => rw [expr, scopes_expr, scopes_expr]
  | field _ base _ => rw [expr, scopes_expr]
  | swizzle _ base _ => rw [expr, scopes_expr]
  | assign _ _ target value => rw [expr, scopes_expr, scopes_expr]
  | unary _ _ operand => rw [expr, scopes_expr]
  | binary _ _ left right => rw [expr, scopes_expr, scopes_expr]
  | call s name args => rw [expr, scopes_exprs, scopes_call]
  | builtin _ _ args => rw [expr, scopes_exprs]
  | cast s target args => rw [expr, scopes_exprs, scopes_typeAt]
  | ternary _ q t f => rw [expr, scopes_expr, scopes_expr, scopes_expr]

@[simp] theorem scopes_exprs (c : Collector) (es : List Expr) :
    (c.exprs es).scopes = c.scopes := by
  cases es with
  | nil => rfl
  | cons e rest => rw [exprs, scopes_exprs, scopes_expr]

end

mutual

/-- An expression adds the names that it mentions and no scope has. -/
theorem mem_mentioned_expr (c : Collector) (e : Expr) (n : String) :
    n ∈ (c.expr e).mentioned ↔
      n ∈ c.mentioned ∨ n ∈ e.references ∧ c.isLocal n = false := by
  have hsame (c' : Collector) (h : c'.scopes = c.scopes) := isLocal_eq_of_scopes h n
  cases e with
  | constant _ _ => simp [expr, Expr.references]
  | ref s name => simp [expr, Expr.references, mem_mentioned_reference]
  | index _ base place =>
      rw [expr, mem_mentioned_expr, mem_mentioned_expr, hsame _ (scopes_expr c base),
        Expr.references, List.mem_append]
      tauto
  | field _ base _ => rw [expr, mem_mentioned_expr, Expr.references]
  | swizzle _ base _ => rw [expr, mem_mentioned_expr, Expr.references]
  | assign _ _ target value =>
      rw [expr, mem_mentioned_expr, mem_mentioned_expr, hsame _ (scopes_expr c target),
        Expr.references, List.mem_append]
      tauto
  | unary _ _ operand => rw [expr, mem_mentioned_expr, Expr.references]
  | binary _ _ left right =>
      rw [expr, mem_mentioned_expr, mem_mentioned_expr, hsame _ (scopes_expr c left),
        Expr.references, List.mem_append]
      tauto
  | call s name args =>
      rw [expr, mem_mentioned_exprs, hsame _ (scopes_call name s), Expr.references,
        mentioned_call]
  | builtin _ _ args => rw [expr, mem_mentioned_exprs, Expr.references]
  | cast s target args =>
      rw [expr, mem_mentioned_exprs, hsame _ (scopes_typeAt target s), Expr.references,
        mentioned_typeAt]
  | ternary _ q t f =>
      have hlast : ((c.expr q).expr t).scopes = c.scopes := by rw [scopes_expr, scopes_expr]
      rw [expr, mem_mentioned_expr, mem_mentioned_expr, mem_mentioned_expr, hsame _ hlast,
        hsame _ (scopes_expr c q), Expr.references, List.mem_append, List.mem_append]
      tauto

theorem mem_mentioned_exprs (c : Collector) (es : List Expr) (n : String) :
    n ∈ (c.exprs es).mentioned ↔
      n ∈ c.mentioned ∨ n ∈ Expr.referencesList es ∧ c.isLocal n = false := by
  cases es with
  | nil => simp [exprs, Expr.referencesList]
  | cons e rest =>
      rw [exprs, mem_mentioned_exprs, mem_mentioned_expr,
        isLocal_eq_of_scopes (scopes_expr c e), Expr.referencesList, List.mem_append]
      tauto

end

end Collector

end Shading
