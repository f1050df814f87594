import Shading.Syntax.Stmt

/-!
# Outlines

The spans of a tree without anything else, nested like its statements, expressions, entries and
parameters. An outline is well formed if all that is in a part lies in the part's span and the
parts that stand next to each other follow each other in the text.
-/

namespace Shading

/-- A span and the outlines of what is in it, in the order of the text. -/
inductive Outline where
  | node (span : Span) (parts : List Outline)

namespace Outline

/-- The span of the whole. -/
def span : Outline → Span
  | .node s _ => s

/-- What the outline is made of, in source order. -/
def parts : Outline → List Outline
  | .node _ parts => parts

mutual

/-- All that is in an outline, at any depth. -/
def inside : Outline → List Outline
  | .node _ parts => throughout parts

/-- Some outlines and all that is in them. -/
def throughout : List Outline → List Outline
  | [] => []
  | o :: os => o :: (o.inside ++ throughout os)

end

/-- A span of a source of the given size that covers all that is in it, its parts one after the
other. -/
structure Ordered (size : Nat) (o : Outline) : Prop where
  start_le_stop : o.span.start ≤ o.span.stop
  stop_le_size : o.span.stop ≤ size
  covers : ∀ p ∈ o.inside, o.span.start ≤ p.span.start ∧ p.span.stop ≤ o.span.stop
  siblings : o.parts.Pairwise (·.span.stop ≤ ·.span.start)

/-- Everything throughout the outline is ordered. -/
def WellFormed (size : Nat) (o : Outline) : Prop := ∀ p ∈ throughout [o], p.Ordered size

/-- The outlines lie one after the other between two offsets, and so do the parts of each
between its ends. -/
inductive Laid : Nat → Nat → List Outline → Prop
  | nil {lo hi : Nat} (h : lo ≤ hi) : Laid lo hi []
  | cons {lo hi : Nat} {s : Span} {parts os : List Outline} (hlo : lo ≤ s.start)
      (hparts : Laid s.start s.stop parts) (hos : Laid s.stop hi os) :
      Laid lo hi (.node s parts :: os)

namespace Laid

variable {lo mid hi : Nat} {os ps : List Outline}

theorem le (h : Laid lo hi os) : lo ≤ hi := by
  induction h with
  | nil h => exact h
  | cons hlo _ _ ihparts ihos => omega

theorem mono {lo' hi' : Nat} (h : Laid lo hi os) (hlo : lo' ≤ lo) (hhi : hi ≤ hi') :
    Laid lo' hi' os := by
  induction h generalizing lo' with
  | nil h => exact .nil (by omega)
  | cons hstart hparts _ _ ihos => exact .cons (by omega) hparts (ihos (Nat.le_refl _) hhi)

theorem append (h : Laid lo mid os) (h' : Laid mid hi ps) : Laid lo hi (os ++ ps) := by
  induction h with
  | nil h => exact h'.mono h (Nat.le_refl _)
  | cons hlo hparts _ _ ihos => exact .cons hlo hparts (ihos h')

/-- A span around outlines that lie in it. -/
theorem wrap {s : Span} (hparts : Laid s.start s.stop ps) (hlo : lo ≤ s.start)
    (hhi : s.stop ≤ hi) : Laid lo hi [.node s ps] :=
  .cons hlo hparts (.nil hhi)

theorem bounds (h : Laid lo hi os) :
    ∀ o ∈ throughout os, lo ≤ o.span.start ∧ o.span.stop ≤ hi := by
  induction h with
  | nil => simp [throughout]
  | @cons lo hi s parts os hlo hparts hos ihparts ihos =>
      have hinner := hparts.le
      have houter := hos.le
      intro o ho
      rw [throughout, List.mem_cons, List.mem_append] at ho
      rcases ho with rfl | ho | ho
      · exact ⟨hlo, houter⟩
      · obtain ⟨hstart, hstop⟩ := ihparts o ho
        exact ⟨by omega, by omega⟩
      · obtain ⟨hstart, hstop⟩ := ihos o ho
        exact ⟨by omega, hstop⟩

theorem mem_throughout {o : Outline} (h : o ∈ os) : o ∈ throughout os := by
  induction os with
  | nil => cases h
  | cons p os ih =>
      rw [throughout, List.mem_cons, List.mem_append]
      rcases List.mem_cons.mp h with rfl | h
      · exact .inl rfl
      · exact .inr (.inr (ih h))

/-- The room before the first outline can be left out. -/
theorem first {o : Outline} (h : Laid lo hi (o :: os)) :
    lo ≤ o.span.start ∧ Laid o.span.start hi (o :: os) := by
  cases h with
  | cons hlo hparts hos => exact ⟨hlo, .cons (Nat.le_refl _) hparts hos⟩

/-- The room after the last outline can be left out. -/
theorem last (os : List Outline) {o : Outline} (h : Laid lo hi (os ++ [o])) :
    o.span.stop ≤ hi ∧ Laid lo o.span.stop (os ++ [o]) := by
  induction os generalizing lo with
  | nil =>
      cases h with
      | cons hlo hparts hos => exact ⟨hos.le, .cons hlo hparts (.nil (Nat.le_refl _))⟩
  | cons p os ih =>
      cases h with
      | cons hlo hparts hos => exact ⟨(ih hos).1, .cons hlo hparts (ih hos).2⟩

theorem pairwise (h : Laid lo hi os) : os.Pairwise (·.span.stop ≤ ·.span.start) := by
  induction h with
  | nil => exact .nil
  | cons _ _ hos _ ihos =>
      exact List.pairwise_cons.mpr ⟨fun o ho => (hos.bounds o (mem_throughout ho)).1, ihos⟩

/-- Outlines that are laid out in a source are well formed. -/
theorem ordered {size : Nat} (h : Laid lo hi os) (hsize : hi ≤ size) :
    ∀ o ∈ throughout os, o.Ordered size := by
  induction h with
  | nil => simp [throughout]
  | @cons lo hi s parts os hlo hparts hos ihparts ihos =>
      have hstop : s.stop ≤ size := Nat.le_trans hos.le hsize
      intro o ho
      rw [throughout, List.mem_cons, List.mem_append] at ho
      rcases ho with rfl | ho | ho
      · exact ⟨hparts.le, hstop, hparts.bounds, hparts.pairwise⟩
      · exact ihparts hstop o ho
      · exact ihos hsize o ho

end Laid

end Outline

namespace Expr

mutual

/-- The outline of an expression. -/
def outline : Expr → Outline
  | .constant s _ | .ref s _ => .node s []
  | .index s base place => .node s [base.outline, place.outline]
  | .field s base _ | .swizzle s base _ => .node s [base.outline]
  | .assign s _ target value => .node s [target.outline, value.outline]
  | .unary s _ operand => .node s [operand.outline]
  | .binary s _ left right => .node s [left.outline, right.outline]
  | .call s _ args | .builtin s _ args | .cast s _ args => .node s (outlines args)
  | .ternary s c t f => .node s [c.outline, t.outline, f.outline]

/-- The outlines of expressions, one for each. -/
def outlines : List Expr → List Outline
  | [] => []
  | e :: es => e.outline :: outlines es

end

def outlineOption : Option Expr → List Outline
  | none => []
  | some e => [e.outline]

@[simp] theorem span_outline (e : Expr) : e.outline.span = e.span := by
  cases e <;> rfl

theorem outlines_eq_flatMap (es : List Expr) : outlines es = es.flatMap fun e => [e.outline] := by
  induction es with
  | nil => rfl
  | cons e es ih => rw [outlines, ih, List.flatMap_cons, List.singleton_append]

end Expr

/-- The outline of an input or output, which has no parts. -/
def InterfaceVariable.outline (v : InterfaceVariable) : Outline := .node v.span []

/-- The outline of an external variable, which has no parts. -/
def ExternalVariable.outline (v : ExternalVariable) : Outline := .node v.span []

/-- The outline of an option, with its default for a part. -/
def OptionDeclaration.outline (d : OptionDeclaration) : Outline :=
  .node d.span (Expr.outlineOption d.default)

/-- The outline of a constant, with its value for a part. -/
def ConstDeclaration.outline (d : ConstDeclaration) : Outline := .node d.span [d.value.outline]

/-- The outline of a parameter, which has no parts. -/
def Parameter.outline (p : Parameter) : Outline := .node p.span []

namespace Stmt

mutual

/-- The clauses of a loop and the arms of a branch stand as they are written, the condition of
a `do` after its body. -/
def outline : Stmt → Outline
  | .branch s arms otherwise => .node s (outlinesArms arms ++ outlineOption otherwise)
  | .forLoop s init condition step body =>
    .node s (outlineOption init ++ Expr.outlineOption condition ++ Expr.outlineOption step ++
      [body.outline])
  | .whileLoop s condition body => .node s [condition.outline, body.outline]
  | .doWhile s body condition => .node s [body.outline, condition.outline]
  | .var s d => .node s (Expr.outlineOption d.initializer)
  | .struct s _ | .leaveLoop s | .nextRound s | .discard s | .library s _ => .node s []
  | .inputs s entries | .outputs s entries => .node s (entries.map InterfaceVariable.outline)
  | .externals s entries => .node s (entries.map ExternalVariable.outline)
  | .options s entries => .node s (entries.map OptionDeclaration.outline)
  | .consts s entries => .node s (entries.map ConstDeclaration.outline)
  | .function s f body => .node s (f.parameters.map Parameter.outline ++ outlines body)
  | .expr s e => .node s [e.outline]
  | .ret s value => .node s (Expr.outlineOption value)
  | .block s items => .node s (outlines items)
  | .optional s condition body otherwise =>
    .node s (condition.outline :: body.outline :: outlineOption otherwise)

/-- The outlines of statements, one for each. -/
def outlines : List Stmt → List Outline
  | [] => []
  | s :: ss => s.outline :: outlines ss

def outlinesArms : List (Expr × Stmt) → List Outline
  | [] => []
  | (c, s) :: rest => c.outline :: s.outline :: outlinesArms rest

def outlineOption : Option Stmt → List Outline
  | none => []
  | some s => [s.outline]

end

@[simp] theorem span_outline (s : Stmt) : s.outline.span = s.span := by
  cases s <;> rfl

theorem outlines_eq_flatMap (ss : List Stmt) : outlines ss = ss.flatMap fun s => [s.outline] := by
  induction ss with
  | nil => rfl
  | cons s ss ih => rw [outlines, ih, List.flatMap_cons, List.singleton_append]

end Stmt

end Shading
