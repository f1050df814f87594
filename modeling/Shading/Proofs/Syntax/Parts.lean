import Mathlib.Data.List.Nodup
import Shading.Syntax.Node

/-!
# The parts of a tree

One table says what stands directly in each form: its span, its types, its expressions and its
statements. From it every part of a tree has a place, and a walk that takes each part before the
parts in it comes to every place exactly once.
-/

namespace Shading

/-- What a walk can come to: a node, or a span that is stored. -/
inductive Part where
  | node (n : Node)
  | span (s : Span)

namespace Part

/-- A statement as a part. -/
abbrev stmt (s : Stmt) : Part := .node (.stmt s)

/-- An expression as a part. -/
abbrev expr (e : Expr) : Part := .node (.expr e)

/-- A type as a part. -/
abbrev type (t : Ty) : Part := .node (.type t)

/-- The node, if the part is one. -/
def node? : Part → Option Node
  | .node n => some n
  | .span _ => none

/-- The span, if the part is one. -/
def span? : Part → Option Span
  | .node _ => none
  | .span s => some s

end Part

/-- The parts of an expression in reading order. -/
def Expr.parts : Expr → List Part
  | .constant s _ | .ref s _ => [.span s]
  | .index s base place => [.span s, .expr base, .expr place]
  | .field s base _ | .swizzle s base _ => [.span s, .expr base]
  | .assign s _ target value => [.span s, .expr target, .expr value]
  | .unary s _ operand => [.span s, .expr operand]
  | .binary s _ left right => [.span s, .expr left, .expr right]
  | .call s _ args | .builtin s _ args => .span s :: args.map .expr
  | .cast s target args => .span s :: .type target :: args.map .expr
  | .ternary s c t f => [.span s, .expr c, .expr t, .expr f]

def InterfaceVariable.parts (v : InterfaceVariable) : List Part := [.span v.span, .type v.type]

def ExternalVariable.parts (v : ExternalVariable) : List Part := [.span v.span, .type v.type]

/-- A span, a type and the default if there is one. -/
def OptionDeclaration.parts (d : OptionDeclaration) : List Part :=
  .span d.span :: .type d.type :: d.default.toList.map .expr

/-- A span, a type and the value. -/
def ConstDeclaration.parts (d : ConstDeclaration) : List Part :=
  [.span d.span, .type d.type, .expr d.value]

def Parameter.parts (p : Parameter) : List Part := [.span p.span, .type p.type]

/-- The parts of the parameters, then the type of the result. -/
def Signature.parts (f : Signature) : List Part :=
  f.parameters.flatMap Parameter.parts ++ [.type f.returnType]

/-- The parts of a statement in reading order; those of a signature stand in the signature. -/
def Stmt.parts : Stmt → List Part
  | .branch s arms otherwise =>
    .span s :: (arms.flatMap fun arm => [.expr arm.1, .stmt arm.2]) ++ otherwise.toList.map .stmt
  | .forLoop s init condition step body =>
    .span s :: init.toList.map .stmt ++ condition.toList.map .expr ++ step.toList.map .expr ++
      [.stmt body]
  | .whileLoop s condition body | .doWhile s body condition =>
    [.span s, .expr condition, .stmt body]
  | .var s d => .span s :: .type d.type :: d.initializer.toList.map .expr
  | .struct s d => .span s :: d.fields.map (.type ·.type)
  | .inputs s entries | .outputs s entries => .span s :: entries.flatMap InterfaceVariable.parts
  | .externals s entries => .span s :: entries.flatMap ExternalVariable.parts
  | .options s entries => .span s :: entries.flatMap OptionDeclaration.parts
  | .consts s entries => .span s :: entries.flatMap ConstDeclaration.parts
  | .function s f body => .span s :: .node (.function f) :: body.map .stmt
  | .expr s e => [.span s, .expr e]
  | .ret s value => .span s :: value.toList.map .expr
  | .leaveLoop s | .nextRound s | .discard s | .library s _ => [.span s]
  | .block s items => .span s :: items.map .stmt
  | .optional s condition body otherwise =>
    .span s :: .expr condition :: .stmt body :: otherwise.toList.map .stmt

namespace Part

/-- The parts that stand directly in a part. -/
def parts : Part → List Part
  | .node (.stmt s) => s.parts
  | .node (.expr e) => e.parts
  | .node (.function f) => f.parts
  | .node (.type _) | .span _ => []

/-- The part at a place: each number leads to a part of the part before. -/
def at? (p : Part) : List Nat → Option Part
  | [] => some p
  | n :: place => p.parts[n]?.bind (·.at? place)

/-- The visits are what is wanted of the parts in a part, and no place is visited twice or left
out. -/
def VisitedOnce {α : Type} (p : Part) (wanted : Part → Option α) (visits : List α) : Prop :=
  ∃ places : List (List Nat), places.Nodup ∧
    (∀ place, place ∈ places ↔ ((p.at? place).bind wanted).isSome = true) ∧
    places.map (fun place => (p.at? place).bind wanted) = visits.map some

/-- As for one part, for parts that stand side by side. -/
def ListedOnce (ps visits : List Part) : Prop :=
  ∃ places : List (Nat × List Nat), places.Nodup ∧
    (∀ n place, (n, place) ∈ places ↔ (ps[n]?.bind (·.at? place)).isSome = true) ∧
    places.map (fun place => ps[place.1]?.bind (·.at? place.2)) = visits.map some

theorem listedOnce_nil : ListedOnce [] [] := ⟨[], List.nodup_nil, by simp, rfl⟩

theorem ListedOnce.cons {p : Part} {ps visits rest : List Part} (hp : p.VisitedOnce some visits)
    (hps : ListedOnce ps rest) : ListedOnce (p :: ps) (visits ++ rest) := by
  obtain ⟨inner, hinner, hall, hvisits⟩ := hp
  obtain ⟨outer, houter, hothers, hrest⟩ := hps
  simp only [Option.bind_fun_some] at hall hvisits
  have hfirst : Function.Injective fun place : List Nat => (0, place) :=
    fun _ _ h => (Prod.mk.inj h).2
  have hlater : Function.Injective fun place : Nat × List Nat => (place.1 + 1, place.2) := by
    rintro ⟨n, place⟩ ⟨m, place'⟩ h
    obtain ⟨hn, hplace⟩ := Prod.mk.inj h
    exact Prod.ext (Nat.succ.inj hn) hplace
  refine ⟨inner.map (fun place => (0, place)) ++ outer.map fun place => (place.1 + 1, place.2),
    ?_, fun n place => ?_, ?_⟩
  · refine (hinner.map hfirst).append (houter.map hlater) ?_
    rw [List.disjoint_left]
    intro place hplace hplace'
    obtain ⟨a, -, rfl⟩ := List.mem_map.mp hplace
    obtain ⟨b, -, hb⟩ := List.mem_map.mp hplace'
    cases (Prod.mk.inj hb).1
  · cases n with
    | zero => simp [hall]
    | succ n => simp [← hothers]
  · rw [List.map_append, List.map_append, List.map_map, List.map_map]
    exact congrArg₂ (· ++ ·) hvisits hrest

theorem ListedOnce.flatMap {visits : Part → List Part} {ps : List Part}
    (h : ∀ p ∈ ps, p.VisitedOnce some (visits p)) : ListedOnce ps (ps.flatMap visits) := by
  induction ps with
  | nil => exact listedOnce_nil
  | cons p ps ih =>
      rw [List.flatMap_cons]
      exact .cons (h p List.mem_cons_self) (ih fun q hq => h q (List.mem_cons_of_mem p hq))

/-- A part is visited at its root and then in its parts. -/
theorem ListedOnce.visitedOnce {p : Part} {rest : List Part} (h : ListedOnce p.parts rest) :
    p.VisitedOnce some (p :: rest) := by
  obtain ⟨places, hnodup, hall, hrest⟩ := h
  have hcons : Function.Injective fun place : Nat × List Nat => place.1 :: place.2 := by
    rintro ⟨n, place⟩ ⟨m, place'⟩ h
    obtain ⟨hn, hplace⟩ := List.cons.inj h
    exact Prod.ext hn hplace
  refine ⟨[] :: places.map fun place => place.1 :: place.2, ?_, fun place => ?_, ?_⟩
  · refine List.nodup_cons.mpr ⟨?_, hnodup.map hcons⟩
    simp
  · rw [Option.bind_fun_some]
    cases place with
    | nil => simp [at?]
    | cons n place =>
        rw [at?, ← hall]
        simp
  · simp only [Option.bind_fun_some, List.map_cons, List.map_map, ← hrest]
    rfl

variable {visits : Part → List Part}

/-- Where a walk takes each part before the parts in it, what holds of a part whenever it holds of
the parts in it holds of all. -/
theorem induction_of_visits (hvisits : ∀ p, visits p = p :: p.parts.flatMap visits)
    {motive : Part → Prop} (step : ∀ p, (∀ q ∈ p.parts, motive q) → motive p) (p : Part) :
    motive p := by
  -- The parts in a part are visited after it, so each of them has fewer visits.
  obtain ⟨n, hn⟩ : ∃ n, (visits p).length < n := ⟨_, Nat.lt_succ_self _⟩
  induction n generalizing p with
  | zero => cases hn
  | succ n ih =>
      refine step p fun q hq => ih q ?_
      have hle : (visits q).length ≤ (p.parts.flatMap visits).length := by
        rw [List.flatMap_def]
        exact (List.sublist_flatten_of_mem (List.mem_map_of_mem hq)).length_le
      rw [hvisits p, List.length_cons] at hn
      omega

theorem visitedOnce_of_visits (hvisits : ∀ p, visits p = p :: p.parts.flatMap visits) (p : Part) :
    p.VisitedOnce some (visits p) := by
  induction p using induction_of_visits hvisits with
  | step p ih =>
      rw [hvisits p]
      exact (ListedOnce.flatMap ih).visitedOnce

/-- To visit all parts once is to visit those of one sort once. -/
theorem VisitedOnce.filterMap {α : Type} {p : Part} {visits : List Part}
    (h : p.VisitedOnce some visits) (wanted : Part → Option α) :
    p.VisitedOnce wanted (visits.filterMap wanted) := by
  obtain ⟨places, hnodup, hall, hvisits⟩ := h
  simp only [Option.bind_fun_some] at hall hvisits
  refine ⟨places.filter fun place => ((p.at? place).bind wanted).isSome, hnodup.filter _,
    fun place => ?_, ?_⟩
  · rw [List.mem_filter, hall]
    cases p.at? place <;> simp
  · clear hnodup hall
    induction places generalizing visits with
    | nil =>
        obtain rfl := List.map_eq_nil_iff.mp hvisits.symm
        rfl
    | cons place places ih =>
        cases visits with
        | nil => cases hvisits
        | cons q visits =>
            obtain ⟨hq, hrest⟩ := List.cons.inj hvisits
            have hwanted : (p.at? place).bind wanted = wanted q :=
              congrArg (Option.bind · wanted) hq
            rw [List.filter_cons, List.filterMap_cons, hwanted]
            cases hsome : wanted q with
            | none => exact ih hrest
            | some a =>
                rw [Option.isSome_some, if_pos rfl, List.map_cons, ih hrest, hwanted, hsome]
                rfl

end Part

end Shading
