import Shading.Proofs.Syntax.Copy
import Shading.Proofs.Syntax.UpToSpans
import Shading.Proofs.Syntax.Walks

/-!
# The traversals miss nothing

The walk that reads a tree and the walk that may relabel it come to the same nodes in the same
order, each once. The second comes to every span once, so that it can erase the spans and nothing
else. A copy is the tree itself, and is equal to it unless a literal is not a number.
-/

namespace Shading

namespace Part

/-- The part without its places. -/
def erased : Part → Part
  | .node n => .node n.erased
  | .span _ => .span .dummy

/-- A part that is a statement is erased as one. The other kinds of part are alike. -/
@[simp] theorem erased_stmt (s : Stmt) : (stmt s).erased = .stmt s.eraseSpans := rfl

@[simp] theorem erased_expr (e : Expr) : (expr e).erased = .expr e.erased := rfl

@[simp] theorem erased_function (f : Signature) :
    (node (.function f)).erased = .node (.function f.erased) := rfl

@[simp] theorem erased_type (t : Ty) : (type t).erased = .type t := rfl

@[simp] theorem erased_span (s : Span) : (span s).erased = .span .dummy := rfl

end Part

theorem Expr.parts_erased (e : Expr) : e.erased.parts = e.parts.map Part.erased := by
  cases e <;> simp [parts]

theorem Signature.parts_erased (f : Signature) : f.erased.parts = f.parts.map Part.erased := by
  simp [parts, erased, Parameter.parts, Parameter.erased, List.flatMap_map, List.map_flatMap]

/-- The parts of an erased statement are its parts, each erased. -/
theorem Stmt.parts_eraseSpans (s : Stmt) : s.eraseSpans.parts = s.parts.map Part.erased := by
  cases s with
  | branch p arms otherwise =>
      simp [parts, erasedArm, List.flatMap_map, List.map_flatMap, Option.toList_map]
  | inputs p vs | outputs p vs =>
      simp [parts, InterfaceVariable.parts, InterfaceVariable.erased, List.flatMap_map,
        List.map_flatMap]
  | externals p vs =>
      simp [parts, ExternalVariable.parts, ExternalVariable.erased, List.flatMap_map,
        List.map_flatMap]
  | options p ds =>
      simp [parts, OptionDeclaration.parts, OptionDeclaration.erased, List.flatMap_map,
        List.map_flatMap, Option.toList_map, Function.comp_def]
  | consts p ds =>
      simp [parts, ConstDeclaration.parts, ConstDeclaration.erased, List.flatMap_map,
        List.map_flatMap]
  | _ => simp [parts, VariableDeclaration.erased, Option.toList_map, Function.comp_def]

namespace Part

theorem parts_erased (p : Part) : p.erased.parts = p.parts.map erased := by
  match p with
  | .node (.stmt s) => exact s.parts_eraseSpans
  | .node (.expr e) => exact e.parts_erased
  | .node (.function f) => exact f.parts_erased
  | .node (.type t) | .span s => rfl

/-- A place leads to the same part, with its span erased. -/
theorem at?_erased (p : Part) (place : List Nat) :
    p.erased.at? place = (p.at? place).map erased := by
  induction place generalizing p with
  | nil => rfl
  | cons n place ih =>
      rw [at?, at?, parts_erased, List.getElem?_map]
      cases p.parts[n]? with
      | none => rfl
      | some q => exact ih q

end Part

/-- Whether the node is a literal that is not a number. -/
def Node.isNaN : Node → Bool
  | .expr (.constant _ (.float x)) => x.isNaN
  | _ => false

/-- A constant equals itself unless it is a floating-point value that is no number. -/
theorem Constant.same_self (v : Constant) (s : Span) :
    v.same v = !(Node.expr (.constant s v)).isNaN := by
  cases v with
  | float x =>
      rw [same, Binary32.same, Binary32.compare?, Bool.or_self, Node.isNaN]
      cases x.isNaN <;> simp
  | _ => simp [same, Node.isNaN]

/-- Whether the tree at a part is equal to itself. -/
def Part.sameSelf : Part → Bool
  | .node (.stmt s) => s.same s
  | .node (.expr e) => e.same e
  | _ => true

theorem Expr.sameList_self (es : List Expr) : sameList es es = es.all fun e => e.same e := by
  induction es with
  | nil => rfl
  | cons e es ih => rw [sameList, ih, List.all_cons]

theorem Expr.sameOption_self (e : Option Expr) :
    sameOption e e = e.toList.all fun e => e.same e := by
  cases e <;> simp [sameOption]

theorem sameBy_self {α : Type} (eq : α → α → Bool) (as : List α) :
    sameBy eq as as = as.all fun a => eq a a := by
  induction as with
  | nil => rfl
  | cons a as ih => rw [sameBy, ih, List.all_cons]

/-- An expression equals itself where it is no such constant and each of its parts equals itself. -/
theorem Expr.same_self (e : Expr) :
    e.same e = (!(Node.expr e).isNaN && e.parts.all Part.sameSelf) := by
  cases e with
  | constant s v => simp [same, Constant.same_self v s, parts, Part.sameSelf]
  | _ =>
      simp [same, parts, Part.sameSelf, Node.isNaN, sameList_self, Bool.and_assoc,
        Function.comp_def]

namespace Stmt

theorem sameList_self (ss : List Stmt) : sameList ss ss = ss.all fun s => s.same s := by
  induction ss with
  | nil => rfl
  | cons s ss ih => rw [sameList, ih, List.all_cons]

theorem sameArms_self (arms : List (Expr × Stmt)) :
    sameArms arms arms = arms.all fun arm => arm.1.same arm.1 && arm.2.same arm.2 := by
  induction arms with
  | nil => rfl
  | cons arm arms ih => rw [sameArms, ih, List.all_cons]

theorem sameOption_self (s : Option Stmt) : sameOption s s = s.toList.all fun s => s.same s := by
  cases s <;> simp [sameOption]

/-- A statement equals itself where each of its parts does. -/
theorem same_self (s : Stmt) : s.same s = s.parts.all Part.sameSelf := by
  cases s with
  | branch p arms otherwise =>
      simp [same, parts, Part.sameSelf, sameArms_self, sameOption_self, List.all_flatMap,
        Function.comp_def]
  | doWhile p body condition => simp [same, parts, Part.sameSelf, Bool.and_comm]
  | var p d =>
      simp [same, parts, Part.sameSelf, VariableDeclaration.same, Expr.sameOption_self,
        Function.comp_def]
  | inputs p vs | outputs p vs =>
      simp [same, parts, Part.sameSelf, InterfaceVariable.parts, List.all_flatMap]
  | externals p vs => simp [same, parts, Part.sameSelf, ExternalVariable.parts, List.all_flatMap]
  | options p ds =>
      simp [same, parts, Part.sameSelf, sameBy_self, OptionDeclaration.same,
        OptionDeclaration.parts, Expr.sameOption_self, List.all_flatMap, Function.comp_def]
  | consts p ds =>
      simp [same, parts, Part.sameSelf, sameBy_self, ConstDeclaration.same,
        ConstDeclaration.parts, List.all_flatMap]
  | _ =>
      simp [same, parts, Part.sameSelf, sameList_self, sameOption_self, Expr.sameOption_self,
        Bool.and_assoc, Function.comp_def]

end Stmt

namespace Part

/-- A part equals itself where it is no such constant and each of its parts equals itself. -/
theorem sameSelf_eq (p : Part) :
    p.sameSelf = (p.node?.toList.all (!·.isNaN) && p.parts.all sameSelf) := by
  match p with
  | .node (.stmt s) => simp [sameSelf, parts, node?, Node.isNaN, s.same_self]
  | .node (.expr e) => simp [sameSelf, parts, node?, e.same_self]
  | .node (.function f) =>
      simp [sameSelf, parts, node?, Node.isNaN, Signature.parts, Parameter.parts, List.all_flatMap]
  | .node (.type t) | .span s => rfl

/-- A tree is equal to itself exactly if each of its literals is. -/
theorem sameSelf_iff (p : Part) : p.sameSelf = true ↔ ∀ n ∈ p.nodes, n.isNaN = false := by
  induction p using induction_of_visits visits_eq with
  | step p ih =>
      have hparts : (p.parts.all sameSelf = true) ↔
          ∀ n ∈ p.parts.flatMap nodes, n.isNaN = false := by
        rw [List.all_eq_true]
        simp only [List.mem_flatMap, forall_exists_index, and_imp]
        exact ⟨fun h n q hq hn => (ih q hq).mp (h q hq) n hn,
          fun h q hq => (ih q hq).mpr fun n hn => h n q hq hn⟩
      rw [sameSelf_eq, nodes_eq, Bool.and_eq_true, hparts, List.forall_mem_append, List.all_eq_true]
      simp

end Part

namespace Stmt

/-- Whatever the tree: the walk that writes down what it comes to finds the nodes of the reading
walk, in their order; each place of the tree that holds a node is visited once, and so is each
that holds a span. Erasing puts the dummy span at the places of spans and changes nothing else,
and two trees are equal up to spans exactly if they are equal when their spans are erased,
whether literals are compared bit by bit or as numbers. The copy is the tree itself; compared as
numbers it is equal to the tree exactly if no literal is a NaN. -/
theorem traversals_complete (s : Stmt) :
    (s.visits.filterMap Part.node? = s.nodes ∧
      (Part.stmt s).VisitedOnce Part.node? s.nodes ∧
      (Part.stmt s).VisitedOnce Part.span? (s.visits.filterMap Part.span?)) ∧
    ((∀ place, (Part.stmt s.eraseSpans).at? place = ((Part.stmt s).at? place).map Part.erased) ∧
      equalUpToSpans (· == ·) s s.eraseSpans = true) ∧
    (∀ t, (equalUpToSpans (· == ·) s t = true ↔ s.eraseSpans = t.eraseSpans) ∧
      (equalUpToSpans Constant.same s t = true ↔ s.eraseSpans.same t.eraseSpans = true)) ∧
    s.copy = s ∧ (s.copy.same s = true ↔ ∀ n ∈ s.nodes, n.isNaN = false) := by
  have hall := Part.visitedOnce_of_visits Part.visits_eq (.stmt s)
  have hnodes : s.visits.filterMap Part.node? = s.nodes := Part.filterMap_visits (.stmt s)
  refine ⟨⟨hnodes, ?_, hall.filterMap Part.span?⟩, ⟨?_, ?_⟩, fun t => ⟨?_, ?_⟩, s.copy_eq, ?_⟩
  · rw [← hnodes]
    exact hall.filterMap Part.node?
  · exact Part.at?_erased (.stmt s)
  · exact equalUpToSpans_eraseSpans s
  · exact equalUpToSpans_iff s t
  · rw [same_eraseSpans]
  · rw [copy_eq]
    exact Part.sameSelf_iff (.stmt s)

/-- The copy of a tree with a NaN literal is not equal to the tree. -/
theorem copy_not_same_of_nan :
    ¬ (block .dummy [.var .dummy ⟨"g", .prim .float, false,
      some (.constant .dummy (.float ⟨0x7fc00000⟩))⟩]).copy.same
        (block .dummy [.var .dummy ⟨"g", .prim .float, false,
          some (.constant .dummy (.float ⟨0x7fc00000⟩))⟩]) = true := by
  rw [copy_eq]
  decide

end Stmt

end Shading
