import Shading.Syntax.Node

/-!
# Declaration order

The target needs every struct and every function before its first use.  The order is
that of a depth-first visit: what a node depends on comes before it, unrelated nodes
keep their order, and a cycle is cut where it closes.
-/

namespace Shading

namespace Glsl

/-- A visit in progress: the nodes entered so far and those left, the latest first. -/
structure Visit where
  entered : List Nat
  left : List Nat

/-- Visits a node below `count` unless it was entered before.  Each level of the
recursion has entered one more node, so `count + 1` levels always suffice. -/
def visit (count : Nat) (deps : Nat → List Nat) : Nat → Visit → Nat → Visit
  | 0, v, _ => v
  | fuel + 1, v, node =>
    if node < count ∧ node ∉ v.entered then
      let v := (deps node).foldl (visit count deps fuel) { v with entered := node :: v.entered }
      { v with left := node :: v.left }
    else v

/-- The nodes `0, …, count - 1`, dependencies first. -/
def dependencyOrder (count : Nat) (deps : Nat → List Nat) : List Nat :=
  ((List.range count).foldl (visit count deps (count + 1)) ⟨[], []⟩).left.reverse

/-- The names without their repetitions, in the order of their first occurrence. -/
def firstUses (names : List String) : List String :=
  names.foldl (fun seen n => if n ∈ seen then seen else seen ++ [n]) []

/-- The struct that a node's type names. -/
def namedStruct? : Node → Option String
  | .type t => t.structName?
  | _ => none

/-- The function that a node calls. -/
def calledFunction? : Node → Option String
  | .expr (.call _ name _) => some name
  | _ => none

end Glsl

end Shading
