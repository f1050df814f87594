import Shading.Extract.Index

/-!
# Reachable declarations

From the entry function every declaration is reached that a reached one refers to: for
each name all functions, all structs or all values of that name.
-/

namespace Shading

namespace Uses

/-- Whether one use comes before another: by the place of the first use, then by name. -/
def before (a b : String × Span) : Bool :=
  a.2.start < b.2.start || (a.2.start == b.2.start && a.1 ≤ b.1)

/-- The uses in source order. -/
def inOrder (uses : Uses) : Uses := uses.mergeSort before

end Uses

namespace DeclarationIndex

/-- The declarations that uses name; each use must name one. -/
def resolve (named : String → List Key) (undefined : String → Span → ExtractError) :
    Uses → Except ExtractError (List Key)
  | [] => .ok []
  | (name, span) :: rest =>
    match named name with
    | [] => .error (undefined name span)
    | keys => do return keys ++ (← resolve named undefined rest)

/-- The declarations that a declaration refers to directly. -/
def successors (index : DeclarationIndex) (uses : Dependencies) :
    Except ExtractError (List Key) := do
  let functions ← resolve index.functionsNamed .undefinedFunction uses.functions.inOrder
  let structs ← resolve index.structsNamed .undefinedIdentifier uses.structs.inOrder
  let values ← resolve index.valuesNamed .undefinedIdentifier
    (uses.values.inOrder ++ uses.externals.inOrder)
  return functions ++ structs ++ values

/-- The keys of a list that are in no other list and for the first time in this one. -/
def newKeys (seen : List Key) : List Key → List Key
  | [] => []
  | k :: ks => if k ∈ seen then newKeys seen ks else k :: newKeys (k :: seen) ks

/-- Follows references from the keys on a stack, the last found first.  Each key enters
the stack once, so the number of declarations bounds the steps. -/
def follow (index : DeclarationIndex) :
    Nat → List Key → List Key → Except ExtractError (List Key)
  | 0, _, reached => .ok reached
  | _, [], reached => .ok reached
  | fuel + 1, key :: stack, reached => do
    let uses := ((index.get? key).map (·.uses)).getD Dependencies.empty
    let new := newKeys reached (← index.successors uses)
    follow index fuel (new.reverse ++ stack) (reached ++ new)

/-- The declarations reachable from a function. -/
def reachable (index : DeclarationIndex) (entry : Nat) : Except ExtractError (List Key) :=
  let start : Key := ⟨.function, entry⟩
  index.follow (index.declarations.length + 1) [start] [start]

end DeclarationIndex

end Shading
