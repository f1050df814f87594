/-!
# Selections of vector components

A swizzle is a word of one to four letters of one of three alphabets.
-/

namespace Shading

/-- The alphabet that a swizzle is written in. -/
inductive SwizzleSet where
  | xyzw | rgba | stpq
deriving DecidableEq, Inhabited

namespace SwizzleSet

def all : List SwizzleSet := [.xyzw, .rgba, .stpq]

/-- The names of the components, the first one first. -/
def letters : SwizzleSet → List Char
  | .xyzw => ['x', 'y', 'z', 'w']
  | .rgba => ['r', 'g', 'b', 'a']
  | .stpq => ['s', 't', 'p', 'q']

end SwizzleSet

/-- The selected component numbers, in order, and their alphabet. -/
structure Swizzle where
  components : List Nat
  set : SwizzleSet
deriving DecidableEq, Inhabited

namespace Swizzle

/-- Reads a member name as a swizzle; any other name is a field. -/
def ofName? (name : String) : Option Swizzle :=
  let chars := name.toList
  match chars with
  | [] => none
  | first :: _ =>
    if 4 < name.utf8ByteSize then none
    else
      match SwizzleSet.all.find? (·.letters.contains first) with
      | none => none
      | some set => (chars.mapM set.letters.idxOf?).map fun components => ⟨components, set⟩

/-- The letters of the swizzle; a component past the fourth has none. -/
def text (s : Swizzle) : String :=
  String.ofList (s.components.map fun i => s.set.letters.getD i '?')

end Swizzle

end Shading
