import Shading.Types.Basic
import Shading.Types.Builtin

/-!
# Names known without a declaration

Type names and built-in function names are no keywords.  A registry says which
identifiers name a type and which a built-in function; of several entries for one
name the last one counts.
-/

namespace Shading

/-- The entries in the order of their registration, the latest first. -/
structure Registry where
  types : List (String × Ty)
  functions : List (String × BuiltinFunction)

namespace Registry

def empty : Registry := ⟨[], []⟩

/-- Adds a type; it hides an earlier one of the same name. -/
def addType (r : Registry) (name : String) (t : Ty) : Registry :=
  { r with types := (name, t) :: r.types }

/-- Adds a function name; it hides an earlier one of the same name. -/
def addFunction (r : Registry) (name : String) (f : BuiltinFunction) : Registry :=
  { r with functions := (name, f) :: r.functions }

/-- The type that the name stands for. -/
def type? (r : Registry) (name : String) : Option Ty := r.types.lookup name

/-- The built-in function that the name stands for. -/
def function? (r : Registry) (name : String) : Option BuiltinFunction := r.functions.lookup name

/-- Whether the name stands for a type. -/
def isType (r : Registry) (name : String) : Bool := (r.type? name).isSome

/-- The sizes of vectors and matrices. -/
def arities : List Nat := [2, 3, 4]

/-- The types of the default dialect under their own spelling. -/
def standardTypes : List Ty :=
  .void :: Primitive.all.flatMap (fun p => .prim p :: arities.map (.vec p)) ++
    arities.flatMap (fun columns => arities.map fun rows => .mat .float columns rows) ++
    [Primitive.float, .int, .uint].flatMap (fun p => ImageDim.all.map (.sampler p))

/-- The default dialect: every scalar, vector, matrix and sampler spelling, square
matrices also with both sizes written, and every built-in function. -/
def standard : Registry where
  types := standardTypes.map (fun t => (t.baseName, t)) ++
    arities.map fun n => ("mat" ++ toString n ++ "x" ++ toString n, .mat .float n n)
  functions := BuiltinFunction.all.map fun f => (f.name, f)

theorem type?_addType (r : Registry) (name other : String) (t : Ty) :
    (r.addType name t).type? other = if other == name then some t else r.type? other := by
  simp only [addType, type?, List.lookup_cons]
  cases h : other == name <;> simp

theorem function?_addFunction (r : Registry) (name other : String) (f : BuiltinFunction) :
    (r.addFunction name f).function? other =
      if other == name then some f else r.function? other := by
  simp only [addFunction, function?, List.lookup_cons]
  cases h : other == name <;> simp

end Registry

end Shading
