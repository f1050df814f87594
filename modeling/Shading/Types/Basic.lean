/-!
# Shader types

A spelling is a primitive's letter (`i`, `u`, `b`, or none for float) before `vec`,
`mat` or `sampler` and an arity or a dimensionality.
-/

namespace Shading

/-- A scalar component type. -/
inductive Primitive where
  | bool | int | uint | float
deriving DecidableEq, Inhabited

namespace Primitive

def all : List Primitive := [.bool, .int, .uint, .float]

/-- How the type is written. -/
def name : Primitive → String
  | .bool => "bool"
  | .int => "int"
  | .uint => "uint"
  | .float => "float"

/-- The letter before a vector, matrix or sampler spelling. -/
def letter : Primitive → String
  | .bool => "b"
  | .int => "i"
  | .uint => "u"
  | .float => ""

/-- Whether the type is one of the two integer types. -/
def isInteger : Primitive → Bool
  | .int | .uint => true
  | .bool | .float => false

end Primitive

/-- The dimensionality of a sampled image. -/
inductive ImageDim where
  | one | two | three | cube | twoArray
deriving DecidableEq, Inhabited

namespace ImageDim

/-- Every kind of image. -/
def all : List ImageDim := [.one, .two, .three, .cube, .twoArray]

/-- What the name of a sampler type says of its images. -/
def name : ImageDim → String
  | .one => "1D"
  | .two => "2D"
  | .three => "3D"
  | .cube => "Cube"
  | .twoArray => "2DArray"

end ImageDim

/-- The length of an array: a number, or left to the context. -/
inductive ArraySize where
  | fixed (length : Nat)
  | implicit
deriving DecidableEq, Inhabited

namespace ArraySize

/-- The bracketed suffix. -/
def text : ArraySize → String
  | .fixed n => "[" ++ toString n ++ "]"
  | .implicit => "[]"

end ArraySize

/-- A shader type. -/
inductive Ty where
  | void
  | prim (p : Primitive)
  | vec (component : Primitive) (size : Nat)
  | mat (component : Primitive) (columns rows : Nat)
  | array (element : Ty) (size : ArraySize)
  | sampler (sampled : Primitive) (dim : ImageDim)
  | struct (name : String)
deriving DecidableEq, Inhabited

namespace Ty

/-- The innermost type that is no array. -/
def base : Ty → Ty
  | .array element _ => element.base
  | t => t

/-- The struct that a type names, looking through arrays. -/
def structName? : Ty → Option String
  | .struct name => some name
  | .array element _ => element.structName?
  | _ => none

/-- The scalar component of a primitive, vector or matrix, looking through arrays. -/
def component? (t : Ty) : Option Primitive :=
  match t.base with
  | .prim p | .vec p _ | .mat p _ _ => some p
  | _ => none

/-- Whether the type is a sampler or an array of them. -/
def isSampler (t : Ty) : Bool :=
  match t.base with
  | .sampler _ _ => true
  | _ => false

/-- The array dimensions, outermost first. -/
def dims : Ty → List ArraySize
  | .array element size => size :: element.dims
  | _ => []

/-- The spelling of the innermost type. -/
def baseName : Ty → String
  | .void => "void"
  | .prim p => p.name
  | .vec p size => p.letter ++ "vec" ++ toString size
  | .mat p columns rows =>
    if columns = rows then p.letter ++ "mat" ++ toString columns
    else p.letter ++ "mat" ++ toString columns ++ "x" ++ toString rows
  | .array element _ => element.baseName
  | .sampler p dim => p.letter ++ "sampler" ++ dim.name
  | .struct name => name

/-- The suffixes of the array dimensions, outermost first. -/
def suffixes (t : Ty) : String := String.join (t.dims.map ArraySize.text)

/-- The spelling of a type: its base name and its array suffixes. -/
def text (t : Ty) : String := t.baseName ++ t.suffixes

theorem base_base (t : Ty) : t.base.base = t.base := by
  induction t with
  | array element size ih => exact ih
  | _ => rfl

theorem structName?_base (t : Ty) : t.base.structName? = t.structName? := by
  induction t with
  | array element size ih => exact ih
  | _ => rfl

theorem dims_base (t : Ty) : t.base.dims = [] := by
  induction t with
  | array element size ih => exact ih
  | _ => rfl

end Ty

end Shading
