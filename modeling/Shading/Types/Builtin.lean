/-!
# Built-in functions

Functions that the target provides.  The source name is the target's name except
for texture sampling.
-/

namespace Shading

/-- A function that the language has without a declaration. -/
inductive BuiltinFunction where
  | sample | dot | cross | normalize | length | distance | reflect | min | max | clamp
  | mix | step | smoothStep | pow | exp | log | sqrt | inverseSqrt | abs | sign | floor
  | ceil | fract | sin | cos | tan | transpose | inverse
deriving DecidableEq, Inhabited

namespace BuiltinFunction

def all : List BuiltinFunction :=
  [.sample, .dot, .cross, .normalize, .length, .distance, .reflect, .min, .max, .clamp,
    .mix, .step, .smoothStep, .pow, .exp, .log, .sqrt, .inverseSqrt, .abs, .sign, .floor,
    .ceil, .fract, .sin, .cos, .tan, .transpose, .inverse]

/-- The name in generated code. -/
def targetName : BuiltinFunction → String
  | .sample => "texture"
  | .dot => "dot"
  | .cross => "cross"
  | .normalize => "normalize"
  | .length => "length"
  | .distance => "distance"
  | .reflect => "reflect"
  | .min => "min"
  | .max => "max"
  | .clamp => "clamp"
  | .mix => "mix"
  | .step => "step"
  | .smoothStep => "smoothstep"
  | .pow => "pow"
  | .exp => "exp"
  | .log => "log"
  | .sqrt => "sqrt"
  | .inverseSqrt => "inversesqrt"
  | .abs => "abs"
  | .sign => "sign"
  | .floor => "floor"
  | .ceil => "ceil"
  | .fract => "fract"
  | .sin => "sin"
  | .cos => "cos"
  | .tan => "tan"
  | .transpose => "transpose"
  | .inverse => "inverse"

/-- The canonical name in source. -/
def name : BuiltinFunction → String
  | .sample => "sample"
  | f => f.targetName

/-- The built-in function with the name. -/
def ofName? (name : String) : Option BuiltinFunction :=
  all.find? fun f => f.name = name

/-- The lowest desktop version that provides the function. -/
def minVersion : BuiltinFunction → UInt32
  | .sample => 130
  | .transpose => 120
  | .inverse => 140
  | _ => 110

/-- The lowest embedded version that provides the function. -/
def minEmbeddedVersion : BuiltinFunction → UInt32
  | .sample | .transpose | .inverse => 300
  | _ => 100

theorem mem_all (f : BuiltinFunction) : f ∈ all := by
  cases f <;> decide

theorem ofName?_name (f : BuiltinFunction) : ofName? f.name = some f := by
  cases f <;> decide

end BuiltinFunction

end Shading
