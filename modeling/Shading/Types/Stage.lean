/-!
# Pipeline stages

The stages that an entry function can belong to, in pipeline order, and the
variables that a stage takes from or gives to the fixed-function hardware.
-/

namespace Shading

/-- A programmable stage of the pipeline. -/
inductive Stage where
  | vertex | fragment | compute
deriving DecidableEq, Inhabited

namespace Stage

def all : List Stage := [.vertex, .fragment, .compute]

/-- How an attribute names the stage. -/
def name : Stage → String
  | .vertex => "vertex"
  | .fragment => "fragment"
  | .compute => "compute"

/-- The conventional file extension, which also names the stage in source. -/
def extension : Stage → String
  | .vertex => "vert"
  | .fragment => "frag"
  | .compute => "comp"

/-- The stage with the given name or extension. -/
def ofName? (name : String) : Option Stage :=
  all.find? fun s => s.name = name || s.extension = name

/-- The place of a stage in the pipeline. -/
def rank : Stage → Nat
  | .vertex => 0
  | .fragment => 1
  | .compute => 2

theorem ofName?_name (s : Stage) : ofName? s.name = some s := by
  cases s <;> decide

theorem ofName?_extension (s : Stage) : ofName? s.extension = some s := by
  cases s <;> decide

end Stage

/-- An interface variable bound to a fixed-function value instead of a location. -/
inductive BuiltinVariable where
  | position | fragDepth | vertexIndex | instanceIndex
  | globalInvocationId | localInvocationId | workgroupId
deriving DecidableEq, Inhabited

namespace BuiltinVariable

def all : List BuiltinVariable :=
  [.position, .fragDepth, .vertexIndex, .instanceIndex,
    .globalInvocationId, .localInvocationId, .workgroupId]

/-- How an attribute names the variable. -/
def name : BuiltinVariable → String
  | .position => "position"
  | .fragDepth => "frag_depth"
  | .vertexIndex => "vertex_index"
  | .instanceIndex => "instance_index"
  | .globalInvocationId => "global_invocation_id"
  | .localInvocationId => "local_invocation_id"
  | .workgroupId => "workgroup_id"

/-- The built-in variable with the name. -/
def ofName? (name : String) : Option BuiltinVariable :=
  all.find? fun b => b.name = name

theorem ofName?_name (b : BuiltinVariable) : ofName? b.name = some b := by
  cases b <;> decide

end BuiltinVariable

end Shading
