import Shading.Glsl.Text
import Shading.Spirv.Words

/-!
# Binary modules of a stage

The text of a stage, with descriptor sets and the stage fixed, is handed to an assembler,
and the words it gives are added to the output.
-/

namespace Shading

namespace Spirv

/-- Turns the text of a stage into words. -/
abbrev Assembler := String → Stage → Except CodegenError (List UInt32)

/-- Settings for an assembler: descriptor sets and the stage are forced. -/
def pinned (s : Glsl.Settings) (stage : Stage) : Glsl.Settings :=
  { s with vulkan := true, stage := some stage }

/-- The text that an assembler is given for a tree. -/
def source (s : Glsl.Settings) (tree : Stmt) : Except CodegenError String := do
  return (← Glsl.generate s tree Emitter.empty).text

/-- Adds the words of a stage to the output. -/
def compile (s : Glsl.Settings) (stage : Stage) (assembler : Assembler) (tree : Stmt)
    (out : List UInt32) : Except CodegenError (List UInt32) := do
  return out ++ (← assembler (← source s tree) stage)

end Spirv

end Shading
