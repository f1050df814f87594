import Shading.Print.Emitter
import Shading.Print.Stmt

/-!
# Trees as source text

The source dialect has every item.  Reading the text of a parsed tree back gives the
tree again, up to its spans.
-/

namespace Shading

namespace Dialect

/-- Types stand before names, with all their array suffixes. -/
def source : Dialect where
  builtin f _ := .ok f.name
  reference name := name
  declarator t name := t.text ++ " " ++ name
  refusal _ := none

end Dialect

namespace Stmt

/-- Items of a file, each after a blank line. -/
def writeItems : List Stmt → Writer → Except CodegenError Writer
  | [], w => return w
  | s :: ss, w => do writeItems ss (← Dialect.source.stmt s w.blankLine)

/-- The source text of a tree. -/
def sourceText (s : Stmt) : Except CodegenError String := do
  return (← writeItems s.items Writer.empty).text

/-- Feeds the source text of a tree to an emitter. -/
def emitSource (s : Stmt) (e : Emitter) : Except CodegenError Emitter := do
  return e.emitLines (← s.sourceText)

end Stmt

end Shading
