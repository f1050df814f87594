import Shading.Extract.Stage
import Shading.Options.Specialize
import Shading.Parse.Library
import Shading.Print.Source
import Shading.Spirv.Module

/-!
# Compiling a file

A compiler reads a file, a shader is the file with its options open, and an instance is
one permutation of it, from which stages are extracted and generated.  The reflection of a
stage is kept once it is known, until it is cleared.
-/

namespace Shading

/-- An error of any phase. -/
inductive CompileError where
  | parse (e : ParseError)
  | specialize (e : SpecializeError)
  | extract (e : ExtractError)
  | codegen (e : CodegenError)

namespace CompileError

def span? : CompileError → Option Span
  | .parse e => some e.span
  | .specialize e => some e.span
  | .extract e => e.span?
  | .codegen e => e.span?

/-- The code of the error, whichever phase it comes from. -/
def code : CompileError → Code
  | .parse e => e.code
  | .specialize e => e.code
  | .extract e => e.code
  | .codegen e => e.code

/-- The message of the error, whichever phase it comes from. -/
def message : CompileError → String
  | .parse e => e.message
  | .specialize e => e.message
  | .extract e => e.message
  | .codegen e => e.message

/-- The diagnostic of the error, whichever phase it comes from. -/
def diagnostic : CompileError → Diagnostic
  | .parse e => e.diagnostic
  | .specialize e => e.diagnostic
  | .extract e => e.diagnostic
  | .codegen e => e.diagnostic

end CompileError

/-- What a compiler is configured with, and the order in which it visits option values.
Without libraries, library directives stay. -/
structure Compiler where
  registry : Registry
  libraries : Option Libraries
  config : SpecializeConfig
  order : VisitOrder

/-- A parsed file with its options open. -/
structure Shader where
  tree : Stmt
  config : SpecializeConfig
  order : VisitOrder

/-- One permutation, with the reflections known so far. -/
structure Instance where
  tree : Stmt
  extractor : Extractor
  reflections : List (Stage × Reflection)

namespace Compiler

/-- Reads tokens; without libraries their directives stay statements. -/
def readTokens (c : Compiler) (tokens : List Token) : Except ParseError Stmt :=
  match c.libraries with
  | some libraries => parseWithLibraries tokens c.registry libraries
  | none => parseTokens tokens c.registry

/-- Reads a source and keeps it with its tree. -/
def parse (c : Compiler) (source : String) : Except CompileError Shader :=
  match tokenize source with
  | .error e => .error (.parse (.ofLexical e))
  | .ok tokens =>
    match c.readTokens tokens with
    | .error e => .error (.parse e)
    | .ok tree => .ok ⟨tree, c.config, c.order⟩

end Compiler

namespace Instance

/-- An instance of a specialized tree. -/
def ofTree (tree : Stmt) : Except CompileError Instance :=
  match Extractor.ofTree tree.copy with
  | .ok extractor => .ok ⟨tree, extractor, []⟩
  | .error e => .error (.extract e)

end Instance

namespace Shader

/-- The options declared at file level, in order. -/
def optionNames (s : Shader) : List String :=
  s.tree.items.flatMap fun
    | .options _ entries => entries.map (·.name)
    | _ => []

/-- The permutation that option values choose; of two values for one name the last one
counts. -/
def instantiate (s : Shader) (options : List (String × Constant)) :
    Except CompileError Instance :=
  let specializer := options.foldl (fun z (name, value) => z.set name value)
    (Specializer.new s.config s.order)
  match specializer.process s.tree with
  | .ok tree => Instance.ofTree tree
  | .error e => .error (.specialize e)

end Shader

namespace Instance

/-- A step of an instance gives an answer and the instance after it. -/
abbrev Step (α : Type) := Instance → Except CompileError α × Instance

/-- The stages that the instance has an entry for. -/
def stages (i : Instance) : List Stage := i.extractor.stages

/-- Keeps the reflection of a stage, in place of an earlier one. -/
def remember (i : Instance) (stage : Stage) (r : Reflection) : Instance :=
  { i with reflections := (stage, r) :: i.reflections.filter (·.1 ≠ stage) }

/-- The tree of a stage; its reflection is kept. -/
def extract (stage : Stage) : Step Stmt := fun i =>
  match i.extractor.extract stage with
  | .ok extracted => (.ok extracted.tree, i.remember stage extracted.reflection)
  | .error e => (.error (.extract e), i)

/-- The reflection of a stage, from memory if it is known. -/
def reflection (stage : Stage) : Step Reflection := fun i =>
  match i.reflections.lookup stage with
  | some r => (.ok r, i)
  | none =>
    match i.extractor.extract stage with
    | .ok extracted => (.ok extracted.reflection, i.remember stage extracted.reflection)
    | .error e => (.error (.extract e), i)

/-- The specialized tree as source text. -/
def sourceText (i : Instance) : Except CompileError String :=
  i.tree.sourceText.mapError .codegen

/-- Extracts a stage and works on its tree. -/
def onStage {α : Type} (stage : Stage) (work : Stmt → Except CodegenError α) : Step α := fun i =>
  match extract stage i with
  | (.ok tree, i) => ((work tree).mapError .codegen, i)
  | (.error e, i) => (.error e, i)

/-- The text of a stage, which is fixed in the settings. -/
def glsl (stage : Stage) (settings : Glsl.Settings) : Step String :=
  onStage stage (Glsl.render (settings.withStage stage))

/-- The words of a stage. -/
def spirv (stage : Stage) (assembler : Spirv.Assembler) : Step (List UInt32) :=
  let settings := Spirv.pinned Glsl.Settings.forVulkan stage
  onStage stage fun tree => Spirv.compile settings stage assembler tree []

/-- Forgets the reflections. -/
def clear (i : Instance) : Instance := { i with reflections := [] }

end Instance

end Shading
