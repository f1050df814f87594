import Shading.Proofs.Extract.Places
import Shading.Proofs.Glsl.Places
import Shading.Proofs.Options.Places
import Shading.Proofs.Parse.LibraryPlaces
import Shading.Proofs.Syntax.Copy
import Shading.Session

/-!
# Compiling wherever the tokens stand

What is made of a file depends on the kinds of its tokens alone: reading, choosing a
permutation, extracting a stage and generating its text all carry places along without
looking at them. So comments, blank space and the places that libraries are put at do not
show in the text or in the reflection.
-/

namespace Shading

namespace Compiler

/-- Files of tokens of the same kinds are read alike. -/
theorem parallel_readTokens (c : Compiler) {tokens tokens' : List Token}
    (h : tokens.map Token.kind = tokens'.map Token.kind) :
    Except.Parallel Stmt.Alike (c.readTokens tokens) (c.readTokens tokens') := by
  rw [readTokens, readTokens]
  cases c.libraries with
  | none => exact parallel_parseTokens h c.registry
  | some ls => exact parallel_parseWithLibraries h c.registry ls

/-- The compiler makes a stage and its text of the tokens: it reads them, chooses a
permutation, extracts the stage and generates it. -/
def Produces (c : Compiler) (tokens : List Token) (z : Specializer) (stage : Stage)
    (s : Glsl.Settings) (out : ExtractedStage) (text : String) : Prop :=
  ∃ file tree, c.readTokens tokens = .ok file ∧ z.process file = .ok tree ∧
    extractStage tree stage = .ok out ∧ Glsl.render s out.tree = .ok text

/-- Tokens of the same kinds give the same text and reflection wherever they stand, and the
same tree but for its places. -/
theorem produces_of_kinds_eq {c : Compiler} {tokens tokens' : List Token} {z : Specializer}
    {stage : Stage} {s : Glsl.Settings} {out : ExtractedStage} {text : String}
    (h : tokens.map Token.kind = tokens'.map Token.kind)
    (hout : c.Produces tokens z stage s out text) :
    ∃ out', c.Produces tokens' z stage s out' text ∧ out'.reflection = out.reflection ∧
      out'.tree.eraseSpans = out.tree.eraseSpans := by
  obtain ⟨file, tree, hfile, htree, hx, htext⟩ := hout
  obtain ⟨file', hfile', halike⟩ := (c.parallel_readTokens h).exists_of_ok hfile
  obtain ⟨tree', htree', halike⟩ := (z.parallel_process halike).exists_of_ok htree
  obtain ⟨out', hx', herased⟩ := (Extractor.parallel_extractStage halike stage).exists_of_ok hx
  have hreflection : out.erased.reflection = out'.erased.reflection := congrArg _ herased
  have hstage : out.erased.tree = out'.erased.tree := congrArg _ herased
  obtain ⟨_, htext', rfl⟩ := (Glsl.parallel_render s hstage).exists_of_ok htext
  exact ⟨out', ⟨file', tree', hfile', htree', hx', htext'⟩, hreflection.symm, hstage.symm⟩

/-- `option { bool a = true; } optional (a) { const { float b = 1.0; } }
[entry(fragment)] void fs() { float c = b; }` with `gap` bytes before each token. -/
def gappedTokens (gap : Nat) : List Token :=
  ([.keyword .option, .symbol .lbrace, .ident "bool", .ident "a", .symbol .eq, .keyword .true,
    .symbol .semicolon, .symbol .rbrace, .keyword .optional, .symbol .lparen, .ident "a",
    .symbol .rparen, .symbol .lbrace, .keyword .const, .symbol .lbrace, .ident "float",
    .ident "b", .symbol .eq, .float ⟨0x3f800000⟩, .symbol .semicolon, .symbol .rbrace,
    .symbol .rbrace, .symbol .lbracket, .ident "entry", .symbol .lparen, .ident "fragment",
    .symbol .rparen, .symbol .rbracket, .ident "void", .ident "fs", .symbol .lparen,
    .symbol .rparen, .symbol .lbrace, .ident "float", .ident "c", .symbol .eq, .ident "b",
    .symbol .semicolon, .symbol .rbrace, .eof] : List Kind).zipIdx.map fun (k, i) =>
      ⟨k, ⟨i * (gap + 1) + gap, (i + 1) * (gap + 1)⟩, ⟨1, i * (gap + 1) + gap + 1⟩⟩

/-- The theorem of the kinds applies to tokens with gaps between them. -/
theorem gapped_produces :
    ∃ (c : Compiler) (z : Specializer) (out : ExtractedStage) (text : String),
      (gappedTokens 0).map Token.kind = (gappedTokens 5).map Token.kind ∧
      c.Produces (gappedTokens 0) z .fragment .desktop out text ∧
      ∃ out', c.Produces (gappedTokens 5) z .fragment .desktop out' text ∧
        out'.reflection = out.reflection ∧ out'.tree.eraseSpans = out.tree.eraseSpans := by
  let config : SpecializeConfig := ⟨true, false⟩
  let c : Compiler := ⟨.standard, none, config, .newest⟩
  have hkinds : (gappedTokens 0).map Token.kind = (gappedTokens 5).map Token.kind := by rfl
  obtain ⟨out, text, hout⟩ : ∃ out text,
      c.Produces (gappedTokens 0) (.new config .newest) .fragment .desktop out text :=
    ⟨_, _, _, _, by rfl, by with_unfolding_all rfl, by with_unfolding_all rfl, by rfl⟩
  exact ⟨c, .new config .newest, out, text, hkinds, hout, produces_of_kinds_eq hkinds hout⟩

/-- The text of one stage of a permutation of a source. -/
def stageText (c : Compiler) (source : String) (options : List (String × Constant))
    (stage : Stage) (s : Glsl.Settings) : Except CompileError String := do
  let shader ← c.parse source
  let i ← shader.instantiate options
  (Instance.glsl stage s i).1

/-- The shader of an instance is that of its tree. -/
theorem glsl_ofTree (tree : Stmt) (stage : Stage) (s : Glsl.Settings) :
    (Instance.ofTree tree >>= fun i => (Instance.glsl stage s i).1) = (do
      let out ← (extractStage tree stage).mapError .extract
      (Glsl.render (s.withStage stage) out.tree).mapError .codegen) := by
  rw [Instance.ofTree, extractStage]
  cases Extractor.ofTree tree.copy with
  | error e => rfl
  | ok x =>
      simp only [Except.ok_bind, Instance.glsl, Instance.onStage, Instance.extract]
      cases x.extract stage with
      | error e => rfl
      | ok out => rfl

/-- Sources with tokens of the same kinds, such as those that differ in comments and blank
space, give the same text of every stage, or none of them does. -/
theorem parallel_stageText (c : Compiler) {source source' : String} {tokens tokens' : List Token}
    (hsource : tokenize source = .ok tokens) (hsource' : tokenize source' = .ok tokens')
    (h : tokens.map Token.kind = tokens'.map Token.kind) (options : List (String × Constant))
    (stage : Stage) (s : Glsl.Settings) :
    Except.Parallel Eq (c.stageText source options stage s)
      (c.stageText source' options stage s) := by
  have hparse : Except.Parallel
      (fun f f' : Shader => f.tree.Alike f'.tree ∧ f.config = f'.config ∧ f.order = f'.order)
      (c.parse source) (c.parse source') := by
    have hread := c.parallel_readTokens h
    rw [parse, parse, hsource, hsource']
    dsimp only
    generalize c.readTokens tokens = r, c.readTokens tokens' = r' at hread ⊢
    cases hread with
    | ok halike => exact .ok ⟨halike, rfl, rfl⟩
    | error => exact .error
  rw [stageText, stageText]
  refine hparse.bind fun f f' hf => ?_
  obtain ⟨halike, hconfig, horder⟩ := hf
  rw [Shader.instantiate, Shader.instantiate, hconfig, horder]
  dsimp only
  generalize List.foldl _ (Specializer.new f'.config f'.order) options = z
  have hprocess := z.parallel_process halike
  generalize z.process f.tree = r, z.process f'.tree = r' at hprocess ⊢
  cases hprocess with
  | error => exact .error
  | ok halike =>
      simp only [glsl_ofTree]
      exact (Extractor.parallel_extractStage halike stage).mapError.bind fun out out' hout =>
        (Glsl.parallel_render _ (congrArg ExtractedStage.tree hout)).mapError

end Compiler

end Shading
