import Shading.Proofs.Glsl.LineEnds
import Shading.Proofs.Options.Literals
import Shading.Proofs.Parse.Clear
import Shading.Session

/-!
# Generated text

A backend renders a whole text and feeds it to an emitter line by line. The emitter then has
the text at its end if no line of it ends with a carriage return, and every tree that is read
or specialized renders such a text as long as no known type is named with one.
-/

namespace Shading

open Kind (AllClear)
open Piece (spell)

/-- Specializing brings in no name. -/
theorem Permutation.Chooses.allClear {H : Prop} {p : Permutation} {ps qs : List Piece}
    (h : p.Chooses ps qs) (hps : AllClear H (spell ps)) : AllClear H (spell qs) := by
  simp only [spell, Kind.allClear_flatMap] at hps ⊢
  intro b hb
  rcases h.of_mem hb with (rfl | rfl) | ⟨a, ha, hab⟩
  · simp [Piece.literal, Piece.symbol]
  · simp [Piece.literal, Piece.symbol]
  · cases hab with
    | same => exact hps b ha
    | chosen => exact Kind.allClear_literal

/-- A backend that renders text. -/
inductive Backend where
  | source
  | target (s : Glsl.Settings)

namespace Backend

/-- The text that the backend gives for a tree, before any of it is emitted. -/
def render : Backend → Stmt → Except CodegenError String
  | source, tree => tree.sourceText
  | target s, tree => Glsl.render s tree

/-- Generating with either backend. -/
def generate : Backend → Stmt → Emitter → Except CodegenError Emitter
  | source, tree, e => tree.emitSource e
  | target s, tree, e => Glsl.generate s tree e

/-- What a generation answers, and the emitter that it leaves. -/
def run (b : Backend) (tree : Stmt) (e : Emitter) : Except CodegenError Unit × Emitter :=
  match b.generate tree e with
  | .ok e' => (.ok (), e')
  | .error err => (.error err, e)

theorem generate_eq_bind (b : Backend) (tree : Stmt) (e : Emitter) :
    b.generate tree e = b.render tree >>= fun text => .ok (e.emitLines text) := by
  cases b <;> rfl

theorem run_of_ok {b : Backend} {tree : Stmt} {text : String} (h : b.render tree = .ok text)
    (e : Emitter) : b.run tree e = (.ok (), e.emitLines text) := by
  rw [run, generate_eq_bind, h, Except.ok_bind]

theorem run_of_error {b : Backend} {tree : Stmt} {err : CodegenError}
    (h : b.render tree = .error err) (e : Emitter) : b.run tree e = (.error err, e) := by
  rw [run, generate_eq_bind, h, Except.error_bind]

/-- A rendered text is a row of whole lines, without pairs if no name of the tree has one. -/
theorem gives_render {H : Prop} (b : Backend) {tree : Stmt}
    (h : AllClear H (spell tree.filePieces)) :
    Except.Gives (fun text => Clear H text ∧ EndsLine text.toList) (b.render tree) := by
  cases b with
  | source => exact Stmt.gives_sourceText h
  | target s => exact Glsl.gives_render s h

/-- The text of a backend ends its last line, and is clear where the names of the tree are. -/
theorem clear_and_endsLine {H : Prop} {b : Backend} {tree : Stmt}
    (h : AllClear H (spell tree.filePieces)) {text : String} (htext : b.render tree = .ok text) :
    Clear H text ∧ EndsLine text.toList := by
  have hgives := b.gives_render h
  rw [htext] at hgives
  cases hgives with
  | ok h => exact h

/-- Whatever the tree is, its text ends with the end of its last line. -/
theorem endsLine_render {b : Backend} {tree : Stmt} {text : String}
    (htext : b.render tree = .ok text) : EndsLine text.toList :=
  (clear_and_endsLine (Kind.allClear_false _) htext).2

end Backend

/-- The trees that a compiler reads from source texts and from tokens without pairs, and those
that specializing makes of them. -/
inductive Compiler.Makes (c : Compiler) : Stmt → Prop
  | source {source : String} {shader : Shader} (h : c.parse source = .ok shader) :
      Makes c shader.tree
  | tokens {tokens : List Token} {tree : Stmt}
      (hnames : ∀ t ∈ tokens, ∀ name, t.kind = .ident name → Unpaired name.toList)
      (h : c.readTokens tokens = .ok tree) : Makes c tree
  | permutation {tree out : Stmt} {z : Specializer} (htree : Makes c tree)
      (h : z.process tree = .ok out) : Makes c out

/-- No name in a tree that the compiler makes has a line ending of two characters, where no type
name has one. -/
theorem Compiler.Makes.allClear {c : Compiler} {tree : Stmt}
    (hregistry : ∀ name t, c.registry.type? name = some t → Unpaired t.baseName.toList)
    (h : c.Makes tree) : AllClear True (spell tree.filePieces) := by
  have hread {tokens : List Token} {tree : Stmt} (htokens : AllClear True (tokens.map Token.kind))
      (h : c.readTokens tokens = .ok tree) : AllClear True (spell tree.filePieces) := by
    have htypes : ∀ name t, c.registry.type? name = some t → Clear True t.baseName :=
      fun name t htype _ => hregistry name t htype
    unfold Compiler.readTokens at h
    split at h
    · obtain ⟨out, hsplice, hparse⟩ := Except.bind_eq_ok_iff.mp h
      exact allClear_of_parseTokens htypes (Libraries.allClear_splice htokens hsplice) hparse
    · exact allClear_of_parseTokens htypes htokens h
  induction h with
  | source h =>
      unfold Compiler.parse at h
      split at h
      · cases h
      · rename_i tokens htokens
        split at h
        · cases h
        · rename_i tree htree
          cases h
          exact hread (allClear_tokenize htokens) htree
  | tokens hnames h =>
      refine hread (fun k hk => ?_) h
      obtain ⟨t, ht, rfl⟩ := List.mem_map.mp hk
      cases hkind : t.kind with
      | ident name => exact fun _ => hnames t ht name hkind
      | _ => exact trivial
  | permutation _ h ih =>
      obtain ⟨p, scopes, -, -, hrun⟩ := Specializer.of_process h
      exact (Permutation.chooses_filePieces hrun).allClear ih

namespace Backend

/-- Where rendering fails, generating fails in the same way and leaves the emitter as it is.
Where a tree has a text, generating succeeds and adds the text line by line: what it adds is
the text itself, character by character, if and only if no line of the text ends with a carriage
return. That is so of every tree that a compiler reads and of what specializing makes of it,
unless a known type is named with such a line end. -/
theorem run_eq_render (b : Backend) (tree : Stmt) (e : Emitter) :
    (∀ err, b.render tree = .error err → b.run tree e = (.error err, e)) ∧
    ∀ text, b.render tree = .ok text →
      (∃ e', b.run tree e = (.ok (), e') ∧
        (e' = ⟨e.text ++ text⟩ ↔ Unpaired text.toList)) ∧
      ∀ c : Compiler, c.Makes tree →
        (∀ name t, c.registry.type? name = some t → Unpaired t.baseName.toList) →
          b.run tree e = (.ok (), ⟨e.text ++ text⟩) := by
  refine ⟨fun err h => run_of_error h e, fun text htext => ⟨?_, ?_⟩⟩
  · exact ⟨_, run_of_ok htext e, e.emitLines_eq_append_iff (endsLine_render htext)⟩
  · intro c hmakes hregistry
    have hclear := (clear_and_endsLine (hmakes.allClear hregistry) htext).1 trivial
    rw [run_of_ok htext, (e.emitLines_eq_append_iff (endsLine_render htext)).mpr hclear]

/-- The default dialect has no type that is named with a line end. -/
theorem unpaired_standard (name : String) (t : Ty) (h : Registry.standard.type? name = some t) :
    Unpaired t.baseName.toList := by
  have hinline : Registry.standard.types.all (fun entry => isInline entry.2.baseName) = true := by
    decide
  obtain ⟨before, after, hsplit, -⟩ := List.lookup_eq_some_iff.mp h
  have hmem : (name, t) ∈ Registry.standard.types := by simp [hsplit]
  exact Clear.of_isInline (List.all_eq_true.mp hinline _ hmem) trivial

/-- A source that is parsed gives a shader. -/
theorem exists_shader {α : Type} {c : Compiler} {source : String} {f : Stmt → α} {a : α}
    (h : ((c.parse source).toOption.map fun shader => f shader.tree) = some a) :
    ∃ shader, c.parse source = .ok shader ∧ f shader.tree = a := by
  cases hparse : c.parse source with
  | error e =>
      rw [hparse] at h
      cases h
  | ok shader =>
      rw [hparse] at h
      exact ⟨shader, rfl, Option.some.inj h⟩

/-- A compiler without libraries that reads the default dialect. -/
def plainCompiler : Compiler := ⟨Registry.standard, none, ⟨true, false⟩, .newest⟩

/-- A file without an entry function has a source text and no text of a stage. -/
theorem run_eq_render_global : ∃ shader, plainCompiler.parse "int x;" = .ok shader ∧
    source.run shader.tree ⟨"// head\r"⟩ = (.ok (), ⟨"// head\rint x;\n"⟩) ∧
    (target .desktop).run shader.tree ⟨"// head\r"⟩ =
      (.error (.missingEntry none), ⟨"// head\r"⟩) := by
  obtain ⟨shader, hparse, htexts⟩ : ∃ shader, plainCompiler.parse "int x;" = .ok shader ∧
      (source.render shader.tree, (target .desktop).render shader.tree) =
        (.ok "int x;\n", .error (.missingEntry none)) :=
    exists_shader (f := fun tree => (source.render tree, (target .desktop).render tree))
      (by decide +kernel)
  obtain ⟨hsource, htarget⟩ := Prod.mk.inj htexts
  refine ⟨shader, hparse, ?_, ?_⟩
  · exact ((run_eq_render source shader.tree ⟨"// head\r"⟩).2 _ hsource).2 plainCompiler
      (.source hparse) unpaired_standard
  · exact (run_eq_render (target .desktop) shader.tree ⟨"// head\r"⟩).1 _ htarget

/-- A compiler that knows a type named with a line end. -/
def pairCompiler : Compiler :=
  ⟨Registry.standard.addType "Foo" (.struct "a\r\nb"), none, ⟨true, false⟩, .newest⟩

/-- The line end in the name of the type loses its carriage return on the way to the emitter. -/
theorem run_ne_render_of_pair : ∃ shader, pairCompiler.parse "Foo x;" = .ok shader ∧
    source.render shader.tree = .ok "a\r\nb x;\n" ∧
    source.run shader.tree .empty = (.ok (), ⟨"a\nb x;\n"⟩) ∧
    source.run shader.tree .empty ≠ (.ok (), ⟨Emitter.empty.text ++ "a\r\nb x;\n"⟩) := by
  obtain ⟨shader, hparse, htexts⟩ : ∃ shader, pairCompiler.parse "Foo x;" = .ok shader ∧
      (source.render shader.tree, (source.run shader.tree .empty).2) =
        (.ok "a\r\nb x;\n", ⟨"a\nb x;\n"⟩) :=
    exists_shader (f := fun tree => (source.render tree, (source.run tree .empty).2))
      (by decide +kernel)
  obtain ⟨hrender, hemitter⟩ := Prod.mk.inj htexts
  have hrun : source.run shader.tree .empty = (.ok (), ⟨"a\nb x;\n"⟩) := by
    rw [← hemitter, run_of_ok hrender]
  refine ⟨shader, hparse, hrender, hrun, ?_⟩
  rw [hrun]
  decide

end Backend

end Shading
