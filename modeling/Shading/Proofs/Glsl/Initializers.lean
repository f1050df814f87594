import Shading.Proofs.Glsl.BeforeUse

/-!
# What initializers refer to

The constants and global variables of a text keep the order of the tree and stand before all
functions. Their initializers refer to earlier declarations exactly when the tree has them in
this order and no initializer calls a function, whether or not the references are acyclic.
-/

namespace Shading

namespace Glsl

open Relation

namespace Global

/-- The variables that the initializer mentions. -/
def references (g : Global) : List String := (g.initializer.map Expr.references).getD []

/-- The nodes of the initializer. -/
def nodes (g : Global) : List Node := Expr.nodesOption g.initializer

end Global

/-- The variable or the function that a node names. -/
def namedHere? : Node → Option String
  | .expr (.ref _ n) => some n
  | .expr (.call _ n _) => some n
  | _ => none

namespace Declaration

/-- The constant or variable, if the declaration is one. -/
def global? : Declaration → Option Global
  | global g => some g
  | _ => none

/-- The name of a constant, a global variable or a function. -/
def name? : Declaration → Option String
  | global g => some g.name
  | function f => some f.1.name
  | _ => none

/-- The names that an initializer or a body mentions. -/
def mentions : Declaration → List String
  | global g => g.nodes.filterMap namedHere?
  | function f => (Stmt.nodesList f.2).filterMap namedHere?
  | _ => []

end Declaration

namespace Program

/-- A constant, a global variable or a function of the text mentions another one. -/
def Mentions (p : Program) (d e : Declaration) : Prop :=
  e ∈ p.declarations ∧ ∃ n ∈ d.mentions, e.name? = some n

/-- No constant, global variable or function comes back to itself through what it mentions. -/
def Acyclic (p : Program) : Prop := ∀ d ∈ p.declarations, ¬TransGen p.Mentions d d

/-- What an initializer refers to is declared before it in the text. -/
structure InitializersFollow (p : Program) : Prop where
  globals : ∀ g ∈ globals p, ∀ h ∈ globals p, h.name ∈ g.references →
    Precedes p.declarations (.global h) (.global g)
  functions : ∀ g ∈ Glsl.globals p, ∀ f ∈ p.declared, Calls g.nodes f.name →
    ∃ body, Precedes p.declarations (.function (f, body)) (.global g)

/-- Initializers mention earlier constants and globals of the tree only and call nothing. -/
structure InSourceOrder (p : Program) : Prop where
  sorted : ∀ g ∈ globals p, ∀ h ∈ globals p, h.name ∈ g.references → Precedes (globals p) h g
  callFree : ∀ g ∈ globals p, ∀ n, ¬Calls g.nodes n

variable {p : Program}

/-- Names that are mentioned have a lower rank, so that nothing comes back to itself. -/
theorem acyclic_of_rank (rank : String → Nat)
    (h : ∀ d ∈ p.declarations, ∀ n ∈ d.name?, ∀ m ∈ d.mentions, rank m < rank n) :
    p.Acyclic := by
  have hstep {d e : Declaration} (hd : d ∈ p.declarations) (hpath : TransGen p.Mentions d e) :
      e ∈ p.declarations ∧ ∀ n ∈ d.name?, ∀ m ∈ e.name?, rank m < rank n := by
    induction hpath with
    | single hmentions =>
        obtain ⟨he, k, hk, hname⟩ := hmentions
        refine ⟨he, fun n hn m hm => ?_⟩
        obtain rfl := Option.some.inj (hname.symm.trans hm)
        exact h d hd n hn k hk
    | tail _ hmentions ih =>
        obtain ⟨he, k, hk, hname⟩ := hmentions
        refine ⟨he, fun n hn m hm => ?_⟩
        obtain rfl := Option.some.inj (hname.symm.trans hm)
        rename_i c _ _
        cases hc : c.name? with
        | none => cases c <;> simp [Declaration.name?, Declaration.mentions] at hc hk
        | some j =>
            calc rank k < rank j := h c ih.1 j hc k hk
              _ < rank n := ih.2 n hn j hc
  intro d hd hpath
  cases hname : d.name? with
  | none =>
      obtain ⟨e, ⟨_, k, hk, _⟩, _⟩ := TransGen.head'_iff.mp hpath
      cases d <;> simp [Declaration.name?, Declaration.mentions] at hname hk
  | some n => exact absurd ((hstep hd hpath).2 n hname n hname) (Nat.lt_irrefl _)

theorem filterMap_global?_declarations (p : Program) :
    p.declarations.filterMap Declaration.global? = globals p := by
  simp [declarations, List.filterMap_append, List.filterMap_map, Function.comp_def,
    Declaration.global?]

theorem global_mem_beforeFunctions {g : Global} (hg : g ∈ globals p) :
    .global g ∈ p.beforeFunctions := by
  simp [beforeFunctions, hg]

/-- One constant or global variable precedes another in the text as it does in the tree. -/
theorem precedes_globals_iff (g h : Global) :
    Precedes p.declarations (.global h) (.global g) ↔ Precedes (globals p) h g := by
  have hglobal (k : Global) (d : Declaration) : d.global? = some k ↔ d = .global k := by
    cases d <;> simp [Declaration.global?]
  constructor
  · intro hprecedes
    rw [← filterMap_global?_declarations p]
    exact hprecedes.filterMap (hglobal h) (hglobal g)
  · intro hprecedes
    have hmap : Precedes ((globals p).map Declaration.global) (.global h) (.global g) :=
      hprecedes.map fun _ _ heq => Declaration.global.inj heq
    have hsplit : p.declarations = (p.orderedStructs.map .struct ++ (p.externals.map .external ++
        (locatedVariables p).map (fun v => .interface v.1 v.2.1 v.2.2))) ++
        ((globals p).map .global ++ p.orderedFunctions.map .function) := by
      simp [declarations]
    rw [hsplit]
    apply hmap.append <;> simp

/-- No function precedes a constant or a global variable. -/
theorem not_precedes_global {g : Global} (hg : g ∈ globals p) (f : Signature × List Stmt) :
    ¬Precedes p.declarations (.function f) (.global g) := by
  rw [declarations_eq_functions]
  apply Precedes.not_of_append
  · exact function_notMem_beforeFunctions f
  · exact global_mem_beforeFunctions hg

/-- Initializers follow what they refer to exactly when the tree has it in this order, if
every function that they call is declared. -/
theorem initializersFollow_iff
    (hdeclared : ∀ g ∈ globals p, ∀ n, Calls g.nodes n → ∃ f ∈ p.declared, f.name = n) :
    p.InitializersFollow ↔ p.InSourceOrder := by
  constructor
  · intro hfollow
    constructor
    · intro g hg h hh hmem
      exact (precedes_globals_iff g h).mp (hfollow.globals g hg h hh hmem)
    · intro g hg n hcalls
      obtain ⟨f, hf, rfl⟩ := hdeclared g hg n hcalls
      obtain ⟨body, hprecedes⟩ := hfollow.functions g hg f hf hcalls
      exact not_precedes_global hg (f, body) hprecedes
  · intro hordered
    constructor
    · intro g hg h hh hmem
      exact (precedes_globals_iff g h).mpr (hordered.sorted g hg h hh hmem)
    · intro g hg f _ hcalls
      exact absurd hcalls (hordered.callFree g hg f.name)

end Program

/-- The text of an extracted stage is the row of declarations of its program, one part for each
of them in their order. Its initializers follow what they refer to exactly when the tree has it
in this order, also where nothing refers to itself. -/
theorem render_initializersFollow_iff {source : Stmt} {stage : Stage} {x : ExtractedStage}
    {s : Settings} {text : String} (hx : extractStage source stage = .ok x)
    (hr : render s x.tree = .ok text) :
    ∃ p out, program s x.tree = .ok p ∧
      p.declarations.foldlM (writeDeclaration p) (Progress.start p) = .ok out ∧
      text = out.writer.text ∧ p.WrittenOut text ∧
      (p.InitializersFollow ↔ p.InSourceOrder) := by
  obtain ⟨p, out, hp, hout, htext, hwritten, _⟩ := render_declaresBeforeUse hr
  obtain ⟨rfl, hitems, _⟩ := program_of_ok hp
  refine ⟨p, out, hp, hout, htext, hwritten, Program.initializersFollow_iff fun g hg n hn => ?_⟩
  obtain ⟨item, hitem, hmem⟩ := List.mem_flatMap.mp hg
  rw [Program.declared, hitems]
  rw [hitems] at hitem
  cases item with
  | consts b cs =>
      obtain ⟨c, hc, rfl⟩ := List.mem_map.mp hmem
      exact Extractor.exists_function_of_const hx hitem hc hn
  | var b v =>
      obtain rfl := List.mem_singleton.mp hmem
      exact Extractor.exists_function_of_var hx hitem hn
  | _ => cases hmem

/-- `const { float a = b; float b = 1.0; } [entry(fragment)] void fs() { float c = a; }` -/
def forwardTokens : List Token :=
  [.keyword .const, .symbol .lbrace, .ident "float", .ident "a", .symbol .eq, .ident "b",
    .symbol .semicolon, .ident "float", .ident "b", .symbol .eq,
    .float ⟨0x3f800000⟩, .symbol .semicolon, .symbol .rbrace, .symbol .lbracket, .ident "entry",
    .symbol .lparen, .ident "fragment", .symbol .rparen, .symbol .rbracket, .ident "void",
    .ident "fs", .symbol .lparen, .symbol .rparen, .symbol .lbrace, .ident "float", .ident "c",
    .symbol .eq, .ident "a", .symbol .semicolon, .symbol .rbrace, .eof].map
      fun k => ⟨k, Span.dummy, Position.nowhere⟩

/-- A constant whose value mentions the next one of its block is written first, although
nothing in the tree refers to itself. -/
theorem forward_initializers :
    ∃ tree x text p, parseTokens forwardTokens Registry.standard = .ok tree ∧
      extractStage tree .fragment = .ok x ∧
      render (Settings.desktop.withStage .fragment) x.tree = .ok text ∧
      program (Settings.desktop.withStage .fragment) x.tree = .ok p ∧ p.Acyclic ∧
      ¬p.InitializersFollow := by
  obtain ⟨tree, x, text, p, a, b, hparse, hx, hr, hp, hglobals, hnames, href, ha, hb⟩ :
      ∃ tree x text p a b, parseTokens forwardTokens Registry.standard = .ok tree ∧
        extractStage tree .fragment = .ok x ∧
        render (Settings.desktop.withStage .fragment) x.tree = .ok text ∧
        program (Settings.desktop.withStage .fragment) x.tree = .ok p ∧ globals p = [a] ++ [b] ∧
        p.declarations.map (fun d => (d.name?, d.mentions)) =
          [(some "a", ["b"]), (some "b", []), (some "fs", ["a"])] ∧
        a.references = ["b"] ∧ a.name = "a" ∧ b.name = "b" :=
    ⟨_, _, _, _, _, _, by rfl, by with_unfolding_all rfl, by rfl, by rfl, by rfl, by rfl, by rfl,
      by rfl, by rfl⟩
  refine ⟨tree, x, text, p, hparse, hx, hr, hp, ?_, fun hfollow => ?_⟩
  · apply Program.acyclic_of_rank fun n => ["b", "a", "fs"].idxOf n
    intro d hd n hn m hm
    have hpair := List.mem_map_of_mem (f := fun d : Declaration => (d.name?, d.mentions)) hd
    rw [hnames, Option.mem_def.mp hn] at hpair
    simp only [List.mem_cons, Prod.mk.injEq, Option.some.injEq, List.not_mem_nil, or_false]
      at hpair
    rcases hpair with ⟨rfl, hmentions⟩ | ⟨rfl, hmentions⟩ | ⟨rfl, hmentions⟩ <;>
      rw [hmentions] at hm
    · obtain rfl := List.mem_singleton.mp hm
      decide
    · cases hm
    · obtain rfl := List.mem_singleton.mp hm
      decide
  · obtain ⟨p', _, hp', _, _, _, hiff⟩ := render_initializersFollow_iff hx hr
    cases hp.symm.trans hp'
    have hsorted := (hiff.mp hfollow).sorted a (by simp [hglobals]) b (by simp [hglobals])
      (by simp [href, hb])
    have hne : b ≠ a := fun heq => absurd (heq ▸ hb) (by simp [ha])
    rw [hglobals] at hsorted
    exact Precedes.not_of_append (by simpa using hne) List.mem_cons_self hsorted

end Glsl

end Shading
