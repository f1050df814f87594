import Shading.Parse.File
import Shading.Proofs.Glsl.Definitions
import Shading.Proofs.Syntax.Rename

/-!
# How references are spelled

A text spells a reference with the name that the fixed-function variables of the tree give
it, whatever is bound where the reference stands.
-/

namespace Shading

namespace Dialect

/-- The dialect that spells references as they are. -/
def verbatim (d : Dialect) : Dialect := { d with reference := id }

end Dialect

namespace Expr

variable (r : String → String)

@[simp] theorem needsParens_rename (e : Expr) (min : Precedence) (strict : Bool) :
    (e.rename r).needsParens min strict = e.needsParens min strict := by
  cases e <;> rfl

@[simp] theorem needsParensAfterSign_rename (e : Expr) :
    (e.rename r).needsParensAfterSign = e.needsParensAfterSign := by
  cases e <;> rfl

variable (d : Dialect)

mutual

/-- Writing renamed references as they are is writing references under their names. -/
theorem text_rename (e : Expr) : (e.rename d.reference).text d.verbatim = e.text d := by
  cases e with
  | constant s v => rfl
  | ref s n => rfl
  | index s a b | assign s op a b | binary s op a b =>
      simp only [rename_index, rename_assign, rename_binary, text, text_rename a, text_rename b,
        needsParens_rename]
  | field s a n | swizzle s a w | unary s op a =>
      simp only [rename_field, rename_swizzle, rename_unary, text, text_rename a,
        needsParens_rename, needsParensAfterSign_rename]
  | call s n es | cast s t es => simp only [rename_call, rename_cast, text, textList_rename es]
  | builtin s f es =>
      simp only [rename_builtin, text, textList_rename es]
      rfl
  | ternary s a b c =>
      simp only [rename_ternary, text, text_rename a, text_rename b, text_rename c,
        needsParens_rename]

theorem textList_rename (es : List Expr) :
    textList d.verbatim (es.map (rename d.reference)) = textList d es := by
  cases es with
  | nil => rfl
  | cons e es => rw [List.map_cons, textList, text_rename e, textList_rename es, textList]

end

end Expr

namespace Glsl

section Renamed

variable (p : Program)

/-- References under the names of fixed-function variables, wherever they stand. -/
def everywhere (_ : Visible) (e : Expr) : Expr := e.rename p.referenceName

/-- References under the names of fixed-function variables, unless they are bound. -/
def whereFree (v : Visible) (e : Expr) : Expr :=
  e.rename fun n => if v.binds n then n else p.referenceName n

open Dialect

/-- An expression in place is written alike when its references are renamed before. -/
theorem expr_everywhere (v : Visible) (e : Expr) (w : Writer) :
    (dialect p).verbatim.expr (everywhere p v e) w = (dialect p).expr e w := by
  rw [Dialect.expr, everywhere]
  exact congrArg (· >>= _) (Expr.text_rename (dialect p) e)

theorem exprAfter_everywhere (v : Visible) (lead : String) (e : Option Expr) (w : Writer) :
    (dialect p).verbatim.exprAfter lead (e.map (everywhere p v)) w =
      (dialect p).exprAfter lead e w := by
  cases e with
  | none => rfl
  | some e => exact expr_everywhere p v e _

theorem variableDeclaration_everywhere (v : Visible) (d : VariableDeclaration) (w : Writer) :
    (dialect p).verbatim.variableDeclaration
        { d with initializer := d.initializer.map (everywhere p v) } w =
      (dialect p).variableDeclaration d w :=
  exprAfter_everywhere p v _ _ _

theorem openBody_mapExprs (f : Visible → Expr → Expr) (v : Visible) (s : Stmt) (w : Writer) :
    openBody (s.mapExprs f v) w = openBody s w := by
  cases s <;> rfl

theorem closeBody_mapExprs (f : Visible → Expr → Expr) (v : Visible) (s : Stmt) (w : Writer) :
    closeBody (s.mapExprs f v) w = closeBody s w := by
  cases s <;> rfl

mutual

/-- A statement is written alike when its references are renamed before. -/
theorem openStmt_everywhere (v : Visible) (s : Stmt) (w : Writer) :
    (dialect p).verbatim.openStmt (s.mapExprs (everywhere p) v) w = (dialect p).openStmt s w := by
  cases s with
  | branch b arms otherwise =>
      simp only [Stmt.mapExprs_branch, openStmt, arms_everywhere v, alternative_everywhere]
  | forLoop b init condition step body =>
      simp only [Stmt.mapExprs_forLoop, openStmt, clause_everywhere, exprAfter_everywhere,
        openStmt_everywhere _ body, openBody_mapExprs, closeBody_mapExprs]
  | whileLoop b condition body =>
      simp only [Stmt.mapExprs_whileLoop, openStmt, expr_everywhere,
        openStmt_everywhere _ body, openBody_mapExprs, closeBody_mapExprs]
  | doWhile b body condition =>
      simp only [Stmt.mapExprs_doWhile, openStmt, expr_everywhere,
        openStmt_everywhere _ body, openBody_mapExprs, closeBody_mapExprs]
  | var b d =>
      simp only [Stmt.mapExprs_var, openStmt, variableDeclaration_everywhere]
  | expr b e => simp only [Stmt.mapExprs_expr, openStmt, expr_everywhere]
  | ret b value =>
      cases value with
      | none => rfl
      | some e => simp only [Stmt.mapExprs_ret, openStmt, Option.map_some, expr_everywhere]
  | block b items => simp only [Stmt.mapExprs_block, openStmt, stmts_everywhere _ items]
  | leaveLoop | nextRound | discard => rfl
  -- the dialect refuses everything else for its kind and its span alone
  | struct | inputs | outputs | externals | options | consts | function | optional | library => rfl

theorem stmts_everywhere (v : Visible) (ss : List Stmt) (w : Writer) :
    (dialect p).verbatim.stmts (Stmt.mapExprsList (everywhere p) v ss) w =
      (dialect p).stmts ss w := by
  cases ss with
  | nil => rfl
  | cons s ss =>
      simp only [Stmt.mapExprsList_cons, stmts, openStmt_everywhere v s, stmts_everywhere _ ss]

theorem arms_everywhere (v : Visible) (lead : String) (as : List (Expr × Stmt)) (w : Writer) :
    (dialect p).verbatim.arms lead (Stmt.mapExprsArms (everywhere p) v as) w =
      (dialect p).arms lead as w := by
  match as with
  | [] => rfl
  | (c, s) :: rest =>
      simp only [Stmt.mapExprsArms_cons, arms, expr_everywhere, openStmt_everywhere v s,
        arms_everywhere _ _ rest, openBody_mapExprs, closeBody_mapExprs]

theorem alternative_everywhere (v : Visible) (s : Option Stmt) (w : Writer) :
    (dialect p).verbatim.alternative (Stmt.mapExprsOption (everywhere p) v s) w =
      (dialect p).alternative s w := by
  cases s with
  | none => rfl
  | some s =>
      simp only [Stmt.mapExprsOption_some, alternative, openStmt_everywhere v s,
        openBody_mapExprs, closeBody_mapExprs]

theorem clause_everywhere (v : Visible) (s : Option Stmt) (w : Writer) :
    (dialect p).verbatim.clause (Stmt.mapExprsOption (everywhere p) v s) w =
      (dialect p).clause s w := by
  cases s with
  | none => rfl
  | some s =>
      have hopen := openStmt_everywhere v s
      rw [Stmt.mapExprsOption_some]
      cases s with
      | var b d =>
          rw [Stmt.mapExprs_var]
          exact variableDeclaration_everywhere p v d w
      | expr b e => exact expr_everywhere p v e w
      | _ => exact congrArg (· >>= _) (hopen w)

end

end Renamed

namespace Definition

/-- The names that are bound where the body begins. -/
def visible (d : Definition) : Visible := some (d.parameters.map (·.name))

/-- The definition with other expressions in its body. -/
def mapExprs (d : Definition) (f : Visible → Expr → Expr) : Definition :=
  { d with body := Stmt.mapExprsList f d.visible d.body }

/-- The names of the references to parameters and to local variables. -/
def boundReferences (d : Definition) : List String :=
  (Stmt.placedList d.visible d.body).flatMap fun q => q.2.references.filter q.1.binds

end Definition

section Text

variable {p : Program}

/-- A definition is written alike when its references are renamed before. -/
theorem writeDefinition_everywhere (w : Writer) (d : Definition) :
    writeDefinition (dialect p).verbatim w (d.mapExprs (everywhere p)) =
      writeDefinition (dialect p) w d := by
  rw [writeDefinition, writeDefinition, Definition.mapExprs]
  simp only [stmts_everywhere]
  rfl

/-- Scopes make no difference exactly when no bound name has another spelling. -/
theorem mapExprs_everywhere_eq_iff (d : Definition) :
    d.mapExprs (everywhere p) = d.mapExprs (whereFree p) ↔
      ∀ n ∈ d.boundReferences, p.referenceName n = n := by
  rw [Definition.mapExprs, Definition.mapExprs, Definition.mk.injEq]
  simp only [true_and, Stmt.mapExprsList_eq_iff, Stmt.Agree, everywhere, whereFree,
    Expr.rename_eq_rename_iff, Definition.boundReferences, List.forall_mem_flatMap,
    List.mem_filter]
  refine forall₂_congr fun q _ => forall_congr' fun n => ?_
  cases q.1.binds n <;> simp

/-- The tree declares a fixed-function variable that the target knows under another name. -/
inductive Program.Fixed (p : Program) : String → String → Prop where
  | input {b : Span} {vs : List InterfaceVariable} {v : InterfaceVariable} {f : BuiltinVariable}
      (hblock : .inputs b vs ∈ p.items) (hv : v ∈ vs) (hslot : v.slot = .builtin f) :
      p.Fixed v.name (builtinVariableName f p.stage false p.settings.vulkan)
  | output {b : Span} {vs : List InterfaceVariable} {v : InterfaceVariable} {f : BuiltinVariable}
      (hblock : .outputs b vs ∈ p.items) (hv : v ∈ vs) (hslot : v.slot = .builtin f) :
      p.Fixed v.name (builtinVariableName f p.stage true p.settings.vulkan)

theorem mem_renamesOf {isOutput : Bool} {vs : List InterfaceVariable} {n g : String} :
    (n, g) ∈ p.renamesOf isOutput vs ↔ ∃ v ∈ vs, ∃ f, v.slot = .builtin f ∧ v.name = n ∧
      builtinVariableName f p.stage isOutput p.settings.vulkan = g := by
  rw [Program.renamesOf, List.mem_filterMap]
  refine exists_congr fun v => and_congr_right fun _ => ?_
  cases hslot : v.slot <;> simp [Slot.builtin?]

/-- The fixed names are those in the table of renamed variables. -/
theorem fixed_iff_mem_renames {n g : String} : p.Fixed n g ↔ (n, g) ∈ p.renames := by
  rw [Program.renames, List.mem_flatMap]
  constructor
  · rintro (⟨hblock, hv, hslot⟩ | ⟨hblock, hv, hslot⟩)
    · exact ⟨_, hblock, mem_renamesOf.mpr ⟨_, hv, _, hslot, rfl, rfl⟩⟩
    · exact ⟨_, hblock, mem_renamesOf.mpr ⟨_, hv, _, hslot, rfl, rfl⟩⟩
  · rintro ⟨item, hitem, hmem⟩
    cases item with
    | inputs b vs =>
        obtain ⟨v, hv, f, hslot, rfl, rfl⟩ := mem_renamesOf.mp hmem
        exact .input hitem hv hslot
    | outputs b vs =>
        obtain ⟨v, hv, f, hslot, rfl, rfl⟩ := mem_renamesOf.mp hmem
        exact .output hitem hv hslot
    | _ => cases hmem

/-- A reference to a fixed-function variable is spelled with a name that the target knows
such a variable under. -/
theorem fixed_referenceName {n g : String} (h : p.Fixed n g) : p.Fixed n (p.referenceName n) := by
  rw [Program.referenceName]
  cases hlookup : p.renames.reverse.lookup n with
  | none =>
      have hn := List.lookup_eq_none_iff.mp hlookup (n, g)
        (List.mem_reverse.mpr (fixed_iff_mem_renames.mp h))
      simp at hn
  | some k =>
      obtain ⟨before, after, hsplit, _⟩ := List.lookup_eq_some_iff.mp hlookup
      rw [Option.getD_some, fixed_iff_mem_renames, ← List.mem_reverse, hsplit]
      simp

/-- A name that is not fixed is written as it is. -/
theorem referenceName_of_not_fixed {n : String} (h : ∀ g, ¬p.Fixed n g) :
    p.referenceName n = n := by
  rw [Program.referenceName, List.lookup_eq_none_iff.mpr]
  · rfl
  · rintro ⟨m, g⟩ hmem
    rw [List.mem_reverse, ← fixed_iff_mem_renames] at hmem
    rw [bne_iff_ne]
    rintro rfl
    exact h g hmem

end Text

/-- The functions of a text are the definitions of its program with all references respelled,
those to fixed-function variables as the target knows them. A definition respects scopes
exactly when no parameter or local variable that it mentions has the name of a
fixed-function variable. -/
theorem render_respelled {s : Settings} {tree : Stmt} {text : String}
    (hr : render s tree = .ok text) :
    ∃ p lead w, program s tree = .ok p ∧ writeLead p = .ok lead ∧
      (p.definitions.map (·.mapExprs (everywhere p))).foldlM
        (writeDefinition (dialect p).verbatim) lead = .ok w ∧
      text = w.text ∧
      (∀ n g, p.Fixed n g → p.Fixed n (p.referenceName n)) ∧
      (∀ n, (∀ g, ¬p.Fixed n g) → p.referenceName n = n) ∧
      ∀ d ∈ p.definitions, d.mapExprs (everywhere p) = d.mapExprs (whereFree p) ↔
        ∀ n ∈ d.boundReferences, p.referenceName n = n := by
  obtain ⟨p, hp, htext⟩ := Except.bind_eq_ok_iff.mp hr
  obtain ⟨_, _, hchecked⟩ := program_of_ok hp
  rw [text_eq_definitions hchecked] at htext
  obtain ⟨lead, hlead, htext⟩ := Except.bind_eq_ok_iff.mp htext
  obtain ⟨w, hw, htext⟩ := Except.bind_eq_ok_iff.mp htext
  cases htext
  refine ⟨p, lead, w, hp, hlead, ?_, rfl, fun _ _ => fixed_referenceName,
    fun _ => referenceName_of_not_fixed, fun d _ => mapExprs_everywhere_eq_iff d⟩
  simpa only [List.foldlM_map, writeDefinition_everywhere] using hw

/-- `input { [builtin(position)] vec4 p; } [entry(fragment)] void fs() { vec4 p; p; }` -/
def localTokens : List Token :=
  [.keyword .input, .symbol .lbrace, .symbol .lbracket, .ident "builtin", .symbol .lparen,
    .ident "position", .symbol .rparen, .symbol .rbracket, .ident "vec4", .ident "p",
    .symbol .semicolon, .symbol .rbrace, .symbol .lbracket, .ident "entry", .symbol .lparen,
    .ident "fragment", .symbol .rparen, .symbol .rbracket, .ident "void", .ident "fs",
    .symbol .lparen, .symbol .rparen, .symbol .lbrace, .ident "vec4", .ident "p",
    .symbol .semicolon, .ident "p", .symbol .semicolon, .symbol .rbrace,
    .eof].map fun k => ⟨k, Span.dummy, Position.nowhere⟩

/-- The entry spells its local variable as the fragment position. -/
theorem local_respelled :
    ∃ tree text p d, parseTokens localTokens Registry.standard = .ok tree ∧
      render Settings.desktop tree = .ok text ∧
      program Settings.desktop tree = .ok p ∧ p.definitions[0]? = some d ∧
      d.mapExprs (everywhere p) ≠ d.mapExprs (whereFree p) := by
  obtain ⟨tree, text, p, d, hparse, hr, hp, hd, hbound, hname⟩ :
      ∃ tree text p d, parseTokens localTokens Registry.standard = .ok tree ∧
        render Settings.desktop tree = .ok text ∧
        program Settings.desktop tree = .ok p ∧ p.definitions[0]? = some d ∧
        d.boundReferences = ["p"] ∧ p.referenceName "p" = "gl_FragCoord" :=
    ⟨_, _, _, _, rfl, rfl, rfl, rfl, rfl, rfl⟩
  refine ⟨tree, text, p, d, hparse, hr, hp, hd, fun heq => ?_⟩
  obtain ⟨p', _, _, hp', _, _, _, _, _, hiff⟩ := render_respelled hr
  cases hp.symm.trans hp'
  have hsame := (hiff d (List.mem_of_getElem? hd)).mp heq "p" (by simp [hbound])
  exact absurd (hname.symm.trans hsame) (by decide)

end Glsl

end Shading
