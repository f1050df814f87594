import Shading.Parse.File
import Shading.Proofs.Extract.Calls
import Shading.Proofs.Glsl.Definitions

/-!
# What the calls of a text mean

The entry function gets another name where it is defined, and only there; other names of
functions are written as they are. Calls mean what they mean in the tree exactly as long as
no name is in the way of another one.
-/

namespace Shading

namespace Glsl

namespace Program

/-- The text defines all functions of the tree that a name means, under this name, and no
other function under it. -/
structure Defines (p : Program) (n : String) : Prop where
  exists_declared : ∃ f ∈ p.declared, f.name = n
  emitted : ∀ f ∈ p.declared, f.name = n → p.settings.emits f = true ∧ p.definedName f = n
  only : ∀ f ∈ p.functions, p.definedName f.1 = n → f.1.name = n

/-- A built-in function is called somewhere in the tree. -/
def CallsBuiltin (p : Program) (b : BuiltinFunction) : Prop :=
  ∃ span args, Node.expr (.builtin span b args) ∈ Stmt.nodesList p.items

/-- Calls mean in the text what they mean in the tree. -/
structure CallsFaithful (p : Program) : Prop where
  /-- One function is defined as `main`, the entry. -/
  main : ∃ body, (p.entry, body) ∈ p.functions ∧
    p.definitions.filter (·.name = "main") = [p.definition (p.entry, body)]
  /-- A call is written with a name that the text defines as the tree does. -/
  called : ∀ d ∈ p.definitions, ∀ n, Calls (Stmt.nodesList d.body) n → p.Defines n
  /-- No function hides a built-in one that is called. -/
  builtins : ∀ d ∈ p.definitions, ∀ b, p.CallsBuiltin b → d.name ≠ b.targetName

/-- No name of a function is in the way of another one. -/
structure NamesApart (p : Program) : Prop where
  /-- Beside the entry no function is named `main`. -/
  main : ∀ f ∈ p.functions, f.1.name = "main" → p.settings.qualifies f.1 = true
  /-- No entry function is called, unless it is the entry and is named `main`. -/
  called : ∀ f ∈ p.functions, ∀ n, Calls (Stmt.nodesList f.2) n → ∀ g ∈ p.declared, g.name = n →
    g.entry = none ∨ p.settings.qualifies g = true ∧ n = "main"
  /-- Beside the entry no function is named like a built-in one that is called. -/
  builtins : ∀ f ∈ p.functions, ∀ b, p.CallsBuiltin b → f.1.name = b.targetName →
    p.settings.qualifies f.1 = true

end Program

section Names

variable {p : Program}

theorem targetName_ne_main (b : BuiltinFunction) : b.targetName ≠ "main" := by
  cases b <;> decide

theorem definedName_of_qualifies {f : Signature} (h : p.settings.qualifies f = true) :
    p.definedName f = "main" := by
  rw [Program.definedName, if_pos h]

theorem definedName_of_not_qualifies {f : Signature} (h : p.settings.qualifies f = false) :
    p.definedName f = f.name := by
  rw [Program.definedName, h]
  rfl

theorem qualifies_of_entry_none {s : Settings} {f : Signature} (h : f.entry = none) :
    s.qualifies f = false := by
  rw [Settings.qualifies, h]

theorem exists_mem_functions {f : Signature} (h : f ∈ p.declared)
    (hemits : p.settings.emits f = true) : ∃ body, (f, body) ∈ p.functions := by
  obtain ⟨item, hitem, hf⟩ := List.mem_filterMap.mp h
  cases item with
  | function b g body =>
      cases hf
      exact ⟨body, List.mem_filterMap.mpr ⟨_, hitem, if_pos hemits⟩⟩
  | _ => cases hf

/-- A function of the program is one of its items. -/
theorem mem_items_of_mem_functions {f : Signature × List Stmt} (h : f ∈ p.functions) :
    ∃ b, .function b f.1 f.2 ∈ p.items := by
  obtain ⟨item, hitem, hf⟩ := List.mem_filterMap.mp h
  cases item with
  | function b g body =>
      dsimp only at hf
      split at hf
      · cases hf
        exact ⟨b, hitem⟩
      · cases hf
  | _ => cases hf

/-- The definitions are those of the functions that are emitted. -/
theorem mem_definitions_iff (d : Definition) :
    d ∈ p.definitions ↔ ∃ f ∈ p.functions, p.definition f = d := by
  rw [Program.definitions, List.mem_map]
  simp only [p.orderedFunctions_perm.mem_iff]

/-- The definitions named `main` are those of the functions that are named so or qualify. -/
theorem filter_definitions (p : Program) :
    ∃ fs : List (Signature × List Stmt),
      fs.Perm (p.functions.filter fun f => p.definedName f.1 = "main") ∧
      p.definitions.filter (·.name = "main") = fs.map p.definition :=
  ⟨_, p.orderedFunctions_perm.filter _, by rw [Program.definitions, List.filter_map]; rfl⟩

/-- One definition has the name of the entry point where no other function is named so. -/
theorem filter_main_iff (h : p.Checked) :
    (∃ body, (p.entry, body) ∈ p.functions ∧
      p.definitions.filter (·.name = "main") = [p.definition (p.entry, body)]) ↔
      ∀ f ∈ p.functions, f.1.name = "main" → p.settings.qualifies f.1 = true := by
  obtain ⟨body, hone⟩ := h.filter_qualifies
  have hentry : (p.entry, body) ∈ p.functions ∧ p.settings.qualifies p.entry = true :=
    List.mem_filter.mp (hone ▸ List.mem_singleton_self _)
  obtain ⟨fs, hperm, hfilter⟩ := filter_definitions p
  constructor
  · rintro ⟨body', _, hdefinitions⟩ f hf hname
    cases hq : p.settings.qualifies f.1 with
    | true => rfl
    | false =>
        -- the entry and the other function would be two of one definition
        have hlength : fs.length = 1 := by
          have := congrArg List.length (hfilter.symm.trans hdefinitions)
          simpa using this
        obtain ⟨g, rfl⟩ := List.length_eq_one_iff.mp hlength
        have hmem (k : Signature × List Stmt) (hk : k ∈ p.functions)
            (hmain : p.definedName k.1 = "main") : k = g := by
          have := hperm.mem_iff.mpr (List.mem_filter.mpr ⟨hk, by simpa using hmain⟩)
          exact List.mem_singleton.mp this
        have hf' := hmem f hf ((definedName_of_not_qualifies hq).trans hname)
        have hentry' := hmem _ hentry.1 (definedName_of_qualifies hentry.2)
        rw [hf', ← hentry'] at hq
        exact absurd (hentry.2.symm.trans hq) (by simp)
  · intro hmain
    have hsame : (p.functions.filter fun f => p.definedName f.1 = "main") = [(p.entry, body)] := by
      rw [← hone]
      refine List.filter_congr fun f hf => ?_
      cases hq : p.settings.qualifies f.1 with
      | true => simp [definedName_of_qualifies hq]
      | false =>
          rw [definedName_of_not_qualifies hq]
          simp only [decide_eq_false_iff_not]
          intro hname
          exact absurd (hmain f hf hname) (by simp [hq])
    rw [hsame, List.perm_singleton] at hperm
    exact ⟨body, hentry.1, by rw [hfilter, hperm]; rfl⟩

/-- Calls are faithful exactly when names are apart, in a tree in which every called name
is declared. -/
theorem callsFaithful_iff_namesApart (h : p.Checked)
    (hdeclared : ∀ f ∈ p.functions, ∀ n, Calls (Stmt.nodesList f.2) n →
      ∃ g ∈ p.declared, g.name = n) : p.CallsFaithful ↔ p.NamesApart := by
  constructor
  · intro hfaithful
    refine ⟨(filter_main_iff h).mp hfaithful.main, fun f hf n hn g hg hname => ?_,
      fun f hf b hb hname => ?_⟩
    · have hdefines := hfaithful.called _ ((mem_definitions_iff _).mpr ⟨f, hf, rfl⟩) n hn
      obtain ⟨hemits, hdefined⟩ := hdefines.emitted g hg hname
      cases hq : p.settings.qualifies g with
      | true => exact .inr ⟨rfl, hdefined.symm.trans (definedName_of_qualifies hq)⟩
      | false =>
          rw [Settings.emits, hq, Bool.or_false, Option.isNone_iff_eq_none] at hemits
          exact .inl hemits
    · cases hq : p.settings.qualifies f.1 with
      | true => rfl
      | false =>
          refine absurd ?_ (hfaithful.builtins _ ((mem_definitions_iff _).mpr ⟨f, hf, rfl⟩) b hb)
          exact (definedName_of_not_qualifies hq).trans hname
  · intro hapart
    refine ⟨(filter_main_iff h).mpr hapart.main, fun d hd n hn => ?_, fun d hd b hb hname => ?_⟩
    · obtain ⟨f, hf, rfl⟩ := (mem_definitions_iff d).mp hd
      obtain ⟨g, hg, hgname⟩ := hdeclared f hf n hn
      refine ⟨⟨g, hg, hgname⟩, fun k hk hname => ?_, fun k hk hname => ?_⟩
      · rcases hapart.called f hf n hn k hk hname with hnone | ⟨hq, rfl⟩
        · refine ⟨by rw [Settings.emits, hnone]; rfl, ?_⟩
          rw [definedName_of_not_qualifies (qualifies_of_entry_none hnone), hname]
        · exact ⟨emits_of_qualifies hq, definedName_of_qualifies hq⟩
      · cases hq : p.settings.qualifies k.1 with
        | false => exact (definedName_of_not_qualifies hq).symm.trans hname
        | true =>
            obtain rfl := (definedName_of_qualifies hq).symm.trans hname
            have hgq : p.settings.qualifies g = true := by
              rcases hapart.called f hf _ hn g hg hgname with hnone | ⟨hgq, _⟩
              · obtain ⟨body, hbody⟩ := exists_mem_functions hg (by rw [Settings.emits, hnone]; rfl)
                exact hapart.main (g, body) hbody hgname
              · exact hgq
            obtain ⟨body, hbody⟩ := exists_mem_functions hg (emits_of_qualifies hgq)
            rw [h.eq_entry hk hq, ← h.eq_entry hbody hgq]
            exact hgname
    · obtain ⟨f, hf, rfl⟩ := (mem_definitions_iff d).mp hd
      change p.definedName f.1 = b.targetName at hname
      cases hq : p.settings.qualifies f.1 with
      | true => exact targetName_ne_main b (hname.symm.trans (definedName_of_qualifies hq))
      | false =>
          rw [definedName_of_not_qualifies hq] at hname
          exact absurd (hapart.builtins f hf b hb hname) (by simp [hq])

end Names

theorem isEntryFor_of_qualifies {s : Settings} {stage : Stage} (hstage : s.stage = some stage)
    {f : Signature} (h : s.qualifies f = true) : f.isEntryFor stage = true := by
  unfold Settings.qualifies at h
  rw [hstage] at h
  unfold Signature.isEntryFor
  cases he : f.entry with
  | none =>
      rw [he] at h
      cases h
  | some e =>
      rw [he] at h
      exact h

/-- The text of an extracted stage is its lead and then its definitions. Their calls mean
what they mean in the tree exactly when no name of a function is in the way of another. -/
theorem render_callsFaithful_iff {source : Stmt} {stage : Stage} {x : ExtractedStage}
    {s : Settings} {text : String} (hx : extractStage source stage = .ok x)
    (hstage : s.stage = some stage) (hr : render s x.tree = .ok text) :
    ∃ p lead w, program s x.tree = .ok p ∧ p.entry.isEntryFor stage = true ∧
      writeLead p = .ok lead ∧ p.definitions.foldlM (writeDefinition (dialect p)) lead = .ok w ∧
      text = w.text ∧ (p.CallsFaithful ↔ p.NamesApart) := by
  obtain ⟨p, hp, htext⟩ := Except.bind_eq_ok_iff.mp hr
  obtain ⟨rfl, hitems, hchecked⟩ := program_of_ok hp
  rw [text_eq_definitions hchecked] at htext
  obtain ⟨lead, hlead, htext⟩ := Except.bind_eq_ok_iff.mp htext
  obtain ⟨w, hw, htext⟩ := Except.bind_eq_ok_iff.mp htext
  cases htext
  obtain ⟨body, hone⟩ := hchecked.filter_qualifies
  have hentry : (p.entry, body) ∈ p.functions ∧ p.settings.qualifies p.entry = true :=
    List.mem_filter.mp (hone ▸ List.mem_singleton_self _)
  refine ⟨p, lead, w, hp, isEntryFor_of_qualifies hstage hentry.2, hlead, hw, rfl,
    callsFaithful_iff_namesApart hchecked fun f hf n hn => ?_⟩
  obtain ⟨b, hb⟩ := mem_items_of_mem_functions hf
  rw [hitems] at hb
  rw [Program.declared, hitems]
  exact Extractor.exists_function_of_call hx hb hn

/-- `void main() { } [entry(fragment)] void fs() { main(); }` -/
def helperTokens : List Token :=
  [.ident "void", .ident "main", .symbol .lparen, .symbol .rparen, .symbol .lbrace,
    .symbol .rbrace, .symbol .lbracket, .ident "entry", .symbol .lparen, .ident "fragment",
    .symbol .rparen, .symbol .rbracket, .ident "void", .ident "fs", .symbol .lparen,
    .symbol .rparen, .symbol .lbrace, .ident "main", .symbol .lparen, .symbol .rparen,
    .symbol .semicolon, .symbol .rbrace, .eof].map fun k => ⟨k, Span.dummy, Position.nowhere⟩

/-- A helper with the name `main` and the entry are both defined as `main`. -/
theorem helper_calls :
    ∃ tree x text p, parseTokens helperTokens Registry.standard = .ok tree ∧
      extractStage tree .fragment = .ok x ∧
      render (Settings.desktop.withStage .fragment) x.tree = .ok text ∧
      program (Settings.desktop.withStage .fragment) x.tree = .ok p ∧ ¬p.CallsFaithful := by
  obtain ⟨tree, x, text, p, f, hparse, hx, hr, hp, hf, hname, hq⟩ :
      ∃ tree x text p f, parseTokens helperTokens Registry.standard = .ok tree ∧
        extractStage tree .fragment = .ok x ∧
        render (Settings.desktop.withStage .fragment) x.tree = .ok text ∧
        program (Settings.desktop.withStage .fragment) x.tree = .ok p ∧
        p.functions[0]? = some f ∧ f.1.name = "main" ∧ p.settings.qualifies f.1 = false :=
    ⟨_, _, _, _, _, by rfl, by with_unfolding_all rfl, by rfl, by rfl, by rfl, by rfl, by rfl⟩
  refine ⟨tree, x, text, p, hparse, hx, hr, hp, fun hfaithful => ?_⟩
  obtain ⟨p', _, _, hp', _, _, _, _, hiff⟩ := render_callsFaithful_iff hx rfl hr
  cases hp.symm.trans hp'
  have hmain := (hiff.mp hfaithful).main f (List.mem_of_getElem? hf) hname
  exact absurd (hmain.symm.trans hq) (by simp)

end Glsl

end Shading
