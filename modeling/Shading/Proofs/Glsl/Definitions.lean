import Shading.Extract.Index
import Shading.Glsl.Text
import Shading.Proofs.Except
import Shading.Proofs.Glsl.Order

/-!
# The functions that a text defines

After its other declarations the text of a program is a row of definitions, one for each
function of the program: the entry function under the name `main`, every other one under
its own. A call is written under the name that it has in the tree.
-/

namespace Shading

namespace Glsl

/-- A function as the text defines it. -/
structure Definition where
  name : String
  returnType : Ty
  parameters : List Parameter
  body : List Stmt

namespace Definition

/-- The line that the definition starts with, up to its brace. -/
def header (d : Definition) : String :=
  d.returnType.text ++ " " ++ d.name ++
    parenthesizedList (d.parameters.map fun q => declarator q.type q.name) ++ " "

end Definition

/-- Writes a definition, with the name that it has. -/
def writeDefinition (k : Dialect) (w : Writer) (d : Definition) : Except CodegenError Writer := do
  let w := ((w.blankLine.push d.header).push "\x7b").close.indent
  let w ← k.stmts d.body w
  return (w.dedent.push "\x7d").close

/-- Writes all that stands before the functions. -/
def writeLead (p : Program) : Except CodegenError Writer := do
  let w := writeStructs p.orderedStructs (writeHeader p Writer.empty)
  let w ←
    match p.externals with
    | [] => pure w
    | vs => writeExternals p [] vs w.blankLine
  let w ← writeInterface p w
  writeGlobals p w

namespace Program

/-- The name that a function is defined under. -/
def definedName (p : Program) (f : Signature) : String :=
  if p.settings.qualifies f then "main" else f.name

/-- The definition that the program writes for a function; an entry changes its name. -/
def definition (p : Program) (f : Signature × List Stmt) : Definition :=
  ⟨p.definedName f.1, f.1.returnType, f.1.parameters, f.2⟩

/-- The definitions of the text, callees first. -/
def definitions (p : Program) : List Definition := p.orderedFunctions.map p.definition

/-- All functions of the tree, those that the text leaves out among them. -/
def declared (p : Program) : List Signature := DeclarationIndex.functions p.items

end Program

section Checked

variable {s : Settings} {tree : Stmt} {p : Program}

/-- What the checks of a program establish. -/
structure Program.Checked (p : Program) : Prop where
  entry : ∃ span, candidates p.settings p.items = [(p.entry, span)]
  parameters : p.entry.parameters = []
  returnType : p.entry.returnType = .void

/-- The entry point has no parameters and returns nothing. -/
theorem checkEntry_of_ok {span : Span} (h : checkEntry p span = .ok ()) :
    p.entry.parameters = [] ∧ p.entry.returnType = .void := by
  unfold checkEntry at h
  dsimp only at h
  split at h
  · cases h
  · rename_i hparameters
    split at h
    · cases h
    · rename_i hresult
      exact ⟨not_not.mp hparameters, not_not.mp hresult⟩

/-- The entry point is the only candidate. -/
theorem selectEntry_of_ok {items : List Stmt} {entry : Signature × Span}
    (h : selectEntry s items = .ok entry) : candidates s items = [entry] := by
  unfold selectEntry at h
  split at h
  · cases h
  · rename_i hone
    cases h
    exact hone
  · cases h

/-- A program that is made keeps its settings and its items, and has passed the checks. -/
theorem program_of_ok (h : program s tree = .ok p) :
    p.settings = s ∧ p.items = tree.items ∧ p.Checked := by
  obtain ⟨_, _, h⟩ := Except.bind_eq_ok_iff.mp h
  obtain ⟨⟨entry, span⟩, hentry, h⟩ := Except.bind_eq_ok_iff.mp h
  obtain ⟨_, hchecked, h⟩ := Except.bind_eq_ok_iff.mp h
  cases h
  obtain ⟨hparameters, hresult⟩ := checkEntry_of_ok hchecked
  exact ⟨rfl, rfl, ⟨span, selectEntry_of_ok hentry⟩, hparameters, hresult⟩

theorem emits_of_qualifies {f : Signature} (h : s.qualifies f = true) : s.emits f = true := by
  rw [Settings.emits, h, Bool.or_true]

/-- One function of the program qualifies, the entry. -/
theorem Program.Checked.filter_qualifies (h : p.Checked) :
    ∃ body, p.functions.filter (fun f => p.settings.qualifies f.1) = [(p.entry, body)] := by
  obtain ⟨span, hone⟩ := h.entry
  have hfst : (p.functions.filter fun f => p.settings.qualifies f.1).map (·.1) =
      (candidates p.settings p.items).map (·.1) := by
    rw [Program.functions, candidates, List.filter_filterMap, List.map_filterMap,
      List.map_filterMap]
    apply List.filterMap_congr
    intro item _
    cases item with
    | function b f body =>
        cases hq : p.settings.qualifies f with
        | true => simp [hq, emits_of_qualifies hq]
        | false => cases he : p.settings.emits f <;> simp [hq, he]
    | _ => rfl
  rw [hone, List.map_singleton, List.map_eq_singleton_iff] at hfst
  obtain ⟨⟨f, body⟩, hfilter, rfl⟩ := hfst
  exact ⟨body, hfilter⟩

/-- Only the entry point qualifies among the functions. -/
theorem Program.Checked.eq_entry (h : p.Checked) {f : Signature × List Stmt}
    (hf : f ∈ p.functions) (hq : p.settings.qualifies f.1 = true) : f.1 = p.entry := by
  obtain ⟨body, hone⟩ := h.filter_qualifies
  have hmem : f ∈ p.functions.filter fun f => p.settings.qualifies f.1 :=
    List.mem_filter.mpr ⟨hf, hq⟩
  rw [hone, List.mem_singleton] at hmem
  rw [hmem]

/-- The header that is written is that of the definition. -/
theorem functionHeader_eq (h : p.Checked) {f : Signature × List Stmt} (hf : f ∈ p.functions) :
    functionHeader p f.1 = (p.definition f).header := by
  rw [functionHeader, Definition.header, Program.definition, Program.definedName]
  cases hq : p.settings.qualifies f.1 with
  | true =>
      rw [h.eq_entry hf hq, h.parameters, h.returnType]
      rfl
  | false => rfl

theorem foldlM_congr {ε α β : Type} {f g : β → α → Except ε β} {as : List α}
    (h : ∀ a ∈ as, ∀ b, f b a = g b a) (b : β) : as.foldlM f b = as.foldlM g b := by
  induction as generalizing b with
  | nil => rfl
  | cons a rest ih =>
      rw [List.foldlM_cons, List.foldlM_cons, h a List.mem_cons_self]
      congr 1
      funext c
      exact ih (fun a ha => h a (List.mem_cons_of_mem _ ha)) c

/-- The text of a program is its lead and then its definitions. -/
theorem text_eq_definitions (h : p.Checked) :
    p.text = (do
      let w ← writeLead p
      let w ← p.definitions.foldlM (writeDefinition (dialect p)) w
      return w.text) := by
  have hfunctions (w : Writer) : p.orderedFunctions.foldlM (writeFunction p) w =
      p.definitions.foldlM (writeDefinition (dialect p)) w := by
    rw [Program.definitions, List.foldlM_map]
    refine foldlM_congr (fun f hf w => ?_) w
    rw [writeFunction, functionHeader_eq h (p.orderedFunctions_perm.mem_iff.mp hf)]
    rfl
  rw [Program.text, writeLead]
  cases p.externals <;> simp only [bind_assoc, hfunctions]

end Checked

end Glsl

end Shading
