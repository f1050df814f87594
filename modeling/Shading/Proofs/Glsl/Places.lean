import Shading.Proofs.Glsl.Declarations
import Shading.Proofs.Print.Places
import Shading.Proofs.Syntax.ErasedNodes

/-!
# Generating wherever the parts stand

Without its places a tree declares the same for the target, in the same order. Its text is
the same, or both trees are refused.
-/

namespace Shading

namespace Glsl

/-- A version that is required fails for the same construct, wherever the construct stands. -/
theorem Settings.parallel_require (s : Settings) (c : Construct) (desktop embedded : UInt32)
    (b b' : Span) :
    Except.Parallel Eq (s.require c desktop embedded b) (s.require c desktop embedded b') :=
  .ite (fun _ => .ok rfl) fun _ => .error

section Checks

theorem fileScopeProblem?_eraseSpans (item : Stmt) :
    fileScopeProblem? item.eraseSpans = fileScopeProblem? item := by
  cases item <;> simp [fileScopeProblem?]

variable (s : Settings) (items : List Stmt)

/-- The items are checked with the same answer, whatever their spans. -/
theorem parallel_checkItems :
    Except.Parallel Eq (checkItems s items) (checkItems s (items.map Stmt.eraseSpans)) := by
  induction items with
  | nil => exact .ok rfl
  | cons item rest ih =>
      rw [List.map_cons, checkItems, checkItems, fileScopeProblem?_eraseSpans]
      cases fileScopeProblem? item with
      | none => exact ih
      | some c => exact .error

/-- The entry points of a stage are found in a tree without spans as well. -/
theorem candidates_eraseSpans :
    candidates s (items.map Stmt.eraseSpans) =
      (candidates s items).map fun f => (f.1.erased, .dummy) := by
  rw [candidates, candidates, List.filterMap_map, List.map_filterMap]
  refine List.filterMap_congr fun item _ => ?_
  cases item with
  | function p f body =>
      have hqualifies : s.qualifies f.erased = s.qualifies f := rfl
      rw [Function.comp_apply, Stmt.erased_function]
      cases hf : s.qualifies f <;> simp [hqualifies, hf]
  | _ => simp

/-- The same entry point is selected, or the selection fails alike. -/
theorem parallel_selectEntry :
    Except.Parallel (fun f f' => f' = (f.1.erased, .dummy)) (selectEntry s items)
      (selectEntry s (items.map Stmt.eraseSpans)) := by
  rw [selectEntry, selectEntry, candidates_eraseSpans]
  match candidates s items with
  | [] => exact .error
  | [f] => exact .ok rfl
  | _ :: _ :: _ => exact .error

end Checks

/-- The function of a text without its places. -/
def erasedFunction (f : Signature × List Stmt) : Signature × List Stmt :=
  (f.1.erased, f.2.map Stmt.eraseSpans)

/-- A variable without its places; where it is located stays. -/
def erasedLocated (v : InterfaceVariable × Nat × Bool) : InterfaceVariable × Nat × Bool :=
  (v.1.erased, v.2)

/-- A constant or variable without its places. -/
def Global.erased : Global → Global
  | .const c => .const c.erased
  | .var v => .var v.erased

/-- A declaration without its places. -/
def Declaration.erased : Declaration → Declaration
  | .struct s => .struct s
  | .external v => .external v.erased
  | .interface v location isOutput => .interface v.erased location isOutput
  | .global g => .global g.erased
  | .function f => .function (erasedFunction f)

/-- The program without the places of its items. -/
def Program.erased (p : Program) : Program :=
  { p with entry := p.entry.erased, items := p.items.map Stmt.eraseSpans }

theorem parallel_checkEntry (p : Program) (b : Span) :
    Except.Parallel Eq (checkEntry p b) (checkEntry p.erased .dummy) := by
  have hparameters : p.erased.entry.parameters ≠ [] ↔ p.entry.parameters ≠ [] :=
    not_congr List.map_eq_nil_iff
  rw [checkEntry, checkEntry]
  simp only [hparameters]
  exact .ite (fun _ => .error) fun _ => .ite (fun _ => .error) fun _ =>
    .ite (fun _ => p.settings.parallel_require ..) fun _ => .ok rfl

/-- The program of a tree without spans is the program with its spans erased. -/
theorem parallel_program (s : Settings) (tree : Stmt) :
    Except.Parallel (fun p p' => p' = p.erased) (program s tree) (program s tree.eraseSpans) := by
  rw [program, program, tree.items_eraseSpans]
  refine (parallel_checkItems s tree.items).bindEq fun _ => ?_
  refine (parallel_selectEntry s tree.items).bind fun f _ hf => ?_
  subst hf
  exact (parallel_checkEntry ⟨s, f.1, _, tree.items⟩ f.2).bindEq fun _ => .ok rfl

theorem namedStruct?_erased (n : Node) : namedStruct? n.erased = namedStruct? n := by
  cases n <;> rfl

theorem calledFunction?_erased (n : Node) : calledFunction? n.erased = calledFunction? n := by
  cases n with
  | expr e => cases e <;> simp [Node.erased, calledFunction?]
  | _ => rfl

namespace Program

variable (p : Program)

/-- A structure has no span of its own and is found as it was. -/
@[simp] theorem struct?_erased (n : String) : p.erased.struct? n = p.struct? n := by
  rw [struct?, struct?, erased, List.findSome?_map]
  congr 1
  funext item
  cases item <;> simp

theorem renames_erased : p.erased.renames = p.renames := by
  have hrenamesOf (isOutput : Bool) (vs : List InterfaceVariable) :
      p.erased.renamesOf isOutput (vs.map InterfaceVariable.erased) = p.renamesOf isOutput vs := by
    rw [renamesOf, renamesOf, List.filterMap_map]
    rfl
  rw [renames, renames, erased, List.flatMap_map]
  refine List.flatMap_congr fun item _ => ?_
  cases item with
  | inputs b vs =>
      rw [Stmt.erased_inputs]
      exact hrenamesOf false vs
  | outputs b vs =>
      rw [Stmt.erased_outputs]
      exact hrenamesOf true vs
  | _ => simp

/-- How a name is spelled in the shader depends on no span. -/
theorem referenceName_erased : p.erased.referenceName = p.referenceName := by
  funext n
  rw [referenceName, referenceName, renames_erased]

theorem externals_erased : p.erased.externals = p.externals.map ExternalVariable.erased := by
  rw [externals, externals, erased, List.flatMap_map, List.map_flatMap]
  refine List.flatMap_congr fun item _ => ?_
  cases item <;> simp

theorem functions_erased : p.erased.functions = p.functions.map erasedFunction := by
  rw [functions, functions, erased, List.filterMap_map, List.map_filterMap]
  refine List.filterMap_congr fun item _ => ?_
  cases item with
  | function b f body =>
      have hemits : p.settings.emits f.erased = p.settings.emits f := rfl
      rw [Function.comp_apply, Stmt.erased_function]
      cases hf : p.settings.emits f <;> simp [hemits, hf, erasedFunction]
  | _ => simp

/-- The structures that an item mentions do not depend on its spans. -/
theorem itemStructs_erased (item : Stmt) :
    p.erased.itemStructs item.eraseSpans = p.itemStructs item := by
  have hnodes (item : Stmt) : item.eraseSpans.nodes.filterMap namedStruct? =
      item.nodes.filterMap namedStruct? := by
    rw [item.nodes_eraseSpans, List.filterMap_map]
    exact List.filterMap_congr fun n _ => namedStruct?_erased n
  cases item with
  | externals b vs =>
      rw [Stmt.erased_externals, itemStructs, itemStructs, List.flatMap_map]
      simp only [struct?_erased]
      rfl
  | function b f body =>
      have h := hnodes (.function b f body)
      rw [Stmt.erased_function] at h ⊢
      rw [itemStructs, itemStructs, h]
      rfl
  | struct b s =>
      rw [Stmt.erased_struct]
      rfl
  | _ => exact hnodes _

theorem fieldStructs_erased : p.erased.fieldStructs = p.fieldStructs := by
  funext n
  rw [fieldStructs, fieldStructs, struct?_erased]

/-- The structures that are reached are the same. -/
theorem closeStructs_erased (fuel : Nat) (pending used : List String) :
    p.erased.closeStructs fuel pending used = p.closeStructs fuel pending used := by
  induction fuel generalizing pending used with
  | zero => rfl
  | succ fuel ih =>
      cases pending with
      | nil => rfl
      | cons n rest => rw [closeStructs, closeStructs, fieldStructs_erased, ih]

theorem fieldCount_erased : p.erased.fieldCount = p.fieldCount := by
  rw [fieldCount, fieldCount, erased, List.flatMap_map]
  refine congrArg _ (List.flatMap_congr fun item _ => ?_)
  cases item <;> simp

/-- The structures in use, by which the declarations are chosen, are the same. -/
theorem usedStructs_erased : p.erased.usedStructs = p.usedStructs := by
  have hdirect : p.erased.items.flatMap p.erased.itemStructs = p.items.flatMap p.itemStructs := by
    change (p.items.map Stmt.eraseSpans).flatMap _ = _
    rw [List.flatMap_map]
    exact List.flatMap_congr fun item _ => p.itemStructs_erased item
  rw [usedStructs, usedStructs, hdirect, fieldCount_erased, closeStructs_erased]

theorem usedDeclarations_erased : p.erased.usedDeclarations = p.usedDeclarations := by
  rw [usedDeclarations, usedDeclarations, usedStructs_erased, erased, List.foldl_map]
  congr 1
  funext decls item
  cases item <;> simp

theorem orderedStructs_erased : p.erased.orderedStructs = p.orderedStructs := by
  rw [orderedStructs, orderedStructs, usedDeclarations_erased]

/-- The calls of a function are found at the same positions. -/
theorem calledPositions_erased (functions : List (Signature × List Stmt)) (body : List Stmt) :
    calledPositions (functions.map erasedFunction) (body.map Stmt.eraseSpans) =
      calledPositions functions body := by
  have hcalled : (Stmt.nodesList (body.map Stmt.eraseSpans)).filterMap calledFunction? =
      (Stmt.nodesList body).filterMap calledFunction? := by
    rw [Stmt.nodesList_erased, List.filterMap_map]
    exact List.filterMap_congr fun n _ => calledFunction?_erased n
  rw [calledPositions, calledPositions, hcalled, List.zipIdx_map]
  simp only [List.filterMap_map]
  rfl

/-- The functions keep their order. -/
theorem orderedFunctions_erased :
    p.erased.orderedFunctions = p.orderedFunctions.map erasedFunction := by
  rw [orderedFunctions, orderedFunctions, functions_erased, List.length_map, List.map_filterMap]
  simp only [List.getElem?_map]
  congr 2
  funext i
  cases p.functions[i]? with
  | none => rfl
  | some f => exact calledPositions_erased p.functions f.2

end Program

section Declarations

variable (p : Program)

theorem locatedVariables_erased :
    locatedVariables p.erased = (locatedVariables p).map erasedLocated := by
  have hlocated (isOutput : Bool) (vs : List InterfaceVariable) :
      locatedVariables.located isOutput (vs.map InterfaceVariable.erased) =
        (locatedVariables.located isOutput vs).map erasedLocated := by
    rw [locatedVariables.located, locatedVariables.located, List.filterMap_map, List.map_filterMap]
    refine List.filterMap_congr fun v _ => ?_
    rw [Option.map_map]
    rfl
  rw [locatedVariables, locatedVariables, Program.erased, List.flatMap_map, List.map_flatMap]
  refine List.flatMap_congr fun item _ => ?_
  cases item with
  | inputs b vs =>
      rw [Stmt.erased_inputs]
      exact hlocated false vs
  | outputs b vs =>
      rw [Stmt.erased_outputs]
      exact hlocated true vs
  | _ => simp

theorem globals_erased : globals p.erased = (globals p).map Global.erased := by
  rw [globals, globals, Program.erased, List.flatMap_map, List.map_flatMap]
  refine List.flatMap_congr fun item _ => ?_
  cases item <;> simp [Global.erased]

/-- The declarations to write are the same, with their spans erased. -/
theorem declarations_erased : p.erased.declarations = p.declarations.map Declaration.erased := by
  simp only [Program.declarations, p.orderedStructs_erased, p.externals_erased,
    locatedVariables_erased, globals_erased, p.orderedFunctions_erased, List.map_append,
    List.map_map]
  rfl

theorem dialect_alike : (dialect p).Alike (dialect p.erased) where
  builtin _ s s' := (p.settings.parallel_require _ _ _ s s').bindEq fun _ => .ok rfl
  reference := p.referenceName_erased
  declarator := rfl
  refusal _ := rfl

/-- A binding is taken by the same external variable. -/
theorem lookup_erased (taken : Taken) (key : Nat × Nat) :
    (taken.map fun t => (t.1, t.2.erased)).lookup key =
      (taken.lookup key).map ExternalVariable.erased := by
  induction taken with
  | nil => rfl
  | cons t rest ih =>
      rw [List.map_cons, List.lookup_cons, List.lookup_cons]
      split
      · rfl
      · exact ih

/-- An external variable gets the same binding, or clashes with the same one. -/
theorem parallel_place (s : Settings) (taken : Taken) (v : ExternalVariable) :
    Except.Parallel (fun b b' => b' = (b.1, b.2.map fun t => (t.1, t.2.erased)))
      (place s taken v) (place s (taken.map fun t => (t.1, t.2.erased)) v.erased) := by
  rw [place, place]
  refine .ite (fun _ => ?_) fun _ => .ok rfl
  have hkey : bindingKey s v.erased = bindingKey s v := rfl
  simp only [hkey, lookup_erased]
  cases taken.lookup (bindingKey s v) with
  | none => exact .ok rfl
  | some first => exact .error

theorem parallel_writeExternal (v : ExternalVariable) (binding : Option String) (w : Writer) :
    Except.Parallel Eq (writeExternal p v binding w)
      (writeExternal p.erased v.erased binding w) := by
  have hresource : Resource.of v.erased = Resource.of v := rfl
  have hbuffer (header : String) : Except.Parallel Eq (writeExternal.buffer p v w header)
      (writeExternal.buffer p.erased v.erased w header) := by
    have hstruct : v.erased.type.structName?.bind p.erased.struct? =
        v.type.structName?.bind p.struct? := by
      congr 1
      funext n
      exact p.struct?_erased n
    rw [writeExternal.buffer, writeExternal.buffer, hstruct]
    cases v.type.structName?.bind p.struct? with
    | none => exact .error
    | some body => exact .ok rfl
  rw [writeExternal, writeExternal, hresource]
  cases Resource.of v with
  | sampler => exact .ok rfl
  | uniformBlock => exact (p.settings.parallel_require ..).bindEq fun _ => hbuffer _
  | storageBlock => exact (p.settings.parallel_require ..).bindEq fun _ => hbuffer _
  | value =>
      exact .ite (fun _ => (p.settings.parallel_require ..).bindEq fun _ => .ok rfl) fun _ =>
        .ok rfl

/-- A global is written alike, whatever its span. -/
theorem parallel_writeGlobal (w : Writer) (g : Global) :
    Except.Parallel Eq (writeGlobal p w g) (writeGlobal p.erased w g.erased) := by
  cases g with
  | const c => exact (Dialect.parallel_expr (dialect_alike p) c.value _).bindEq fun _ => .ok rfl
  | var v =>
      exact (Dialect.parallel_variableDeclaration (dialect_alike p) v w).bindEq fun _ => .ok rfl

theorem functionHeader_erased (f : Signature) :
    functionHeader p.erased f.erased = functionHeader p f := by
  have hparameters : f.erased.parameters.map (fun q => declarator q.type q.name) =
      f.parameters.map fun q => declarator q.type q.name := by
    rw [Signature.erased, List.map_map]
    rfl
  rw [functionHeader, functionHeader, hparameters]
  rfl

/-- A function is written alike, whatever the spans in its body. -/
theorem parallel_writeFunction (w : Writer) (f : Signature × List Stmt) :
    Except.Parallel Eq (writeFunction p w f) (writeFunction p.erased w (erasedFunction f)) := by
  rw [writeFunction, writeFunction, erasedFunction, functionHeader_erased]
  exact (Dialect.parallel_stmts (dialect_alike p) f.2 _).bindEq fun _ => .ok rfl

/-- The progress without the places of the externals. -/
def Progress.erased (s : Progress) : Progress :=
  { s with taken := s.taken.map fun t => (t.1, t.2.erased) }

/-- A declaration is written as it is without its places. -/
theorem parallel_writeDeclaration (s : Progress) (d : Declaration) :
    Except.Parallel (fun t t' => t' = t.erased) (writeDeclaration p s d)
      (writeDeclaration p.erased s.erased d.erased) := by
  have hlead : s.erased.lead d.erased = s.lead d := by cases d <;> rfl
  cases d with
  | struct t => exact .ok rfl
  | external v =>
      refine (parallel_place p.settings s.taken v).bind fun b _ hb => ?_
      subst hb
      exact (parallel_writeExternal p v b.1 (s.lead (.external v))).bindEq fun _ => .ok rfl
  | interface v location isOutput =>
      exact (p.settings.parallel_require ..).bindEq fun _ => .ok rfl
  | global g =>
      exact (parallel_writeGlobal p (s.lead (.global g)) g).bindEq fun _ => .ok rfl
  | function f => exact (parallel_writeFunction p s.writer f).bindEq fun _ => .ok rfl

/-- The text of a program depends on no span. -/
theorem Program.parallel_text : Except.Parallel Eq p.text p.erased.text := by
  rw [text_eq_declarations, text_eq_declarations, declarations_erased]
  refine (Except.Parallel.foldlM (P := fun s s' => s' = s.erased) (fun s _ d hs => ?_)
    p.declarations rfl).bind fun s _ hs => ?_
  · subst hs
    exact parallel_writeDeclaration p s d
  · subst hs
    exact .ok rfl

end Declarations

/-- A tree gives the text that it gives without its places. -/
theorem parallel_render_eraseSpans (s : Settings) (tree : Stmt) :
    Except.Parallel Eq (render s tree) (render s tree.eraseSpans) := by
  refine (parallel_program s tree).bind fun p _ hp => ?_
  subst hp
  exact p.parallel_text

/-- Trees that are the same but for their places give the same text, or are both refused. -/
theorem parallel_render (s : Settings) {tree tree' : Stmt} (h : tree.Alike tree') :
    Except.Parallel Eq (render s tree) (render s tree') :=
  .of_map (render s) (parallel_render_eraseSpans s) h

end Glsl

end Shading
