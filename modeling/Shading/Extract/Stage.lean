import Shading.Extract.Reachable
import Shading.Extract.Reflection
import Shading.Syntax.Edit

/-!
# Extracting a stage

The tree of one stage holds what its entry function reaches, in source order: whole
functions, structs and variables, blocks cut down to their reached entries, and every
library directive.  The reflection is filled with what the tree holds.
-/

namespace Shading

/-- The tree and the reflection of one stage. -/
structure ExtractedStage where
  stage : Stage
  tree : Stmt
  reflection : Reflection

/-- A tree that is loaded: its items, their index and its span. -/
structure Extractor where
  items : List Stmt
  index : DeclarationIndex
  span : Span

namespace Extractor

/-- Nothing loaded. -/
def empty : Extractor := ⟨[], DeclarationIndex.empty, Span.dummy⟩

mutual

/-- The items of a tree, nested blocks opened up. -/
def flatten : Stmt → List Stmt
  | .block _ items => flattenList items
  | s => [s]

def flattenList : List Stmt → List Stmt
  | [] => []
  | s :: ss => flatten s ++ flattenList ss

end

/-- Loads a tree. -/
def ofTree (tree : Stmt) : Except ExtractError Extractor := do
  let items := flatten tree
  return ⟨items, ← DeclarationIndex.build items, tree.span⟩

/-- Forgets the loaded tree. -/
def clear (x : Extractor) : Extractor :=
  let x := { x with items := [] }
  let x := { x with index := DeclarationIndex.empty }
  { x with span := Span.dummy }

/-- Loads a tree in place of another one. A tree that fails leaves its items and its span,
but no declaration of it is known. -/
def load (x : Extractor) (tree : Stmt) : Except ExtractError Unit × Extractor :=
  let x := { x.clear with span := tree.span }
  let x := { x with items := x.items ++ flatten tree }
  match DeclarationIndex.build x.items with
  | .ok index => (.ok (), { x with index := index })
  | .error e => (.error e, x)

/-- The stages that have an entry function, in pipeline order. -/
def stages (x : Extractor) : List Stage :=
  Stage.all.filter fun s => x.index.entryPoints.any (·.2.stage = s)

/-- The entry function of a stage, exactly one. -/
def entryFunction (x : Extractor) (stage : Stage) : Except ExtractError (Nat × EntryPoint) :=
  match x.index.entryPoints.filter (·.2.stage = stage) with
  | [] => .error (.stageNotFound stage)
  | [entry] => .ok entry
  | (a, _) :: (b, _) :: _ =>
    let place (n : Nat) : String × Span :=
      match x.index.get? ⟨.function, n⟩ with
      | some d => (d.name, d.span)
      | none => ("", Span.dummy)
    .error (.duplicateEntry stage (place a).1 (place b).1 (place b).2 (place a).2)

/-- The entries of a block that are kept. -/
def keepEntries {α : Type} (kept : Nat → Bool) (entries : List α) : List α :=
  (entries.zipIdx.filter fun (_, i) => kept i).map (·.1)

/-- An item cut down to its kept entries, and the reflection with what it holds.  A struct
that was declared before with the same fields is left out. -/
def emit (item : Stmt) (kept : Nat → Bool) (r : Reflection) :
    Except ExtractError (Option Stmt × Reflection) :=
  match item with
  | .struct s d =>
    match r.addStruct? d with
    | some r => .ok (some (.struct s d), r)
    | none =>
      if (r.struct? d.name).any (·.fields ≠ d.fields) then .error (.structRedefinition d.name s)
      else .ok (none, r)
  | .inputs s vs => do
    let vs := keepEntries kept vs
    return (some (.inputs s vs), ← vs.foldlM Reflection.addInput r)
  | .outputs s vs => do
    let vs := keepEntries kept vs
    return (some (.outputs s vs), ← vs.foldlM Reflection.addOutput r)
  | .externals s vs => do
    let vs := keepEntries kept vs
    return (some (.externals s vs), ← vs.foldlM Reflection.addExternal r)
  | .consts s ds => .ok (some (.consts s (keepEntries kept ds)), r)
  | .options s ds => .ok (some (.options s (keepEntries kept ds)), r)
  | item => .ok (some item.copy, r)

/-- The items of a stage, given the reached declarations. -/
def emitItems (index : DeclarationIndex) (reached : List Declaration) :
    List (Stmt × Nat) → Reflection → Except ExtractError (List Stmt × Reflection)
  | [], r => .ok ([], r)
  | (item, i) :: rest, r => do
    if i ∈ index.passthrough then
      let (out, r) ← emitItems index reached rest r
      return (item.copy :: out, r)
    else
      let own := reached.filter (·.item = i)
      if own.isEmpty then emitItems index reached rest r
      else
        let (emitted, r) ← emit item (fun n => own.any (·.entry = some n)) r
        let (out, r) ← emitItems index reached rest r
        return (emitted.toList ++ out, r)

/-- The tree and the reflection of a stage. -/
def extract (x : Extractor) (stage : Stage) : Except ExtractError ExtractedStage := do
  let (entry, point) ← x.entryFunction stage
  let keys ← x.index.reachable entry
  let (items, r) ← emitItems x.index (keys.filterMap x.index.get?) x.items.zipIdx Reflection.empty
  let name := ((x.index.get? ⟨.function, entry⟩).map (·.name)).getD ""
  let r := { r with entry := some ⟨point.stage, name, point.workgroup⟩ }
  return ⟨stage, .block x.span items, r⟩

end Extractor

/-- Extracts a stage of a tree. -/
def extractStage (tree : Stmt) (stage : Stage) : Except ExtractError ExtractedStage := do
  (← Extractor.ofTree tree.copy).extract stage

end Shading
