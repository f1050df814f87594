import Shading.Proofs.Extract.Kept

/-!
# The interface of a stage

The reflection of a stage is read off its tree: each table lists what the blocks of the
tree declare, in source order and as often as they declare it. One function of the tree is
the entry of the stage, and the reflection names it.
-/

namespace Shading

namespace InterfaceEntry

/-- An entry of a table tells of a variable its name, its type and its slot. -/
structure Describes (e : InterfaceEntry) (v : InterfaceVariable) : Prop where
  name : e.name = v.name
  type : e.type = v.type
  location : ∀ n, e.location = some n ↔ v.slot = .location n
  builtin : ∀ b, e.builtin = some b ↔ v.slot = .builtin b

/-- The entry that is made of a variable describes it. -/
theorem describes_ofVariable (v : InterfaceVariable) : (ofVariable v).Describes v := by
  refine ⟨rfl, rfl, fun n => ?_, fun b => ?_⟩
  · cases hv : v.slot <;> simp [ofVariable, hv, Slot.location?]
  · cases hv : v.slot <;> simp [ofVariable, hv, Slot.builtin?]

end InterfaceEntry

namespace ExternalKind

/-- What an external of a base type is bound as. -/
inductive Of (storage : Bool) : Ty → ExternalKind → Prop where
  | sampler {p : Primitive} {dim : ImageDim} : Of storage (.sampler p dim) .sampler
  | uniformBuffer {name : String} : storage = false → Of storage (.struct name) .uniformBuffer
  | storageBuffer {name : String} : storage = true → Of storage (.struct name) .storageBuffer
  | value {t : Ty} : (∀ p dim, t ≠ .sampler p dim) → (∀ name, t ≠ .struct name) →
      Of storage t .value

/-- A type is classified by its base. -/
theorem of_classify (t : Ty) (storage : Bool) : Of storage t.base (classify t storage) := by
  rw [classify, Ty.isSampler, ← t.structName?_base]
  cases hbase : t.base with
  | sampler p dim => exact .sampler
  | struct name =>
      cases storage with
      | false => exact .uniformBuffer rfl
      | true => exact .storageBuffer rfl
  | array element size =>
      have hdims := t.dims_base
      rw [hbase] at hdims
      cases hdims
  | _ => exact .value (by simp) (by simp)

end ExternalKind

namespace ExternalEntry

/-- An entry of the table tells of an external its name, its type, its place and its kind. -/
structure Describes (e : ExternalEntry) (v : ExternalVariable) : Prop where
  name : e.name = v.name
  type : e.type = v.type
  set : e.set = v.set
  binding : e.binding = v.binding
  kind : ExternalKind.Of v.storage v.type.base e.kind

theorem describes_ofVariable (v : ExternalVariable) : (ofVariable v).Describes v :=
  ⟨rfl, rfl, rfl, rfl, ExternalKind.of_classify v.type v.storage⟩

end ExternalEntry

/-- The reflection of a stage tells exactly what the items of its tree declare. -/
structure Reflection.Describes (r : Reflection) (stage : Stage) (items : List Stmt) : Prop where
  inputs : List.Forall₂ InterfaceEntry.Describes r.inputs (items.flatMap Stmt.inputEntries)
  outputs : List.Forall₂ InterfaceEntry.Describes r.outputs (items.flatMap Stmt.outputEntries)
  externals : List.Forall₂ ExternalEntry.Describes r.externals
    (items.flatMap Stmt.externalEntries)
  structs : r.structs = items.flatMap Stmt.structEntries
  entry : ∃ f p workgroup, items.flatMap (Stmt.stageEntries stage) = [(f, p)] ∧
    f.entry = some ⟨stage, workgroup⟩ ∧ r.entry = some ⟨stage, f.name, workgroup⟩

namespace Extractor

open DeclarationIndex

/-- The reflection of an extracted stage tells exactly what its tree declares: the inputs,
outputs, externals and structs of the tree in order, and its only entry of the stage. -/
theorem extractStage_describes {tree : Stmt} {stage : Stage} {out : ExtractedStage}
    (h : extractStage tree stage = .ok out) :
    out.stage = stage ∧ out.reflection.Describes stage out.tree.items := by
  rw [extractStage_eq] at h
  obtain ⟨index, hindex, hx⟩ := Except.bind_eq_ok_iff.mp h
  obtain ⟨n, point, entry, hone, _, _, rfl⟩ := (extract_eq_ok_iff hindex _ _ _).mp hx
  obtain ⟨f, hname, hpoint, hentries⟩ := stageEntries_stageItems hone
  have hstage : point.stage = stage := stage_of_candidates hone
  refine ⟨hstage, ?_, ?_, ?_, rfl, f, entry.span, point.workgroup, hentries, ?_, ?_⟩
  · exact List.forall₂_map_left_iff.mpr
      (List.forall₂_same.mpr fun v _ => InterfaceEntry.describes_ofVariable v)
  · exact List.forall₂_map_left_iff.mpr
      (List.forall₂_same.mpr fun v _ => InterfaceEntry.describes_ofVariable v)
  · exact List.forall₂_map_left_iff.mpr
      (List.forall₂_same.mpr fun v _ => ExternalEntry.describes_ofVariable v)
  · rw [hpoint, ← hstage]
  · rw [hname, ← hstage]
    rfl

/-- Inputs in two blocks, one of them unused, and a storage buffer of a struct that is
declared twice. -/
def splitTree : Stmt :=
  .block Span.dummy [
    .struct Span.dummy ⟨"Cell", [⟨"x", .prim .float⟩]⟩,
    .inputs Span.dummy [⟨"unused", .prim .int, .location 0, Span.dummy⟩,
      ⟨"depth", .prim .float, .location 1, Span.dummy⟩],
    .inputs Span.dummy [⟨"at", .vec .float 4, .builtin .position, Span.dummy⟩],
    .struct Span.dummy ⟨"Cell", [⟨"x", .prim .float⟩]⟩,
    .externals Span.dummy
      [⟨"cells", .array (.struct "Cell") .implicit, 1, 2, true, Span.dummy⟩],
    .function Span.dummy ⟨"place", [], .vec .float 4, none⟩
      [.ret Span.dummy (some (.ref Span.dummy "at"))],
    .function Span.dummy ⟨"fs", [], .void, some ⟨.fragment, none⟩⟩
      [.expr Span.dummy (.index Span.dummy (.ref Span.dummy "cells") (.ref Span.dummy "depth")),
        .expr Span.dummy (.call Span.dummy "place" [])]]

/-- The reflection of one stage describes its inputs, outputs and externals. -/
theorem splitTree_describes :
    ∃ out, extractStage splitTree .fragment = .ok out ∧
      out.reflection.Describes .fragment out.tree.items ∧
      out.reflection.inputs.map (·.name) = ["depth", "at"] ∧
      out.reflection.structs = [⟨"Cell", [⟨"x", .prim .float⟩]⟩] ∧
      out.reflection.externals =
        [⟨"cells", .array (.struct "Cell") .implicit, 1, 2, .storageBuffer⟩] := by
  obtain ⟨out, hx, hinputs, hstructs, hexternals⟩ :
      ∃ out, extractStage splitTree .fragment = .ok out ∧
        out.reflection.inputs.map (·.name) = ["depth", "at"] ∧
        out.reflection.structs = [⟨"Cell", [⟨"x", .prim .float⟩]⟩] ∧
        out.reflection.externals =
          [⟨"cells", .array (.struct "Cell") .implicit, 1, 2, .storageBuffer⟩] :=
    ⟨_, by with_unfolding_all rfl, by rfl, by rfl, by rfl⟩
  exact ⟨out, hx, (extractStage_describes hx).2, hinputs, hstructs, hexternals⟩

end Extractor

end Shading
