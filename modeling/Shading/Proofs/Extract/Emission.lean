import Shading.Extract.Stage
import Shading.Proofs.Extract.Registration
import Shading.Proofs.Syntax.Copy

/-!
# Emitting the kept items

A stage keeps the libraries and, of every other item, the part that is reached. The
parts are emitted in order; a struct whose name was emitted before is merged with it.
This succeeds exactly when the parts fit into the reflection tables side by side.
-/

namespace Shading

namespace Stmt

/-! What an item adds to the reflection tables. -/

/-- The inputs that an item declares. -/
def inputEntries : Stmt → List InterfaceVariable
  | .inputs _ vs => vs
  | _ => []

/-- The outputs that an item declares. -/
def outputEntries : Stmt → List InterfaceVariable
  | .outputs _ vs => vs
  | _ => []

/-- The external variables that an item declares. -/
def externalEntries : Stmt → List ExternalVariable
  | .externals _ vs => vs
  | _ => []

/-- The structs that an item declares, one at most. -/
def structEntries : Stmt → List StructDeclaration
  | .struct _ d => [d]
  | _ => []

end Stmt

namespace Reflection

/-- The reflection with all that the items hold. -/
def gather (r : Reflection) (items : List Stmt) : Reflection where
  entry := r.entry
  inputs := r.inputs ++ (items.flatMap Stmt.inputEntries).map InterfaceEntry.ofVariable
  outputs := r.outputs ++ (items.flatMap Stmt.outputEntries).map InterfaceEntry.ofVariable
  externals := r.externals ++ (items.flatMap Stmt.externalEntries).map ExternalEntry.ofVariable
  structs := r.structs ++ items.flatMap Stmt.structEntries

/-- No two places collide among the tables and the items, and structs of one name agree. -/
structure Fits (r : Reflection) (items : List Stmt) : Prop where
  inputs : (InterfaceEntry.locations r.inputs ++
    InterfaceEntry.wanted (items.flatMap Stmt.inputEntries)).Nodup
  outputs : (InterfaceEntry.locations r.outputs ++
    InterfaceEntry.wanted (items.flatMap Stmt.outputEntries)).Nodup
  externals : (ExternalEntry.places r.externals ++
    ExternalEntry.wanted (items.flatMap Stmt.externalEntries)).Nodup
  structs : ∀ d ∈ r.structs ++ items.flatMap Stmt.structEntries,
    ∀ d' ∈ r.structs ++ items.flatMap Stmt.structEntries, d.name = d'.name → d = d'

@[simp] theorem gather_nil (r : Reflection) : r.gather [] = r := by
  simp [gather]

theorem gather_append (r : Reflection) (first second : List Stmt) :
    r.gather (first ++ second) = (r.gather first).gather second := by
  simp [gather]

/-- Nothing has to be added for no items. -/
theorem fits_empty_nil : empty.Fits [] := by
  constructor <;> simp [empty, InterfaceEntry.locations, InterfaceEntry.wanted,
    ExternalEntry.places, ExternalEntry.wanted]

/-- Items fit side by side exactly when the later ones fit into what gathers the others. -/
theorem fits_append_iff (r : Reflection) (first second : List Stmt) :
    r.Fits (first ++ second) ↔ (r.gather first).Fits second := by
  have hinputs : InterfaceEntry.locations r.inputs ++
      InterfaceEntry.wanted ((first ++ second).flatMap Stmt.inputEntries) =
      InterfaceEntry.locations (r.gather first).inputs ++
        InterfaceEntry.wanted (second.flatMap Stmt.inputEntries) := by
    rw [gather, InterfaceEntry.locations_append_ofVariable]
    simp [InterfaceEntry.wanted]
  have houtputs : InterfaceEntry.locations r.outputs ++
      InterfaceEntry.wanted ((first ++ second).flatMap Stmt.outputEntries) =
      InterfaceEntry.locations (r.gather first).outputs ++
        InterfaceEntry.wanted (second.flatMap Stmt.outputEntries) := by
    rw [gather, InterfaceEntry.locations_append_ofVariable]
    simp [InterfaceEntry.wanted]
  have hexternals : ExternalEntry.places r.externals ++
      ExternalEntry.wanted ((first ++ second).flatMap Stmt.externalEntries) =
      ExternalEntry.places (r.gather first).externals ++
        ExternalEntry.wanted (second.flatMap Stmt.externalEntries) := by
    rw [gather, ExternalEntry.places_append_ofVariable]
    simp [ExternalEntry.wanted]
  have hstructs : r.structs ++ (first ++ second).flatMap Stmt.structEntries =
      (r.gather first).structs ++ second.flatMap Stmt.structEntries := by
    simp [gather]
  constructor
  · intro h
    exact ⟨hinputs ▸ h.inputs, houtputs ▸ h.outputs, hexternals ▸ h.externals,
      hstructs ▸ h.structs⟩
  · intro h
    exact ⟨hinputs ▸ h.inputs, houtputs ▸ h.outputs, hexternals ▸ h.externals,
      hstructs ▸ h.structs⟩

theorem Fits.left {r : Reflection} {first second : List Stmt}
    (h : r.Fits (first ++ second)) : r.Fits first := by
  refine ⟨?_, ?_, ?_, ?_⟩
  · have hin := h.inputs
    rw [List.flatMap_append, InterfaceEntry.wanted, List.filterMap_append,
      ← List.append_assoc] at hin
    exact (List.nodup_append.mp hin).1
  · have hout := h.outputs
    rw [List.flatMap_append, InterfaceEntry.wanted, List.filterMap_append,
      ← List.append_assoc] at hout
    exact (List.nodup_append.mp hout).1
  · have hext := h.externals
    rw [List.flatMap_append, ExternalEntry.wanted, List.map_append,
      ← List.append_assoc] at hext
    exact (List.nodup_append.mp hext).1
  · intro d hd d' hd' hname
    refine h.structs d ?_ d' ?_ hname
    · rw [List.flatMap_append, ← List.append_assoc]
      exact List.mem_append_left _ hd
    · rw [List.flatMap_append, ← List.append_assoc]
      exact List.mem_append_left _ hd'

/-- A struct that agrees with a gathered one changes nothing. -/
theorem fits_struct_cons_iff {r : Reflection} {s : Span} {d : StructDeclaration}
    (hd : d ∈ r.structs) (rest : List Stmt) : r.Fits (.struct s d :: rest) ↔ r.Fits rest := by
  have hmem (a : StructDeclaration) :
      a ∈ r.structs ++ (Stmt.struct s d :: rest).flatMap Stmt.structEntries ↔
        a ∈ r.structs ++ rest.flatMap Stmt.structEntries := by
    simp only [List.flatMap_cons, Stmt.structEntries, List.mem_append, List.mem_singleton]
    constructor
    · rintro (h | rfl | h)
      · exact .inl h
      · exact .inl hd
      · exact .inr h
    · rintro (h | h)
      · exact .inl h
      · exact .inr (.inr h)
  constructor
  · intro h
    exact ⟨h.inputs, h.outputs, h.externals, fun a ha b hb =>
      h.structs a ((hmem a).mpr ha) b ((hmem b).mpr hb)⟩
  · intro h
    exact ⟨h.inputs, h.outputs, h.externals, fun a ha b hb =>
      h.structs a ((hmem a).mp ha) b ((hmem b).mp hb)⟩

end Reflection

namespace Extractor

/-- A block cut down to the kept entries; any other item is kept as a whole. -/
def restrict (kept : Nat → Bool) : Stmt → Stmt
  | .inputs s vs => .inputs s (keepEntries kept vs)
  | .outputs s vs => .outputs s (keepEntries kept vs)
  | .externals s vs => .externals s (keepEntries kept vs)
  | .consts s ds => .consts s (keepEntries kept ds)
  | .options s ds => .options s (keepEntries kept ds)
  | s => s

/-- What is kept of an item: all of a library, and the reached entries of an item that
declares something reached. -/
def part? (reached : List Site) (item : Stmt) (i : Nat) : Option Stmt :=
  match item with
  | .library s path => some (.library s path)
  | item =>
    if reached.any (·.item = i) then
      some (restrict (fun n => reached.any fun s => s.item = i && s.entry = some n) item)
    else none

/-- What is kept of all items, in their order. -/
def parts (reached : List Site) (items : List Stmt) : List Stmt :=
  items.zipIdx.filterMap fun (item, i) => part? reached item i

/-- Leaves out the structs whose name was declared before. -/
def mergeStructs (seen : List String) : List Stmt → List Stmt
  | [] => []
  | .struct s d :: rest =>
    if d.name ∈ seen then mergeStructs seen rest
    else .struct s d :: mergeStructs (seen ++ [d.name]) rest
  | item :: rest => item :: mergeStructs seen rest

/-- Emits items of which every entry is kept. -/
def emitAll : List Stmt → Reflection → Except ExtractError (List Stmt × Reflection)
  | [], r => .ok ([], r)
  | item :: rest, r => do
    let (emitted, r) ← emit item (fun _ => true) r
    let (out, r) ← emitAll rest r
    return (emitted.toList ++ out, r)

@[simp] theorem keepEntries_true {α : Type} (entries : List α) :
    keepEntries (fun _ => true) entries = entries := by
  simp [keepEntries]

/-- An entry is kept by its number. -/
theorem mem_keepEntries_iff {α : Type} (kept : Nat → Bool) (entries : List α) (a : α) :
    a ∈ keepEntries kept entries ↔ ∃ n, entries[n]? = some a ∧ kept n = true := by
  rw [keepEntries, List.mem_map]
  constructor
  · rintro ⟨⟨b, n⟩, hmem, rfl⟩
    rw [List.mem_filter] at hmem
    exact ⟨n, List.mem_zipIdx_iff_getElem?.mp hmem.1, hmem.2⟩
  · rintro ⟨n, hget, hkept⟩
    exact ⟨(a, n), List.mem_filter.mpr ⟨List.mem_zipIdx_iff_getElem?.mpr hget, hkept⟩, rfl⟩

theorem emit_eq_emit_restrict (item : Stmt) (kept : Nat → Bool) (r : Reflection) :
    emit item kept r = emit (restrict kept item) (fun _ => true) r := by
  cases item <;> simp only [emit, restrict, keepEntries_true]

/-- The names of the structs that a reflection holds. -/
abbrev structNames (r : Reflection) : List String := r.structs.map (·.name)

/-- Merging goes from one item to the next, with the names seen so far. -/
theorem mergeStructs_cons (seen : List String) (item : Stmt) (rest : List Stmt) :
    mergeStructs seen (item :: rest) = mergeStructs seen [item] ++
      mergeStructs (seen ++ ((mergeStructs seen [item]).flatMap Stmt.structEntries).map (·.name))
        rest := by
  cases item with
  | struct s d =>
      by_cases hseen : d.name ∈ seen <;> simp [mergeStructs, hseen, Stmt.structEntries]
  | _ => simp [mergeStructs, Stmt.structEntries]

theorem structNames_gather (r : Reflection) (items : List Stmt) :
    structNames (r.gather items) =
      structNames r ++ (items.flatMap Stmt.structEntries).map (·.name) := by
  simp [structNames, Reflection.gather]

/-- What has been emitted, as the items that it adds to a module. -/
theorem ok_emitted_iff {item emitted : Option Stmt} {r r' : Reflection} :
    (Except.ok (item, r) : Except ExtractError _) = .ok (emitted, r') ↔
      emitted.toList = item.toList ∧ r' = r := by
  constructor
  · intro h
    cases h
    exact ⟨rfl, rfl⟩
  · rintro ⟨hemitted, rfl⟩
    cases item with
    | none => rw [Option.toList_eq_nil_iff.mp hemitted]
    | some item => rw [Option.toList_eq_singleton_iff.mp hemitted]

theorem return_eq_ok_iff {x : Except ExtractError Reflection} {r : Reflection} {P : Prop}
    (hx : ∀ r', x = .ok r' ↔ r' = r ∧ P) (s : Stmt) (emitted : Option Stmt)
    (r' : Reflection) :
    (do return (some s, ← x)) = Except.ok (emitted, r') ↔
      P ∧ emitted.toList = [s] ∧ r' = r := by
  simp only [Except.bind_eq_ok_iff, hx]
  constructor
  · rintro ⟨_, ⟨rfl, hp⟩, hok⟩
    exact ⟨hp, ok_emitted_iff.mp hok⟩
  · rintro ⟨hp, hemitted⟩
    exact ⟨r, ⟨rfl, hp⟩, ok_emitted_iff.mpr hemitted⟩

/-- An item that no table holds anything of. -/
theorem kept_eq_ok_iff {r : Reflection} (hr : r.Fits []) {item : Stmt}
    (hinputs : item.inputEntries = []) (houtputs : item.outputEntries = [])
    (hexternals : item.externalEntries = []) (hstructs : item.structEntries = [])
    (emitted : Option Stmt) (r' : Reflection) :
    (Except.ok (some item, r) : Except ExtractError _) = .ok (emitted, r') ↔
      r.Fits [item] ∧ emitted.toList = [item] ∧ r' = r.gather [item] := by
  have hfits : r.Fits [item] := by
    refine ⟨?_, ?_, ?_, ?_⟩
    · simpa [hinputs] using hr.inputs
    · simpa [houtputs] using hr.outputs
    · simpa [hexternals] using hr.externals
    · simpa [hstructs] using hr.structs
  have hgather : r.gather [item] = r := by
    simp [Reflection.gather, hinputs, houtputs, hexternals, hstructs]
  rw [hgather, ok_emitted_iff]
  exact (and_iff_right hfits).symm

/-- A structure fits where none of that name differs from it. -/
theorem fits_struct_iff {r : Reflection} (hr : r.Fits []) (s : Span) (d : StructDeclaration) :
    r.Fits [.struct s d] ↔ ∀ d' ∈ r.structs, d'.name = d.name → d' = d := by
  constructor
  · intro h d' hd' hname
    exact h.structs d' (List.mem_append_left _ hd') d (by simp [Stmt.structEntries]) hname
  · intro h
    have hrs : ∀ a ∈ r.structs, ∀ b ∈ r.structs, a.name = b.name → a = b := by
      simpa using hr.structs
    refine ⟨hr.inputs, hr.outputs, hr.externals, ?_⟩
    intro a ha b hb hname
    simp only [List.flatMap_cons, List.flatMap_nil, Stmt.structEntries, List.append_nil,
      List.mem_append, List.mem_singleton] at ha hb
    rcases ha with ha | rfl <;> rcases hb with hb | rfl
    · exact hrs a ha b hb hname
    · exact h a ha hname
    · exact (h b hb hname.symm).symm
    · rfl

/-- A struct that the table holds under its name is the only one of that name. -/
theorem fits_struct_iff_of_struct? {r : Reflection} (hr : r.Fits []) (s : Span)
    {d other : StructDeclaration} (hfound : r.struct? d.name = some other) :
    r.Fits [.struct s d] ↔ other.fields = d.fields := by
  obtain ⟨hmem, hname⟩ := Reflection.mem_of_struct?_eq_some hfound
  rw [fits_struct_iff hr]
  constructor
  · intro h
    rw [h other hmem hname]
  · intro hfields d' hd' hn
    have heq : d' = other := hr.structs d' (List.mem_append_left _ hd') other
      (List.mem_append_left _ hmem) (hn.trans hname.symm)
    rw [heq]
    cases other
    cases d
    simp_all

/-- A struct is added when its name is free, and merged with an equal one. -/
theorem emit_struct_eq_ok_iff {r : Reflection} (hr : r.Fits []) (s : Span)
    (d : StructDeclaration) (emitted : Option Stmt) (r' : Reflection) :
    emit (.struct s d) (fun _ => true) r = .ok (emitted, r') ↔
      r.Fits [.struct s d] ∧ emitted.toList = mergeStructs (structNames r) [.struct s d] ∧
        r' = r.gather (mergeStructs (structNames r) [.struct s d]) := by
  cases hfound : r.struct? d.name with
  | none =>
      have hfree : ∀ d' ∈ r.structs, d'.name ≠ d.name := (r.struct?_eq_none_iff _).mp hfound
      have hfits : r.Fits [.struct s d] :=
        (fits_struct_iff hr s d).mpr fun d' hd' hname => absurd hname (hfree d' hd')
      have hnot : d.name ∉ structNames r := by simpa [structNames] using hfree
      have hnew : r.gather [.struct s d] = { r with structs := r.structs ++ [d] } := by
        simp [Reflection.gather, Stmt.inputEntries, Stmt.outputEntries, Stmt.externalEntries,
          Stmt.structEntries]
      simp only [emit, Reflection.addStruct?, hfound, mergeStructs, hnot, if_false, hnew, hfits,
        true_and]
      exact ok_emitted_iff
  | some other =>
      obtain ⟨hmem, hname⟩ := Reflection.mem_of_struct?_eq_some hfound
      have hknown : d.name ∈ structNames r := List.mem_map.mpr ⟨other, hmem, hname⟩
      rw [fits_struct_iff_of_struct? hr s hfound]
      simp only [emit, Reflection.addStruct?, hfound, mergeStructs, hknown, if_true,
        Reflection.gather_nil, Option.any_some]
      by_cases hfields : other.fields = d.fields
      · simp only [hfields, ne_eq, not_true, decide_false, if_false, Bool.false_eq_true, true_and]
        exact ok_emitted_iff
      · simp only [hfields, ne_eq, not_false_eq_true, decide_true, if_true, false_and, iff_false]
        intro h
        cases h

/-- One item is emitted exactly when it fits into the tables; then they hold it. -/
theorem emit_eq_ok_iff {r : Reflection} (hr : r.Fits []) (item : Stmt)
    (emitted : Option Stmt) (r' : Reflection) :
    emit item (fun _ => true) r = .ok (emitted, r') ↔
      r.Fits [item] ∧ emitted.toList = mergeStructs (structNames r) [item] ∧
        r' = r.gather (mergeStructs (structNames r) [item]) := by
  cases item with
  | inputs s vs =>
      have htable : (InterfaceEntry.locations r.inputs).Nodup := by
        simpa [InterfaceEntry.wanted] using hr.inputs
      have hfits : r.Fits [.inputs s vs] ↔
          (InterfaceEntry.locations r.inputs ++ InterfaceEntry.wanted vs).Nodup :=
        ⟨fun h => by simpa [Stmt.inputEntries] using h.inputs, fun h =>
          ⟨by simpa [Stmt.inputEntries] using h, hr.outputs, hr.externals, hr.structs⟩⟩
      rw [emit, keepEntries_true, hfits, return_eq_ok_iff
        (fun r' => Reflection.foldlM_addInput_eq_ok_iff vs r' htable)]
      simp [mergeStructs, Reflection.gather, Stmt.inputEntries, Stmt.outputEntries,
        Stmt.externalEntries, Stmt.structEntries]
  | outputs s vs =>
      have htable : (InterfaceEntry.locations r.outputs).Nodup := by
        simpa [InterfaceEntry.wanted] using hr.outputs
      have hfits : r.Fits [.outputs s vs] ↔
          (InterfaceEntry.locations r.outputs ++ InterfaceEntry.wanted vs).Nodup :=
        ⟨fun h => by simpa [Stmt.outputEntries] using h.outputs, fun h =>
          ⟨hr.inputs, by simpa [Stmt.outputEntries] using h, hr.externals, hr.structs⟩⟩
      rw [emit, keepEntries_true, hfits, return_eq_ok_iff
        (fun r' => Reflection.foldlM_addOutput_eq_ok_iff vs r' htable)]
      simp [mergeStructs, Reflection.gather, Stmt.inputEntries, Stmt.outputEntries,
        Stmt.externalEntries, Stmt.structEntries]
  | externals s vs =>
      have htable : (ExternalEntry.places r.externals).Nodup := by
        simpa [ExternalEntry.wanted] using hr.externals
      have hfits : r.Fits [.externals s vs] ↔
          (ExternalEntry.places r.externals ++ ExternalEntry.wanted vs).Nodup :=
        ⟨fun h => by simpa [Stmt.externalEntries] using h.externals, fun h =>
          ⟨hr.inputs, hr.outputs, by simpa [Stmt.externalEntries] using h, hr.structs⟩⟩
      rw [emit, keepEntries_true, hfits, return_eq_ok_iff
        (fun r' => Reflection.foldlM_addExternal_eq_ok_iff vs r' htable)]
      simp [mergeStructs, Reflection.gather, Stmt.inputEntries, Stmt.outputEntries,
        Stmt.externalEntries, Stmt.structEntries]
  | struct s d => exact emit_struct_eq_ok_iff hr s d emitted r'
  | consts s ds =>
      rw [emit, keepEntries_true]
      exact kept_eq_ok_iff hr rfl rfl rfl rfl emitted r'
  | options s ds =>
      rw [emit, keepEntries_true]
      exact kept_eq_ok_iff hr rfl rfl rfl rfl emitted r'
  | _ =>
      rw [emit, Stmt.copy_eq]
      · exact kept_eq_ok_iff hr rfl rfl rfl rfl emitted r'
      all_goals simp

/-- A single item is merged away where it is a structure that was seen. -/
theorem mergeStructs_singleton (seen : List String) (item : Stmt) :
    mergeStructs seen [item] = [item] ∨
      mergeStructs seen [item] = [] ∧ ∃ s d, item = .struct s d ∧ d.name ∈ seen := by
  cases item with
  | struct s d =>
      by_cases hseen : d.name ∈ seen
      · exact .inr ⟨by simp [mergeStructs, hseen], s, d, rfl, hseen⟩
      · exact .inl (by simp [mergeStructs, hseen])
  | _ => exact .inl rfl

/-- Items fit one after another: a merged struct takes no room. -/
theorem fits_cons_iff {r : Reflection} (item : Stmt) (rest : List Stmt) :
    r.Fits (item :: rest) ↔ r.Fits [item] ∧
      (r.gather (mergeStructs (structNames r) [item])).Fits rest := by
  rcases mergeStructs_singleton (structNames r) item with hkeep | ⟨hmerge, s, d, rfl, hseen⟩
  · rw [hkeep, ← Reflection.fits_append_iff, List.singleton_append]
    constructor
    · intro h
      exact ⟨Reflection.Fits.left (List.singleton_append ▸ h), h⟩
    · exact And.right
  · rw [hmerge, Reflection.gather_nil]
    obtain ⟨d', hd', hname⟩ := List.mem_map.mp hseen
    have hknown (more : List Stmt) (h : r.Fits (.struct s d :: more)) : d ∈ r.structs := by
      have heq : d' = d := h.structs d' (List.mem_append_left _ hd') d
        (by simp [Stmt.structEntries]) hname
      exact heq ▸ hd'
    constructor
    · intro h
      exact ⟨Reflection.Fits.left (List.singleton_append ▸ h),
        (Reflection.fits_struct_cons_iff (hknown rest h) rest).mp h⟩
    · rintro ⟨hone, h⟩
      exact (Reflection.fits_struct_cons_iff (hknown [] hone) rest).mpr h

/-- Items are emitted exactly when they fit into the tables side by side. -/
theorem emitAll_eq_ok_iff {r : Reflection} (hr : r.Fits []) (items out : List Stmt)
    (r' : Reflection) :
    emitAll items r = .ok (out, r') ↔
      r.Fits items ∧ out = mergeStructs (structNames r) items ∧ r' = r.gather out := by
  induction items generalizing r out r' with
  | nil =>
      simp only [emitAll, mergeStructs, Except.ok.injEq, Prod.mk.injEq]
      constructor
      · rintro ⟨rfl, rfl⟩
        exact ⟨hr, rfl, r.gather_nil.symm⟩
      · rintro ⟨_, rfl, rfl⟩
        exact ⟨rfl, r.gather_nil.symm⟩
  | cons item rest ih =>
      have hmid (h : r.Fits [item]) :
          (r.gather (mergeStructs (structNames r) [item])).Fits [] :=
        ((fits_cons_iff item []).mp h).2
      rw [emitAll, Except.bind_eq_ok_iff, fits_cons_iff, mergeStructs_cons _ item rest,
        ← structNames_gather]
      constructor
      · rintro ⟨⟨emitted, mid⟩, hone, hrest⟩
        obtain ⟨hfits, hemitted, rfl⟩ := (emit_eq_ok_iff hr item emitted mid).mp hone
        obtain ⟨⟨more, last⟩, hmore, hlast⟩ := Except.bind_eq_ok_iff.mp hrest
        obtain ⟨hfitsRest, rfl, rfl⟩ := (ih (hmid hfits) more last).mp hmore
        cases hlast
        exact ⟨⟨hfits, hfitsRest⟩, by rw [hemitted], by rw [hemitted, Reflection.gather_append]⟩
      · rintro ⟨⟨hfits, hfitsRest⟩, rfl, rfl⟩
        have hemitted : (mergeStructs (structNames r) [item]).head?.toList =
            mergeStructs (structNames r) [item] := by
          rcases mergeStructs_singleton (structNames r) item with h | ⟨h, _⟩ <;> rw [h] <;> rfl
        have hone := (emit_eq_ok_iff hr item _ _).mpr ⟨hfits, hemitted, rfl⟩
        have hmore := (ih (hmid hfits) _ _).mpr ⟨hfitsRest, rfl, rfl⟩
        refine ⟨_, hone, Except.bind_eq_ok_iff.mpr ⟨_, hmore, ?_⟩⟩
        rw [hemitted, Reflection.gather_append]
        rfl

end Extractor

end Shading
