import Mathlib.Data.List.Pairwise
import Shading.Proofs.Extract.Closed

/-!
# When a stage is extracted

A tree gives a stage exactly when it has one entry function for the stage and the
declarations that this function reaches do not collide and use declared names only. What
is not reached has no say.
-/

namespace Shading

namespace Extractor

open DeclarationIndex

/-- The entry that a site of a file stands for, in a table of its item. -/
def entryAt? {α : Type} (entries : Stmt → List α) (items : List Stmt) (s : Site) : Option α :=
  match items[s.item]?, s.entry with
  | some item, some n => (entries item)[n]?
  | _, _ => none

/-- The input that is declared at a site. -/
abbrev inputAt? : List Stmt → Site → Option InterfaceVariable := entryAt? Stmt.inputEntries

/-- The output that is declared at a site. -/
abbrev outputAt? : List Stmt → Site → Option InterfaceVariable := entryAt? Stmt.outputEntries

/-- The external variable that is declared at a site. -/
abbrev externalAt? : List Stmt → Site → Option ExternalVariable :=
  entryAt? Stmt.externalEntries

/-- The struct that a site of a file stands for. -/
def structAt? (items : List Stmt) (s : Site) : Option StructDeclaration :=
  match items[s.item]? with
  | some (.struct _ d) => some d
  | _ => none

/-- The declarations that are reached from a site have declared names and no collisions. -/
structure Extractable (items : List Stmt) (entry : Site) : Prop where
  declared : ∀ s, Reaches items entry s → (siteUses items s).Resolves (allSites items)
  inputs : ∀ s t, Reaches items entry s → Reaches items entry t → ∀ v w n,
    inputAt? items s = some v → inputAt? items t = some w →
    v.slot = .location n → w.slot = .location n → s = t
  outputs : ∀ s t, Reaches items entry s → Reaches items entry t → ∀ v w n,
    outputAt? items s = some v → outputAt? items t = some w →
    v.slot = .location n → w.slot = .location n → s = t
  externals : ∀ s t, Reaches items entry s → Reaches items entry t → ∀ v w,
    externalAt? items s = some v → externalAt? items t = some w →
    v.set = w.set → v.binding = w.binding → s = t
  structs : ∀ s t, Reaches items entry s → Reaches items entry t → ∀ d e,
    structAt? items s = some d → structAt? items t = some e →
    d.name = e.name → d.fields = e.fields

section Sites

variable {α β : Type} {items : List Stmt}

/-- A table of blocks is read through the sites of their entries. -/
theorem bySite_entries {entries : Stmt → List α} (c : Category) (name : α → String)
    (span : α → Span) (hlib : ∀ s path, entries (.library s path) = [])
    (hsites : ∀ item, entries item ≠ [] →
      ∀ i, sites i item = blockSites c i name span (entries item))
    (hrestrict : ∀ kept item, entries (restrict kept item) = keepEntries kept (entries item)) :
    BySite items entries fun s => (entryAt? entries items s).toList := by
  refine ⟨hlib, fun i item hitem kept => ?_⟩
  rw [hrestrict]
  by_cases hempty : entries item = []
  · rw [hempty, eq_comm]
    refine List.flatMap_eq_nil_iff.mpr fun s hs => ?_
    have hi := item_of_mem_sites (List.mem_of_mem_filter hs)
    cases hentry : s.entry <;> simp [entryAt?, hi, hitem, hempty, hentry]
  · rw [hsites item hempty i, ← flatMap_keepEntries kept (entries item) (fun a => [a]) c i
      name span, List.flatMap_singleton']
    intro a n ha
    simp [entryAt?, hitem, ha]

/-- The inputs are found site by site. The other tables are alike. -/
theorem bySite_inputs (items : List Stmt) :
    BySite items Stmt.inputEntries fun s => (inputAt? items s).toList := by
  refine bySite_entries .input (·.name) (·.span) (fun _ _ => rfl) (fun item hne i => ?_)
    fun kept item => ?_
  · cases item with
    | inputs p vs => rfl
    | _ => exact absurd rfl hne
  · cases item <;> rfl

theorem bySite_outputs (items : List Stmt) :
    BySite items Stmt.outputEntries fun s => (outputAt? items s).toList := by
  refine bySite_entries .output (·.name) (·.span) (fun _ _ => rfl) (fun item hne i => ?_)
    fun kept item => ?_
  · cases item with
    | outputs p vs => rfl
    | _ => exact absurd rfl hne
  · cases item <;> rfl

theorem bySite_externals (items : List Stmt) :
    BySite items Stmt.externalEntries fun s => (externalAt? items s).toList := by
  refine bySite_entries .external (·.name) (·.span) (fun _ _ => rfl) (fun item hne i => ?_)
    fun kept item => ?_
  · cases item with
    | externals p vs => rfl
    | _ => exact absurd rfl hne
  · cases item <;> rfl

theorem bySite_structs (items : List Stmt) :
    BySite items Stmt.structEntries fun s => (structAt? items s).toList := by
  refine ⟨fun _ _ => rfl, fun i item hitem kept => ?_⟩
  have hnone (hne : ∀ s d, item ≠ .struct s d) :
      ((sites i item).filter (staysIn kept)).flatMap (fun s => (structAt? items s).toList) =
        [] := by
    refine List.flatMap_eq_nil_iff.mpr fun s hs => ?_
    have hi := item_of_mem_sites (List.mem_of_mem_filter hs)
    rw [structAt?, hi, hitem]
    cases item with
    | struct p d => exact absurd rfl (hne p d)
    | _ => rfl
  cases item with
  | struct p d =>
      have hstays : staysIn kept ⟨.struct, d.name, i, none, p⟩ = true := rfl
      simp [restrict, Stmt.structEntries, sites, hstays, structAt?, hitem]
  | _ => exact (hnone (by simp)).symm

/-- Values taken from different places differ exactly when equal ones come from one place. -/
theorem nodup_filterMap_iff {l : List α} (hl : l.Nodup) (k : α → Option β) :
    (l.filterMap k).Nodup ↔
      ∀ a ∈ l, ∀ b ∈ l, ∀ x, k a = some x → k b = some x → a = b := by
  rw [List.Nodup, List.pairwise_filterMap]
  constructor
  · intro h a ha b hb x hka hkb
    by_contra hne
    have hsymm : Std.Symm fun a b => ∀ x, k a = some x → ∀ y, k b = some y → x ≠ y :=
      ⟨fun a b h x hx y hy hxy => h y hy x hx hxy.symm⟩
    exact h.forall ha hb hne x hka x hkb rfl
  · intro h
    refine List.Nodup.pairwise_of_forall_ne hl ?_
    intro a ha b hb hne x hx y hy hxy
    exact hne (h a ha b hb x hx (hxy ▸ hy))

end Sites

section Collisions

variable {items : List Stmt} {entry : Site}

theorem nodup_reachedSites (items : List Stmt) (entry : Site) :
    (reachedSites items entry).Nodup :=
  (nodup_allSites items).filter _

/-- A table has room for the reached entries exactly when no two of them ask for one place. -/
theorem nodup_places_iff {α β : Type} (hentry : entry ∈ allSites items)
    {entries : Stmt → List α} {g : Site → Option α}
    (hsite : BySite items entries fun s => (g s).toList) (place : α → Option β) :
    (((parts (reachedSites items entry) items).flatMap entries).filterMap place).Nodup ↔
      ∀ s t, Reaches items entry s → Reaches items entry t → ∀ v w x,
        g s = some v → g t = some w → place v = some x → place w = some x → s = t := by
  have hparts : (parts (reachedSites items entry) items).flatMap entries =
      (reachedSites items entry).filterMap g := by
    rw [List.filterMap_eq_flatMap_toList]
    exact flatMap_parts hsite rfl
  rw [hparts, List.filterMap_filterMap, nodup_filterMap_iff (nodup_reachedSites items entry)]
  simp only [mem_reachedSites_iff hentry, Option.bind_eq_some_iff]
  constructor
  · intro h s t hs ht v w x hv hw hx hy
    exact h s hs t ht x ⟨v, hv, hx⟩ ⟨w, hw, hy⟩
  · rintro h s hs t ht x ⟨v, hv, hx⟩ ⟨w, hw, hy⟩
    exact h s t hs ht v w x hv hw hx hy

/-- The structures of the parts agree where those of the reached sites do. -/
theorem structs_agree_iff (hentry : entry ∈ allSites items) :
    (∀ d ∈ (parts (reachedSites items entry) items).flatMap Stmt.structEntries,
      ∀ e ∈ (parts (reachedSites items entry) items).flatMap Stmt.structEntries,
        d.name = e.name → d = e) ↔
      ∀ s t, Reaches items entry s → Reaches items entry t → ∀ d e,
        structAt? items s = some d → structAt? items t = some e →
        d.name = e.name → d.fields = e.fields := by
  have hparts : (parts (reachedSites items entry) items).flatMap Stmt.structEntries =
      (reachedSites items entry).filterMap (structAt? items) := by
    rw [List.filterMap_eq_flatMap_toList]
    exact flatMap_parts (bySite_structs items) rfl
  simp only [hparts, List.mem_filterMap, mem_reachedSites_iff hentry]
  constructor
  · intro h s t hs ht d e hd he hname
    rw [h d ⟨s, hs, hd⟩ e ⟨t, ht, he⟩ hname]
  · rintro h d ⟨s, hs, hd⟩ e ⟨t, ht, he⟩ hname
    have hfields := h s t hs ht d e hd he hname
    cases d
    cases e
    simp_all

theorem locations_eq_some_iff (v : InterfaceVariable) (n : Nat) :
    v.slot.location? = some n ↔ v.slot = .location n := by
  cases v.slot <;> simp [Slot.location?]

/-- The parts fit into empty tables exactly when nothing that is reached collides. -/
theorem extractable_iff (hentry : entry ∈ allSites items) :
    Extractable items entry ↔
      (∀ t, Reaches items entry t → (siteUses items t).Resolves (allSites items)) ∧
        Reflection.empty.Fits (parts (reachedSites items entry) items) := by
  have hinputs := nodup_places_iff hentry (bySite_inputs items) (·.slot.location?)
  have houtputs := nodup_places_iff hentry (bySite_outputs items) (·.slot.location?)
  have hexternals := nodup_places_iff hentry (bySite_externals items)
    (fun v => some (v.set, v.binding))
  have hstructs := structs_agree_iff hentry
  simp only [locations_eq_some_iff] at hinputs houtputs
  rw [List.filterMap_eq_map'] at hexternals
  simp only [Option.some.injEq] at hexternals
  constructor
  · intro h
    refine ⟨h.declared, hinputs.mpr h.inputs, houtputs.mpr h.outputs, ?_, hstructs.mpr h.structs⟩
    refine hexternals.mpr fun s t hs ht v w x hv hw hx hy => ?_
    have hxy := hx.trans hy.symm
    exact h.externals s t hs ht v w hv hw (congrArg Prod.fst hxy) (congrArg Prod.snd hxy)
  · rintro ⟨hall, hfits⟩
    refine ⟨hall, hinputs.mp hfits.inputs, houtputs.mp hfits.outputs, ?_,
      hstructs.mp hfits.structs⟩
    intro s t hs ht v w hv hw hset hbinding
    exact hexternals.mp hfits.externals s t hs ht v w _ hv hw rfl (by rw [hset, hbinding])

end Collisions

/-- The items are specialized where none of them is an optional block. -/
theorem unspecialized?_eq_none_iff (items : List Stmt) :
    unspecialized? items = none ↔
      ∀ s condition body otherwise, .optional s condition body otherwise ∉ items := by
  rw [unspecialized?, List.findSome?_eq_none_iff]
  constructor
  · intro h s condition body otherwise hmem
    cases h _ hmem
  · intro h item hitem
    cases item with
    | optional s c b o => exact absurd hitem (h s c b o)
    | _ => rfl

theorem unspecialized?_of_mem {items : List Stmt} {s : Span} {condition : Expr} {body : Stmt}
    {otherwise : Option Stmt} (h : .optional s condition body otherwise ∈ items) :
    ∃ span, unspecialized? items = some span := by
  cases hfound : unspecialized? items with
  | some span => exact ⟨span, rfl⟩
  | none => exact absurd h ((unspecialized?_eq_none_iff items).mp hfound _ _ _ _)

/-- Extracting a stage builds the index of the flattened items and extracts from that. -/
theorem extractStage_eq (tree : Stmt) (stage : Stage) :
    extractStage tree stage = build (flatten tree) >>= fun index =>
      extract ⟨flatten tree, index, tree.span⟩ stage := by
  rw [extractStage, Stmt.copy_eq, ofTree]
  cases build (flatten tree) <;> rfl

/-- A tree gives a stage exactly when none of its items is an optional block, one function
is the entry of the stage, and what this function reaches is extractable. A tree with an
optional block is refused as unspecialized. -/
theorem extractStage_ok_iff (tree : Stmt) (stage : Stage) :
    ((∃ out, extractStage tree stage = .ok out) ↔
      (∀ s condition body otherwise,
        .optional s condition body otherwise ∉ flatten tree) ∧
      ∃ entry, entrySites (flatten tree) stage = [entry] ∧
        Extractable (flatten tree) entry) ∧
    ∀ s condition body otherwise, .optional s condition body otherwise ∈ flatten tree →
      ∃ span, extractStage tree stage = .error (.unspecialized span) := by
  constructor
  · rw [← unspecialized?_eq_none_iff, ← build_eq_ok_iff, extractStage_eq]
    constructor
    · rintro ⟨out, hout⟩
      obtain ⟨index, hindex, hx⟩ := Except.bind_eq_ok_iff.mp hout
      obtain ⟨n, point, entry, hone, hall, hfits, _⟩ :=
        (extract_eq_ok_iff hindex tree.span stage out).mp hx
      have hentry := mem_allSites_of_mem_keyedSites
        (mem_keyedSites_of_candidates (hone ▸ List.mem_cons_self))
      exact ⟨⟨index, hindex⟩, entry, (exists_candidate_iff _ _ _).mp ⟨_, hone⟩,
        (extractable_iff hentry).mpr ⟨hall, hfits⟩⟩
    · rintro ⟨⟨index, hindex⟩, entry, hone, hextractable⟩
      obtain ⟨⟨n, point⟩, hone⟩ := (exists_candidate_iff _ _ _).mpr hone
      have hentry := mem_allSites_of_mem_keyedSites
        (mem_keyedSites_of_candidates (hone ▸ List.mem_cons_self))
      obtain ⟨hall, hfits⟩ := (extractable_iff hentry).mp hextractable
      rw [hindex, Except.ok_bind]
      exact ⟨_, (extract_eq_ok_iff hindex tree.span stage _).mpr
        ⟨n, point, entry, hone, hall, hfits, rfl⟩⟩
  · intro s condition body otherwise hmem
    obtain ⟨span, hspan⟩ := unspecialized?_of_mem hmem
    rw [extractStage_eq, build, hspan]
    exact ⟨span, rfl⟩

end Extractor

end Shading
