import Shading.Proofs.Extract.Alike
import Shading.Proofs.Extract.Success
import Shading.Proofs.Parallel

/-!
# Extracting wherever the parts stand

Without its places a tree has the same declarations, from which the same ones are reached.
It gives the same stage, but for its places, or is refused as well.
-/

namespace Shading

/-- The declaration without its place in the text. -/
def Site.erased (s : Site) : Site := { s with span := .dummy }

/-- The stage without the places of its tree. -/
def ExtractedStage.erased (out : ExtractedStage) : ExtractedStage :=
  { out with tree := out.tree.eraseSpans }

namespace DeclarationIndex

/-- The sites of a block depend on names and spans only. -/
theorem blockSites_map {α : Type} (c : Category) (i : Nat) (name : α → String) (span : α → Span)
    (erase : α → α) (hname : ∀ a, name (erase a) = name a) (hspan : ∀ a, span (erase a) = .dummy)
    (entries : List α) :
    blockSites c i name span (entries.map erase) =
      (blockSites c i name span entries).map Site.erased := by
  rw [blockSites, blockSites, List.zipIdx_map, List.map_map, List.map_map]
  refine List.map_congr_left fun p _ => ?_
  simp only [Function.comp_apply, Site.erased, Prod.map, hname, hspan, id]

/-- An item without spans has the same sites, without spans. -/
theorem sites_eraseSpans (i : Nat) (item : Stmt) :
    sites i item.eraseSpans = (sites i item).map Site.erased := by
  cases item with
  | inputs p vs =>
      rw [Stmt.erased_inputs]
      exact blockSites_map .input i (·.name) (·.span) InterfaceVariable.erased (fun _ => rfl)
        (fun _ => rfl) vs
  | outputs p vs =>
      rw [Stmt.erased_outputs]
      exact blockSites_map .output i (·.name) (·.span) InterfaceVariable.erased (fun _ => rfl)
        (fun _ => rfl) vs
  | externals p vs =>
      rw [Stmt.erased_externals]
      exact blockSites_map .external i (·.name) (·.span) ExternalVariable.erased (fun _ => rfl)
        (fun _ => rfl) vs
  | consts p ds =>
      rw [Stmt.erased_consts]
      exact blockSites_map .const i (·.name) (·.span) ConstDeclaration.erased (fun _ => rfl)
        (fun _ => rfl) ds
  | options p ds =>
      rw [Stmt.erased_options]
      exact blockSites_map .option i (·.name) (·.span) OptionDeclaration.erased (fun _ => rfl)
        (fun _ => rfl) ds
  | function p f body =>
      rw [Stmt.erased_function]
      rfl
  | struct p d =>
      rw [Stmt.erased_struct]
      rfl
  | var p d =>
      rw [Stmt.erased_var]
      rfl
  | _ => simp [sites]

theorem allSites_eraseSpans (items : List Stmt) :
    allSites (items.map Stmt.eraseSpans) = (allSites items).map Site.erased := by
  rw [allSites, allSites, List.zipIdx_map, List.flatMap_map, List.map_flatMap]
  exact List.flatMap_congr fun p _ => sites_eraseSpans p.2 p.1

theorem functionSites_eraseSpans (items : List Stmt) :
    functionSites (items.map Stmt.eraseSpans) =
      (functionSites items).map fun p => (p.1.erased, p.2.erased) := by
  rw [functionSites, functionSites, List.zipIdx_map, List.filterMap_map, List.map_filterMap]
  refine List.filterMap_congr fun p _ => ?_
  obtain ⟨item, i⟩ := p
  cases item <;> simp [Site.erased, Signature.erased]

/-- The candidates for a stage are the same. -/
theorem candidates_eraseSpans (items : List Stmt) (stage : Stage) :
    candidates (items.map Stmt.eraseSpans) stage =
      (candidates items stage).map fun p => (p.1, p.2.erased) := by
  rw [candidates, candidates, functionSites_eraseSpans, List.zipIdx_map, List.filterMap_map,
    List.map_filterMap]
  refine List.filterMap_congr fun p _ => ?_
  obtain ⟨⟨f, s⟩, i⟩ := p
  have hstage : f.erased.isEntryFor stage = f.isEntryFor stage := rfl
  have hentry : f.erased.entry = f.entry := rfl
  cases hf : f.isEntryFor stage <;> simp [hstage, hentry, hf, Function.comp_def]

/-- An optional block that is left is found in either tree. -/
theorem unspecialized?_eraseSpans (items : List Stmt) :
    unspecialized? (items.map Stmt.eraseSpans) = (unspecialized? items).map fun _ => .dummy := by
  induction items with
  | nil => rfl
  | cons item rest ih =>
      rw [unspecialized?] at ih ⊢
      cases item <;> simp_all [unspecialized?]

section Reached

variable {items : List Stmt} {entry s t : Site}

theorem erased_mem_allSites (hs : s ∈ allSites items) :
    s.erased ∈ allSites (items.map Stmt.eraseSpans) := by
  rw [allSites_eraseSpans]
  exact List.mem_map_of_mem hs

/-- Sites are told apart without their spans. -/
theorem eq_of_erased_eq (hs : s ∈ allSites items) (ht : t ∈ allSites items)
    (h : s.erased = t.erased) : s = t :=
  have hitem : s.erased.item = t.erased.item := congrArg Site.item h
  have hentry : s.erased.entry = t.erased.entry := congrArg Site.entry h
  eq_of_place_eq hs ht hitem hentry

/-- A declaration refers to the same names without its places. -/
theorem mem_namesOf_erased (items : List Stmt) (s : Site) (k : Category) (n : String) :
    n ∈ (siteUses (items.map Stmt.eraseSpans) s.erased).namesOf k ↔
      n ∈ (siteUses items s).namesOf k := by
  have hget : (items.map Stmt.eraseSpans)[s.erased.item]? = items[s.item]?.map Stmt.eraseSpans :=
    List.getElem?_map
  rw [siteUses, siteUses, usesOf, usesOf, hget]
  cases items[s.item]? with
  | none => exact Iff.rfl
  | some item => exact ((Collector.Alike.new _ _).declaration item s.entry).names k n

/-- A site refers to the same sites. -/
theorem refers_erased_iff (ht : t ∈ allSites items) :
    Refers (items.map Stmt.eraseSpans) s.erased t.erased ↔ Refers items s t := by
  rw [Refers, Refers]
  exact and_congr (iff_of_true (erased_mem_allSites ht) ht) (mem_namesOf_erased items s _ _)

/-- What is reached without spans is reached with them. -/
theorem exists_of_reaches_erased {u : Site}
    (h : Reaches (items.map Stmt.eraseSpans) entry.erased u) :
    ∃ t, Reaches items entry t ∧ t.erased = u := by
  induction h with
  | refl => exact ⟨entry, .refl, rfl⟩
  | tail _ href ih =>
      obtain ⟨t, ht, rfl⟩ := ih
      have hin := href.1
      rw [allSites_eraseSpans] at hin
      obtain ⟨w, hw, rfl⟩ := List.mem_map.mp hin
      exact ⟨w, ht.tail ((refers_erased_iff hw).mp href), rfl⟩

/-- The same declarations are reached. -/
theorem reaches_erased_iff (hentry : entry ∈ allSites items) (ht : t ∈ allSites items) :
    Reaches (items.map Stmt.eraseSpans) entry.erased t.erased ↔ Reaches items entry t := by
  constructor
  · intro h
    obtain ⟨u, hu, heq⟩ := exists_of_reaches_erased h
    rwa [← eq_of_erased_eq (Extractor.mem_allSites_of_reaches hentry hu) ht heq]
  · intro h
    induction h with
    | refl => exact .refl
    | tail hb href ih =>
        exact (ih (Extractor.mem_allSites_of_reaches hentry hb)).tail
          ((refers_erased_iff href.1).mpr href)

end Reached

end DeclarationIndex

namespace Extractor

open DeclarationIndex

section Kept

variable {items : List Stmt} {entry : Site}

theorem keepEntries_map {α : Type} (kept : Nat → Bool) (erase : α → α) (entries : List α) :
    keepEntries kept (entries.map erase) = (keepEntries kept entries).map erase := by
  rw [keepEntries, keepEntries, List.zipIdx_map, List.filter_map, List.map_map, List.map_map]
  rfl

theorem restrict_eraseSpans (kept : Nat → Bool) (item : Stmt) :
    restrict kept item.eraseSpans = (restrict kept item).eraseSpans := by
  cases item <;> simp [restrict, keepEntries_map]

theorem part?_eraseSpans (reached : List Site) (item : Stmt) (i : Nat) :
    part? (reached.map Site.erased) item.eraseSpans i =
      (part? reached item i).map Stmt.eraseSpans := by
  by_cases hlib : ∃ s path, item = .library s path
  · obtain ⟨s, path, rfl⟩ := hlib
    rfl
  · have hnot (s : Span) (path : List String) : item ≠ .library s path := fun h => hlib ⟨s, path, h⟩
    have hnot' (s : Span) (path : List String) : item.eraseSpans ≠ .library s path := by
      cases item with
      | library s path => exact absurd rfl (hnot s path)
      | _ => simp
    rw [part?_of_ne_library _ _ hnot, part?_of_ne_library _ _ hnot', List.any_map,
      restrict_eraseSpans]
    simp only [List.any_map]
    change (if reached.any (·.item = i) then some (restrict _ item).eraseSpans else none) = _
    cases reached.any (·.item = i) <;> rfl

/-- The parts are the same, without spans. -/
theorem parts_eraseSpans (reached : List Site) (items : List Stmt) :
    parts (reached.map Site.erased) (items.map Stmt.eraseSpans) =
      (parts reached items).map Stmt.eraseSpans := by
  rw [parts, parts, List.zipIdx_map, List.filterMap_map, List.map_filterMap]
  exact List.filterMap_congr fun p _ => part?_eraseSpans reached p.1 p.2

theorem mergeStructs_eraseSpans (seen : List String) (items : List Stmt) :
    mergeStructs seen (items.map Stmt.eraseSpans) =
      (mergeStructs seen items).map Stmt.eraseSpans := by
  induction items generalizing seen with
  | nil => rfl
  | cons item rest ih =>
      cases item with
      | struct p d =>
          rw [List.map_cons, Stmt.erased_struct, mergeStructs, mergeStructs]
          by_cases hseen : d.name ∈ seen
          · rw [if_pos hseen, if_pos hseen, ih]
          · rw [if_neg hseen, if_neg hseen, List.map_cons, Stmt.erased_struct, ih]
      | _ => simp [mergeStructs, ih]

/-- The reached sites are the same, without spans. -/
theorem reachedSites_eraseSpans (hentry : entry ∈ allSites items) :
    reachedSites (items.map Stmt.eraseSpans) entry.erased =
      (reachedSites items entry).map Site.erased := by
  rw [reachedSites, reachedSites, allSites_eraseSpans, List.filter_map]
  refine congrArg _ (List.filter_congr fun t ht => ?_)
  rw [Function.comp_apply, decide_eq_decide]
  exact reaches_erased_iff hentry ht

theorem stageItems_eraseSpans (hentry : entry ∈ allSites items) :
    stageItems (items.map Stmt.eraseSpans) entry.erased =
      (stageItems items entry).map Stmt.eraseSpans := by
  rw [stageItems, stageItems, reachedSites_eraseSpans hentry, parts_eraseSpans,
    mergeStructs_eraseSpans]

/-- The tables of a file are read without its places. -/
theorem flatMap_eraseSpans {α β : Type} (entries : Stmt → List α) (f : α → β) (erase : α → α)
    (hf : ∀ a, f (erase a) = f a)
    (h : ∀ item, entries item.eraseSpans = (entries item).map erase) (items : List Stmt) :
    ((items.map Stmt.eraseSpans).flatMap entries).map f = (items.flatMap entries).map f := by
  rw [List.flatMap_map, List.map_flatMap, List.map_flatMap]
  refine List.flatMap_congr fun item _ => ?_
  rw [h, List.map_map]
  exact List.map_congr_left fun a _ => hf a

theorem structEntries_eraseSpans (items : List Stmt) :
    (items.map Stmt.eraseSpans).flatMap Stmt.structEntries = items.flatMap Stmt.structEntries := by
  rw [List.flatMap_map]
  refine List.flatMap_congr fun item _ => ?_
  cases item <;> simp [Stmt.structEntries]

/-- What is gathered has no spans. -/
theorem gather_eraseSpans (r : Reflection) (items : List Stmt) :
    r.gather (items.map Stmt.eraseSpans) = r.gather items := by
  rw [Reflection.gather, Reflection.gather, structEntries_eraseSpans,
    flatMap_eraseSpans Stmt.inputEntries InterfaceEntry.ofVariable InterfaceVariable.erased
      (fun _ => rfl) fun item => by cases item <;> simp [Stmt.inputEntries],
    flatMap_eraseSpans Stmt.outputEntries InterfaceEntry.ofVariable InterfaceVariable.erased
      (fun _ => rfl) fun item => by cases item <;> simp [Stmt.outputEntries],
    flatMap_eraseSpans Stmt.externalEntries ExternalEntry.ofVariable ExternalVariable.erased
      (fun _ => rfl) fun item => by cases item <;> simp [Stmt.externalEntries]]

/-- Items ask for the same places in the tables without their places in the text. -/
theorem fits_eraseSpans (items : List Stmt) :
    Reflection.empty.Fits (items.map Stmt.eraseSpans) ↔ Reflection.empty.Fits items := by
  have hgather := gather_eraseSpans .empty items
  have hempty (items : List Stmt) : Reflection.empty.Fits items ↔
      (Reflection.empty.gather items).Fits [] := by
    have happend := Reflection.fits_append_iff .empty items []
    rwa [List.append_nil] at happend
  rw [hempty, hgather, ← hempty]

/-- What is used resolves in either tree. -/
theorem resolves_erased_iff (items : List Stmt) (s : Site) :
    (siteUses (items.map Stmt.eraseSpans) s.erased).Resolves
        (allSites (items.map Stmt.eraseSpans)) ↔
      (siteUses items s).Resolves (allSites items) := by
  have hsites (P : Category → String → Prop) :
      (∃ t ∈ allSites (items.map Stmt.eraseSpans), P t.category t.name) ↔
        ∃ t ∈ allSites items, P t.category t.name := by
    rw [allSites_eraseSpans]
    simp only [List.mem_map, exists_exists_and_eq_and]
    rfl
  have hnames := mem_namesOf_erased items s
  constructor
  · intro h
    exact ⟨fun n hn => (hsites fun c m => c = .function ∧ m = n).mp
        (h.functions n ((hnames .function n).mpr hn)),
      fun n hn => (hsites fun c m => c = .struct ∧ m = n).mp
        (h.structs n ((hnames .struct n).mpr hn)),
      fun n hn => (hsites fun c m => c.isValue = true ∧ m = n).mp
        (h.values n ((hnames .global n).mpr hn))⟩
  · intro h
    exact ⟨fun n hn => (hsites fun c m => c = .function ∧ m = n).mpr
        (h.functions n ((hnames .function n).mp hn)),
      fun n hn => (hsites fun c m => c = .struct ∧ m = n).mpr
        (h.structs n ((hnames .struct n).mp hn)),
      fun n hn => (hsites fun c m => c.isValue = true ∧ m = n).mpr
        (h.values n ((hnames .global n).mp hn))⟩

end Kept

mutual

theorem flatten_eraseSpans (s : Stmt) : flatten s.eraseSpans = (flatten s).map Stmt.eraseSpans := by
  cases s with
  | block p items =>
      rw [Stmt.erased_block]
      exact flattenList_eraseSpans items
  | _ => simp [flatten]

theorem flattenList_eraseSpans (ss : List Stmt) :
    flattenList (ss.map Stmt.eraseSpans) = (flattenList ss).map Stmt.eraseSpans := by
  cases ss with
  | nil => rfl
  | cons s rest =>
      rw [List.map_cons, flattenList, flattenList, List.map_append, flatten_eraseSpans s,
        flattenList_eraseSpans rest]

end

/-- The items of a stage and its reflection are the same, up to spans. -/
theorem stageFrom_eraseSpans {items : List Stmt} {entry : Site} (hentry : entry ∈ allSites items)
    (span : Span) (point : EntryPoint) :
    stageFrom (items.map Stmt.eraseSpans) .dummy point entry.erased =
      (stageFrom items span point entry).erased := by
  rw [stageFrom, stageFrom, stageItems_eraseSpans hentry, gather_eraseSpans,
    ExtractedStage.erased, Stmt.erased_block]
  rfl

/-- What is reached has declared names and fits into the tables, or it does neither way. -/
theorem extractable_eraseSpans {items : List Stmt} {entry : Site}
    (hentry : entry ∈ allSites items) :
    Extractable (items.map Stmt.eraseSpans) entry.erased ↔ Extractable items entry := by
  rw [extractable_iff (erased_mem_allSites hentry), extractable_iff hentry,
    reachedSites_eraseSpans hentry, parts_eraseSpans, fits_eraseSpans]
  refine and_congr ⟨fun h t ht => ?_, fun h u hu => ?_⟩ Iff.rfl
  · have hin := mem_allSites_of_reaches hentry ht
    exact (resolves_erased_iff _ t).mp (h t.erased ((reaches_erased_iff hentry hin).mpr ht))
  · obtain ⟨t, ht, rfl⟩ := exists_of_reaches_erased hu
    exact (resolves_erased_iff _ t).mpr (h t ht)

/-- A tree gives the stage that it gives without its places. -/
theorem parallel_extractStage_eraseSpans (tree : Stmt) (stage : Stage) :
    Except.Parallel (fun out out' => out' = out.erased) (extractStage tree stage)
      (extractStage tree.eraseSpans stage) := by
  have hspan : tree.eraseSpans.span = .dummy := by cases tree <;> simp [Stmt.span]
  have hbuild : (∃ index, build ((flatten tree).map Stmt.eraseSpans) = .ok index) ↔
      ∃ index, build (flatten tree) = .ok index := by
    rw [build_eq_ok_iff, build_eq_ok_iff, unspecialized?_eraseSpans, Option.map_eq_none_iff]
  have hmem {items : List Stmt} {c : Nat × EntryPoint} {entry : Site}
      (h : candidates items stage = [(c, entry)]) : entry ∈ allSites items :=
    mem_allSites_of_mem_keyedSites (mem_keyedSites_of_candidates (h ▸ List.mem_cons_self))
  rw [extractStage_eq, extractStage_eq, flatten_eraseSpans, hspan]
  refine .of_forall (fun out hx => ?_) fun out' hx => ?_
  · obtain ⟨index, hindex, hx⟩ := Except.bind_eq_ok_iff.mp hx
    obtain ⟨n, point, entry, hone, hall, hfits, rfl⟩ := (extract_eq_ok_iff hindex _ _ _).mp hx
    obtain ⟨index', hindex'⟩ := hbuild.mpr ⟨index, hindex⟩
    have hone' : candidates ((flatten tree).map Stmt.eraseSpans) stage =
        [((n, point), entry.erased)] := by
      rw [candidates_eraseSpans, hone]
      rfl
    obtain ⟨hall', hfits'⟩ := (extractable_iff (hmem hone')).mp
      ((extractable_eraseSpans (hmem hone)).mpr ((extractable_iff (hmem hone)).mpr ⟨hall, hfits⟩))
    refine ⟨_, ?_, stageFrom_eraseSpans (hmem hone) tree.span point⟩
    rw [hindex', Except.ok_bind, extract_eq_ok_iff hindex']
    exact ⟨n, point, entry.erased, hone', hall', hfits', rfl⟩
  · obtain ⟨index', hindex', hx⟩ := Except.bind_eq_ok_iff.mp hx
    obtain ⟨n, point, entry', hone', hall', hfits', rfl⟩ := (extract_eq_ok_iff hindex' _ _ _).mp hx
    obtain ⟨index, hindex⟩ := hbuild.mp ⟨index', hindex'⟩
    have hmap := hone'
    rw [candidates_eraseSpans] at hmap
    obtain ⟨⟨c, entry⟩, hone, hc⟩ := List.map_eq_singleton_iff.mp hmap
    obtain ⟨rfl, rfl⟩ := Prod.mk.inj hc
    obtain ⟨hall, hfits⟩ := (extractable_iff (hmem hone)).mp
      ((extractable_eraseSpans (hmem hone)).mp ((extractable_iff (hmem hone')).mpr ⟨hall', hfits'⟩))
    refine ⟨stageFrom (flatten tree) tree.span point entry, ?_⟩
    rw [hindex, Except.ok_bind, extract_eq_ok_iff hindex]
    exact ⟨n, point, entry, hone, hall, hfits, rfl⟩

/-- Trees that are the same but for their places give the same stage but for its places. -/
theorem parallel_extractStage {tree tree' : Stmt} (h : tree.Alike tree') (stage : Stage) :
    Except.Parallel (fun out out' => out.erased = out'.erased) (extractStage tree stage)
      (extractStage tree' stage) :=
  (parallel_extractStage_eraseSpans tree stage).trans
    (h ▸ (parallel_extractStage_eraseSpans tree' stage).symm) fun _ _ _ hout hout' =>
      hout.symm.trans hout'

end Extractor

end Shading
