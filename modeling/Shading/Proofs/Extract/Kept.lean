import Mathlib.Data.List.Flatten
import Shading.Proofs.Extract.Calls

/-!
# The items of a stage

Every item of a stage is a library or declares something, and of the entry functions of the
stage its items hold the only one.
-/

namespace Shading

namespace Stmt

/-- The functions of an item that are an entry of the stage, with their places. -/
def stageEntries (stage : Stage) : Stmt → List (Signature × Span)
  | .function p f _ => if f.isEntryFor stage then [(f, p)] else []
  | _ => []

end Stmt

namespace Extractor

open DeclarationIndex

section Kept

variable {items : List Stmt} {stage : Stage}

/-- What is kept of an item declares what is reached of it. -/
theorem declares_of_mem_stageItems {entry : Site} {item : Stmt}
    (h : item ∈ stageItems items entry) : item.isLibrary = true ∨ declares item ≠ [] := by
  by_cases hlib : ∃ s path, item = .library s path
  · obtain ⟨s, path, rfl⟩ := hlib
    exact .inl rfl
  · right
    obtain ⟨source, i, hget, ⟨s, hs, hi⟩, rfl⟩ :=
      exists_item_of_mem_stageItems h fun s path heq => hlib ⟨s, path, heq⟩
    have hsite : s ∈ sites i source :=
      mem_sites_of_mem_allSites hget (List.mem_of_mem_filter hs) hi
    rw [(bySite_declares items).restrict i source hget]
    refine List.ne_nil_of_mem (a := (s.category, s.name))
      (List.mem_flatMap.mpr ⟨s, List.mem_filter.mpr ⟨hsite, ?_⟩, List.mem_singleton_self _⟩)
    have hany : (reachedSites items entry).any (·.item = i) = true :=
      List.any_eq_true.mpr ⟨s, hs, decide_eq_true hi⟩
    exact (staysIn_eq rfl hget hany hsite).trans (List.mem_filter.mp hs).2

/-- Merging structures loses nothing that no structure has. -/
theorem flatMap_mergeStructs {β : Type} {f : Stmt → List β} (hf : ∀ s d, f (.struct s d) = [])
    (seen : List String) (items : List Stmt) :
    (mergeStructs seen items).flatMap f = items.flatMap f := by
  induction items generalizing seen with
  | nil => rfl
  | cons item rest ih =>
      cases item with
      | struct s d => by_cases hseen : d.name ∈ seen <;> simp [mergeStructs, hseen, hf, ih]
      | _ => simp [mergeStructs, ih]

/-- The entry points for a stage are found site by site. -/
theorem bySite_stageEntries (items : List Stmt) (stage : Stage) :
    BySite items (Stmt.stageEntries stage) fun s =>
      items[s.item]?.toList.flatMap (Stmt.stageEntries stage) := by
  refine ⟨fun _ _ => rfl, fun i item hitem kept => ?_⟩
  have hnone (hother : item.stageEntries stage = []) :
      ((sites i item).filter (staysIn kept)).flatMap
        (fun s => items[s.item]?.toList.flatMap (Stmt.stageEntries stage)) = [] := by
    refine List.flatMap_eq_nil_iff.mpr fun s hs => ?_
    simp [item_of_mem_sites (List.mem_of_mem_filter hs), hitem, hother]
  cases item with
  | function p f body =>
      have hstays : staysIn kept ⟨.function, f.name, i, none, p⟩ = true := rfl
      simp [restrict, sites, hstays, hitem]
  | _ => exact (hnone rfl).symm

/-- The entries of a stage are found at the sites of its entry functions. -/
theorem flatMap_stageEntries (items : List Stmt) (stage : Stage) :
    items.flatMap (Stmt.stageEntries stage) =
      ((functionSites items).filter fun p => p.1.isEntryFor stage).map
        fun p => (p.1, p.2.span) := by
  rw [functionSites, List.filter_filterMap, List.map_filterMap,
    List.filterMap_eq_flatMap_toList]
  conv_lhs => rw [← List.zipIdx_map_fst 0 items, List.flatMap_map]
  apply List.flatMap_congr
  rintro ⟨item, i⟩ _
  cases item with
  | function p f body =>
      cases hentry : f.isEntryFor stage <;> simp [Stmt.stageEntries, hentry, Option.filter]
  | _ => rfl

theorem restrict_true (item : Stmt) : restrict (fun _ => true) item = item := by
  cases item <;> simp only [restrict, keepEntries_true]

theorem staysIn_true (s : Site) : staysIn (fun _ => true) s = true := by
  unfold staysIn
  cases s.entry <;> rfl

/-- All items together contribute what all sites do. -/
theorem flatMap_allSites {β : Type} {f : Stmt → List β} {g : Site → List β}
    (hfg : BySite items f g) : (allSites items).flatMap g = items.flatMap f := by
  rw [allSites, List.flatMap_assoc]
  conv_rhs => rw [← List.zipIdx_map_fst 0 items, List.flatMap_map]
  apply List.flatMap_congr
  rintro ⟨item, i⟩ hp
  have hall := hfg.restrict i item (List.mem_zipIdx_iff_getElem?.mp hp) fun _ => true
  rw [restrict_true, List.filter_eq_self.mpr fun s _ => staysIn_true s] at hall
  exact hall.symm

/-- The function of a candidate. -/
theorem function_of_candidates {n : Nat} {point : EntryPoint} {entry : Site}
    (h : ((n, point), entry) ∈ candidates items stage) :
    ∃ f body, items[entry.item]? = some (.function entry.span f body) ∧ f.name = entry.name ∧
      f.entry = some point ∧ f.isEntryFor stage = true := by
  obtain ⟨⟨⟨f, s⟩, i⟩, hf, hc⟩ := List.mem_filterMap.mp h
  obtain ⟨⟨item, j⟩, hitem, hsite⟩ :=
    List.mem_filterMap.mp (List.mem_of_getElem? (List.mem_zipIdx_iff_getElem?.mp hf))
  cases item with
  | function p g body =>
      cases hsite
      cases hstage : f.isEntryFor stage with
      | false => simp [hstage] at hc
      | true =>
          simp only [hstage, if_true, Option.map_eq_some_iff, Prod.mk.injEq] at hc
          obtain ⟨e, he, ⟨rfl, rfl⟩, rfl⟩ := hc
          exact ⟨f, body, List.mem_zipIdx_iff_getElem?.mp hitem, rfl, he, hstage⟩
  | _ => cases hsite

/-- Of the functions of a file one is the entry of the stage, and it stays in its items. -/
theorem stageEntries_stageItems {n : Nat} {point : EntryPoint} {entry : Site}
    (hone : candidates items stage = [((n, point), entry)]) :
    ∃ f, f.name = entry.name ∧ f.entry = some point ∧
      (stageItems items entry).flatMap (Stmt.stageEntries stage) = [(f, entry.span)] := by
  have hmem : ((n, point), entry) ∈ candidates items stage := hone ▸ List.mem_cons_self
  obtain ⟨f, body, hitem, hname, hpoint, hstage⟩ := function_of_candidates hmem
  have hentry : entry ∈ allSites items :=
    mem_allSites_of_mem_keyedSites (mem_keyedSites_of_candidates hmem)
  have hlist : items.flatMap (Stmt.stageEntries stage) = [(f, entry.span)] := by
    have hentries : entrySites items stage = [entry] :=
      (exists_candidate_iff items stage entry).mp ⟨_, hone⟩
    obtain ⟨p, hp, rfl⟩ := List.map_eq_singleton_iff.mp hentries
    have hf : (f, p.2.span) ∈ items.flatMap (Stmt.stageEntries stage) :=
      List.mem_flatMap.mpr ⟨_, List.mem_of_getElem? hitem, by simp [Stmt.stageEntries, hstage]⟩
    rw [flatMap_stageEntries, hp, List.map_singleton] at hf ⊢
    rw [List.mem_singleton.mp hf]
  have hparts : (stageItems items entry).flatMap (Stmt.stageEntries stage) =
      (reachedSites items entry).flatMap fun s =>
        items[s.item]?.toList.flatMap (Stmt.stageEntries stage) := by
    rw [stageItems, flatMap_mergeStructs fun _ _ => rfl]
    exact flatMap_parts (bySite_stageEntries items stage) rfl
  have hsub : List.Sublist ((stageItems items entry).flatMap (Stmt.stageEntries stage))
      [(f, entry.span)] := by
    rw [hparts, ← hlist, ← flatMap_allSites (bySite_stageEntries items stage)]
    exact List.filter_sublist.flatMap _
  refine ⟨f, hname, hpoint, (List.sublist_singleton.mp hsub).resolve_left ?_⟩
  refine List.ne_nil_of_mem (a := (f, entry.span)) ?_
  rw [hparts, List.mem_flatMap]
  refine ⟨entry, (mem_reachedSites_iff hentry entry).mpr .refl, ?_⟩
  simp [hitem, Stmt.stageEntries, hstage]

end Kept

end Extractor

end Shading
