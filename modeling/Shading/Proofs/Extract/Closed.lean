import Shading.Proofs.Extract.Parts

/-!
# The tree of a stage

A stage that is extracted holds what its entry function reaches: the parts of all items
in source order, structs of one name merged. Every name that a kept declaration uses is
declared among them.
-/

namespace Shading

namespace Extractor

open DeclarationIndex

open Classical in
/-- The declarations that are reached from a site, in source order. -/
noncomputable def reachedSites (items : List Stmt) (entry : Site) : List Site :=
  (allSites items).filter fun s => decide (Reaches items entry s)

/-- The items of the stage that starts at a site. -/
noncomputable def stageItems (items : List Stmt) (entry : Site) : List Stmt :=
  mergeStructs [] (parts (reachedSites items entry) items)

/-- Categories and names that are declared, in order. -/
def declared (items : List Stmt) : List (Category × String) :=
  (allSites items).map fun s => (s.category, s.name)

/-- What one item declares. -/
def declares (item : Stmt) : List (Category × String) :=
  (sites 0 item).map fun s => (s.category, s.name)

section Declared

variable {items : List Stmt} {entry : Site}

/-- What an item reaches is declared by the items. -/
theorem mem_allSites_of_reaches (hentry : entry ∈ allSites items) {s : Site}
    (h : Reaches items entry s) : s ∈ allSites items := by
  rcases Relation.ReflTransGen.cases_tail h with rfl | ⟨_, _, hlast⟩
  · exact hentry
  · exact hlast.1

/-- The reached sites are those that the entry reaches. -/
theorem mem_reachedSites_iff (hentry : entry ∈ allSites items) (s : Site) :
    s ∈ reachedSites items entry ↔ Reaches items entry s := by
  simp only [reachedSites, List.mem_filter, decide_eq_true_eq]
  exact ⟨And.right, fun h => ⟨mem_allSites_of_reaches hentry h, h⟩⟩

theorem map_blockSites {α : Type} (c : Category) (i : Nat) (name : α → String)
    (span : α → Span) (entries : List α) :
    (blockSites c i name span entries).map (fun s => (s.category, s.name)) =
      entries.map fun a => (c, name a) := by
  rw [blockSites, List.map_map]
  conv_rhs => rw [← List.zipIdx_map_fst 0 entries, List.map_map]
  rfl

theorem declared_eq_flatMap (items : List Stmt) : declared items = items.flatMap declares := by
  have hitem (i : Nat) (item : Stmt) :
      (sites i item).map (fun s => (s.category, s.name)) = declares item := by
    cases item <;> simp only [declares, sites, map_blockSites, List.map_cons, List.map_nil]
  rw [declared, allSites, List.map_flatMap]
  conv_rhs => rw [← List.zipIdx_map_fst 0 items, List.flatMap_map]
  apply List.flatMap_congr
  rintro ⟨item, i⟩ _
  exact hitem i item

theorem bySite_declares (items : List Stmt) :
    BySite items declares fun s => [(s.category, s.name)] := by
  have hblock {α : Type} (c : Category) (i : Nat) (name : α → String) (span : α → Span)
      (entries : List α) (kept : Nat → Bool) :
      (blockSites c 0 name span (keepEntries kept entries)).map
          (fun s => (s.category, s.name)) =
        ((blockSites c i name span entries).filter (staysIn kept)).flatMap
          fun s => [(s.category, s.name)] := by
    rw [map_blockSites, ← flatMap_keepEntries kept entries (fun a => [(c, name a)]) c i name
      span (fun _ _ _ => rfl), List.map_eq_flatMap]
  refine ⟨fun _ _ => rfl, fun i item _ kept => ?_⟩
  cases item with
  | inputs p vs => exact hblock _ i _ _ vs kept
  | outputs p vs => exact hblock _ i _ _ vs kept
  | externals p vs => exact hblock _ i _ _ vs kept
  | consts p ds => exact hblock _ i _ _ ds kept
  | options p ds => exact hblock _ i _ _ ds kept
  | _ => rfl

/-- The parts declare what is reached, in source order. -/
theorem declared_parts (items : List Stmt) (entry : Site) :
    declared (parts (reachedSites items entry) items) =
      (reachedSites items entry).map fun s => (s.category, s.name) := by
  rw [declared_eq_flatMap, List.map_eq_flatMap]
  exact flatMap_parts (bySite_declares items) rfl

/-- Only a structure declares the name of one. -/
theorem declares_ne_struct {item : Stmt} (h : ∀ s d, item ≠ .struct s d) (n : String) :
    (Category.struct, n) ∉ declares item := by
  cases item with
  | struct s d => exact absurd rfl (h s d)
  | _ => simp [declares, sites, map_blockSites]

/-- Merging structs loses no name that was not declared before. -/
theorem mem_declared_mergeStructs (seen : List String) (items : List Stmt) (c : Category)
    (n : String) :
    (c, n) ∈ declared (mergeStructs seen items) ↔
      (c, n) ∈ declared items ∧ ¬(c = .struct ∧ n ∈ seen) := by
  simp only [declared_eq_flatMap]
  induction items generalizing seen with
  | nil => simp [mergeStructs]
  | cons item rest ih =>
      have hother (hne : ∀ s d, item ≠ .struct s d)
          (hmerge : mergeStructs seen (item :: rest) = item :: mergeStructs seen rest) :
          (c, n) ∈ (mergeStructs seen (item :: rest)).flatMap declares ↔
            (c, n) ∈ (item :: rest).flatMap declares ∧ ¬(c = .struct ∧ n ∈ seen) := by
        rw [hmerge, List.flatMap_cons, List.flatMap_cons, List.mem_append, List.mem_append, ih]
        have hfresh : (c, n) ∈ declares item → ¬(c = .struct ∧ n ∈ seen) := by
          rintro hmem ⟨rfl, _⟩
          exact declares_ne_struct hne n hmem
        tauto
      cases item with
      | struct s d =>
          have hdecl : (c, n) ∈ declares (.struct s d) ↔ c = .struct ∧ n = d.name := by
            simp [declares, sites]
          by_cases hseen : d.name ∈ seen
          · rw [mergeStructs, if_pos hseen, List.flatMap_cons, List.mem_append, hdecl, ih]
            constructor
            · rintro ⟨hmem, hnot⟩
              exact ⟨.inr hmem, hnot⟩
            · rintro ⟨⟨rfl, rfl⟩ | hmem, hnot⟩
              · exact absurd ⟨rfl, hseen⟩ hnot
              · exact ⟨hmem, hnot⟩
          · rw [mergeStructs, if_neg hseen, List.flatMap_cons, List.flatMap_cons,
              List.mem_append, List.mem_append, hdecl, ih, List.mem_append, List.mem_singleton]
            constructor
            · rintro (⟨rfl, rfl⟩ | ⟨hmem, hnot⟩)
              · exact ⟨.inl ⟨rfl, rfl⟩, fun h => hseen h.2⟩
              · exact ⟨.inr hmem, fun h => hnot ⟨h.1, .inl h.2⟩⟩
            · rintro ⟨⟨rfl, rfl⟩ | hmem, hnot⟩
              · exact .inl ⟨rfl, rfl⟩
              · by_cases hd : c = .struct ∧ n = d.name
                · exact .inl hd
                · refine .inr ⟨hmem, ?_⟩
                  rintro ⟨hc, hn | hn⟩
                  · exact hnot ⟨hc, hn⟩
                  · exact hd ⟨hc, hn⟩
      | _ => exact hother (by simp) rfl

/-- The items of a stage declare the names of what is reached. -/
theorem mem_declared_stageItems (hentry : entry ∈ allSites items) (c : Category) (n : String) :
    (c, n) ∈ declared (stageItems items entry) ↔
      ∃ s, Reaches items entry s ∧ s.category = c ∧ s.name = n := by
  rw [stageItems, mem_declared_mergeStructs, declared_parts, List.mem_map]
  simp only [List.not_mem_nil, and_false, not_false_eq_true, and_true,
    mem_reachedSites_iff hentry, Prod.mk.injEq]

/-- What a kept declaration uses is kept, when it is declared at all. -/
theorem resolves_stageItems (hentry : entry ∈ allSites items) {s : Site}
    (hs : Reaches items entry s) (h : (siteUses items s).Resolves (allSites items)) :
    (siteUses items s).Resolves (allSites (stageItems items entry)) := by
  have hkept (t : Site) (ht : t ∈ allSites items)
      (hn : t.name ∈ (siteUses items s).namesOf t.category) :
      ∃ t' ∈ allSites (stageItems items entry),
        t'.category = t.category ∧ t'.name = t.name := by
    have hmem := (mem_declared_stageItems hentry t.category t.name).mpr
      ⟨t, hs.tail ⟨ht, hn⟩, rfl, rfl⟩
    obtain ⟨t', ht', heq⟩ := List.mem_map.mp hmem
    exact ⟨t', ht', congrArg Prod.fst heq, congrArg Prod.snd heq⟩
  refine ⟨fun n hn => ?_, fun n hn => ?_, fun n hn => ?_⟩
  · obtain ⟨t, ht, hc, rfl⟩ := h.functions n hn
    obtain ⟨t', ht', hc', hn'⟩ := hkept t ht (by rw [hc]; exact hn)
    exact ⟨t', ht', hc'.trans hc, hn'⟩
  · obtain ⟨t, ht, hc, rfl⟩ := h.structs n hn
    obtain ⟨t', ht', hc', hn'⟩ := hkept t ht (by rw [hc]; exact hn)
    exact ⟨t', ht', hc'.trans hc, hn'⟩
  · obtain ⟨t, ht, hc, rfl⟩ := h.values n hn
    have hnames : t.name ∈ (siteUses items s).namesOf t.category := by
      cases hcat : t.category with
      | function => simp [hcat, Category.isValue] at hc
      | struct => simp [hcat, Category.isValue] at hc
      | _ => exact hn
    obtain ⟨t', ht', hc', hn'⟩ := hkept t ht hnames
    exact ⟨t', ht', by rw [hc', hc], hn'⟩

end Declared

/-- The stage that starts at a site: its items and what they put in the tables. -/
noncomputable def stageFrom (items : List Stmt) (span : Span) (point : EntryPoint)
    (entry : Site) : ExtractedStage where
  stage := point.stage
  tree := .block span (stageItems items entry)
  reflection :=
    { Reflection.empty.gather (stageItems items entry) with
      entry := some ⟨point.stage, entry.name, point.workgroup⟩ }

section Built

variable {items : List Stmt} {index : DeclarationIndex} {entry : Site} {n : Nat}

/-- The keys that are found reachable are those of the reached sites. -/
theorem samePlaces_of_reachable (h : build items = .ok index)
    (hentry : (entry, ⟨.function, n⟩) ∈ keyedSites items) {keys : List Key}
    (hkeys : index.reachable n = .ok keys) :
    SamePlaces (keys.filterMap index.get?) (reachedSites items entry) := by
  have hmem := mem_reachedSites_iff (mem_allSites_of_mem_keyedSites hentry)
  intro i e
  constructor
  · rintro ⟨d, hd, hi, he⟩
    obtain ⟨k, hk, hget⟩ := List.mem_filterMap.mp hd
    obtain ⟨hd, rfl⟩ := (get?_eq_some_iff h k d).mp hget
    obtain ⟨⟨s, k⟩, hs, rfl⟩ := (mem_declarations_iff h d).mp hd
    exact ⟨s, (hmem s).mpr ((mem_reachable_iff h hentry hkeys hs).mp hk), hi, he⟩
  · rintro ⟨s, hs, hi, he⟩
    have hreach := (hmem s).mp hs
    obtain ⟨k, hk⟩ := exists_key_of_mem_allSites
      (mem_allSites_of_reaches (mem_allSites_of_mem_keyedSites hentry) hreach)
    refine ⟨declarationOf items (s, k), List.mem_filterMap.mpr ⟨k, ?_, ?_⟩, hi, he⟩
    · exact (mem_reachable_iff h hentry hkeys hk).mpr hreach
    · exact get?_of_mem_keyedSites h hk

/-- The items that pass through are the library directives. -/
theorem mem_passthrough_iff (h : build items = .ok index) :
    ∀ p ∈ items.zipIdx, p.2 ∈ index.passthrough ↔ ∃ s path, p.1 = .library s path := by
  rintro ⟨item, i⟩ hp
  have hget : items[i]? = some item := List.mem_zipIdx_iff_getElem?.mp hp
  simp only [DeclarationIndex.mem_passthrough_iff h, hget, Option.some.injEq]

/-- The candidate for a stage is an entry point of that stage. -/
theorem stage_of_candidates {stage : Stage} {point : EntryPoint}
    (h : candidates items stage = [((n, point), entry)]) : point.stage = stage := by
  have hmem : ((n, point), entry) ∈ candidates items stage := h ▸ List.mem_cons_self
  obtain ⟨⟨⟨f, s⟩, i⟩, _, hc⟩ := List.mem_filterMap.mp hmem
  cases he : f.entry with
  | none => simp [Signature.isEntryFor, he] at hc
  | some e =>
      by_cases hs : e.stage = stage
      · simp only [Signature.isEntryFor, he, hs, decide_true, if_true, Option.map_some,
          Option.some.injEq, Prod.mk.injEq] at hc
        rw [← hc.1.2, hs]
      · simp [Signature.isEntryFor, he, hs] at hc

/-- A stage is extracted exactly when it has one entry function, all names that are met
are declared, and the parts fit into the tables. -/
theorem extract_eq_ok_iff (h : build items = .ok index) (span : Span) (stage : Stage)
    (out : ExtractedStage) :
    extract ⟨items, index, span⟩ stage = .ok out ↔
      ∃ n point entry, candidates items stage = [((n, point), entry)] ∧
        (∀ t, Reaches items entry t → (siteUses items t).Resolves (allSites items)) ∧
        Reflection.empty.Fits (parts (reachedSites items entry) items) ∧
        out = stageFrom items span point entry := by
  have hrun {n : Nat} {entry : Site} (hentry : (entry, ⟨.function, n⟩) ∈ keyedSites items)
      {keys : List Key} (hkeys : index.reachable n = .ok keys) :
      emitItems index (keys.filterMap index.get?) items.zipIdx Reflection.empty =
        emitAll (parts (reachedSites items entry) items) Reflection.empty :=
    emitItems_eq_emitAll (samePlaces_of_reachable h hentry hkeys) items.zipIdx
      (mem_passthrough_iff h) Reflection.empty
  simp only [extract, Except.bind_eq_ok_iff, entryFunction_eq_ok_iff h]
  constructor
  · rintro ⟨⟨n, point⟩, ⟨entry, hone⟩, keys, hkeys, ⟨kept, r⟩, hemit, hout⟩
    have hentry : (entry, ⟨.function, n⟩) ∈ keyedSites items :=
      mem_keyedSites_of_candidates (hone ▸ List.mem_cons_self)
    rw [hrun hentry hkeys] at hemit
    obtain ⟨hfits, rfl, rfl⟩ :=
      (emitAll_eq_ok_iff Reflection.fits_empty_nil _ kept r).mp hemit
    refine ⟨n, point, entry, hone, (reachable_eq_ok_iff h hentry).mp ⟨keys, hkeys⟩, hfits, ?_⟩
    cases hout
    rw [get?_of_mem_keyedSites h hentry, stageFrom, stage_of_candidates hone]
    rfl
  · rintro ⟨n, point, entry, hone, hall, hfits, rfl⟩
    have hentry : (entry, ⟨.function, n⟩) ∈ keyedSites items :=
      mem_keyedSites_of_candidates (hone ▸ List.mem_cons_self)
    obtain ⟨keys, hkeys⟩ := (reachable_eq_ok_iff h hentry).mpr hall
    have hemit := (emitAll_eq_ok_iff Reflection.fits_empty_nil _ _ _).mpr ⟨hfits, rfl, rfl⟩
    refine ⟨(n, point), ⟨entry, hone⟩, keys, hkeys, _, (hrun hentry hkeys).trans hemit, ?_⟩
    rw [get?_of_mem_keyedSites h hentry, stageFrom, stage_of_candidates hone]
    rfl

end Built

/-- What the items of a stage hold of all items. -/
structure KeepsReached (items : List Stmt) (entry : Site) (kept : List Stmt) : Prop where
  /-- The parts of all items in source order, structs of one name merged. -/
  items_eq : kept = stageItems items entry
  declared_iff : ∀ c n, (c, n) ∈ declared kept ↔
    ∃ s, Reaches items entry s ∧ s.category = c ∧ s.name = n
  closed : ∀ s, Reaches items entry s → (siteUses items s).Resolves (allSites kept)

/-- An extracted stage keeps exactly what is reached from its entry function. -/
theorem extract_keepsReached {items : List Stmt} {index : DeclarationIndex} {span : Span}
    {stage : Stage} {out : ExtractedStage} (h : build items = .ok index)
    (hx : extract ⟨items, index, span⟩ stage = .ok out) :
    ∃ entry kept, entrySites items stage = [entry] ∧ out.tree = .block span kept ∧
      KeepsReached items entry kept := by
  obtain ⟨n, point, entry, hone, hall, _, rfl⟩ := (extract_eq_ok_iff h span stage out).mp hx
  have hentry : entry ∈ allSites items :=
    mem_allSites_of_mem_keyedSites (mem_keyedSites_of_candidates (hone ▸ List.mem_cons_self))
  refine ⟨entry, stageItems items entry,
    (exists_candidate_iff items stage entry).mp ⟨_, hone⟩, rfl, rfl, ?_, ?_⟩
  · exact mem_declared_stageItems hentry
  · intro s hs
    exact resolves_stageItems hentry hs (hall s hs)

/-- An entry function that calls itself, beside a global that nothing uses. -/
def recursiveItems : List Stmt :=
  [.var Span.dummy ⟨"unused", .prim .int, false, none⟩,
    .function Span.dummy ⟨"main", [], .void, some ⟨.fragment, none⟩⟩
      [.expr Span.dummy (.call Span.dummy "main" [])]]

/-- A function that calls itself is kept once. -/
theorem recursiveItems_keepsReached :
    ∃ index out, build recursiveItems = .ok index ∧
      extract ⟨recursiveItems, index, Span.dummy⟩ .fragment = .ok out ∧
      ∃ entry kept, entrySites recursiveItems .fragment = [entry] ∧
        out.tree = .block Span.dummy kept ∧ KeepsReached recursiveItems entry kept := by
  obtain ⟨index, hindex⟩ : ∃ index, build recursiveItems = .ok index := ⟨_, rfl⟩
  obtain ⟨out, hout⟩ : ∃ out,
      extract ⟨recursiveItems, index, Span.dummy⟩ .fragment = .ok out := by
    cases hindex
    exact ⟨_, by with_unfolding_all rfl⟩
  exact ⟨index, out, hindex, hout, extract_keepsReached hindex hout⟩

end Extractor

end Shading
