import Shading.Proofs.Extract.Interface
import Shading.Proofs.Extract.Texts
import Shading.Proofs.Options.Chosen

/-!
# Extracting an extracted stage

The items of a stage declare what its entry function reaches, and from them all of this is
reached again: a declaration refers to the same names wherever it stands. So the tree of a
stage is extracted as a whole.
-/

namespace Shading

namespace Stmt

/-- The declarations of an item, without their places. -/
def texts : Stmt → List Stmt
  | .inputs _ vs => vs.map fun v => .inputs .dummy [v.erased]
  | .outputs _ vs => vs.map fun v => .outputs .dummy [v.erased]
  | .externals _ vs => vs.map fun v => .externals .dummy [v.erased]
  | .consts _ ds => ds.map fun d => .consts .dummy [d.erased]
  | .options _ ds => ds.map fun d => .options .dummy [d.erased]
  | .function p f body => [(function p f body).eraseSpans]
  | .struct p d => [(struct p d).eraseSpans]
  | .var p d => [(var p d).eraseSpans]
  | _ => []

end Stmt

namespace Extractor

open DeclarationIndex

section Merge

/-- Structures that were merged stay as they are. -/
theorem mergeStructs_mergeStructs (seen : List String) (items : List Stmt) :
    mergeStructs seen (mergeStructs seen items) = mergeStructs seen items := by
  induction items generalizing seen with
  | nil => rfl
  | cons item rest ih =>
      cases item with
      | struct p d =>
          by_cases hseen : d.name ∈ seen
          · rw [mergeStructs, if_pos hseen, ih]
          · rw [mergeStructs, if_neg hseen, mergeStructs, if_neg hseen, ih]
      | _ => exact congrArg (List.cons _) (ih seen)

/-- Of structs that agree when their names do, merging leaves one of each. -/
theorem mem_texts_mergeStructs {seen : List String} {items : List Stmt}
    (hagree : ∀ d ∈ items.flatMap Stmt.structEntries, ∀ d' ∈ items.flatMap Stmt.structEntries,
      d.name = d'.name → d = d')
    {text : Stmt} (h : text ∈ items.flatMap Stmt.texts) :
    text ∈ (mergeStructs seen items).flatMap Stmt.texts ∨
      ∃ d ∈ items.flatMap Stmt.structEntries, text = .struct .dummy d ∧ d.name ∈ seen := by
  induction items generalizing seen with
  | nil => cases h
  | cons item rest ih =>
      rw [List.flatMap_cons, List.mem_append] at h
      have hrest (d : StructDeclaration) (hd : d ∈ rest.flatMap Stmt.structEntries) :
          d ∈ (item :: rest).flatMap Stmt.structEntries := by
        rw [List.flatMap_cons]
        exact List.mem_append_right _ hd
      have hagree' : ∀ d ∈ rest.flatMap Stmt.structEntries,
          ∀ d' ∈ rest.flatMap Stmt.structEntries, d.name = d'.name → d = d' :=
        fun d hd d' hd' => hagree d (hrest d hd) d' (hrest d' hd')
      have hother (hmerge : mergeStructs seen (item :: rest) = item :: mergeStructs seen rest) :
          text ∈ (mergeStructs seen (item :: rest)).flatMap Stmt.texts ∨
            ∃ d ∈ (item :: rest).flatMap Stmt.structEntries,
              text = .struct .dummy d ∧ d.name ∈ seen := by
        rw [hmerge, List.flatMap_cons, List.mem_append]
        rcases h with hitem | h
        · exact .inl (.inl hitem)
        · exact (ih hagree' h).elim (fun hin => .inl (.inr hin)) fun ⟨d, hd, ht⟩ =>
            .inr ⟨d, hrest d hd, ht⟩
      cases item with
      | struct p e =>
          have he : e ∈ (Stmt.struct p e :: rest).flatMap Stmt.structEntries :=
            List.mem_cons_self
          rw [Stmt.texts, Stmt.erased_struct, List.mem_singleton] at h
          by_cases hseen : e.name ∈ seen
          · rw [mergeStructs, if_pos hseen]
            rcases h with rfl | h
            · exact .inr ⟨e, he, rfl, hseen⟩
            · exact (ih hagree' h).imp_right fun ⟨d, hd, ht⟩ => ⟨d, hrest d hd, ht⟩
          · rw [mergeStructs, if_neg hseen, List.flatMap_cons, List.mem_append, Stmt.texts,
              Stmt.erased_struct, List.mem_singleton]
            rcases h with rfl | h
            · exact .inl (.inl rfl)
            · rcases @ih (seen ++ [e.name]) hagree' h with hin | ⟨d, hd, rfl, hname⟩
              · exact .inl (.inr hin)
              · rcases List.mem_append.mp hname with hname | hname
                · exact .inr ⟨d, hrest d hd, rfl, hname⟩
                · rw [hagree d (hrest d hd) e he (List.mem_singleton.mp hname)]
                  exact .inl (.inl rfl)
      | _ => exact hother rfl

/-- What fits into the tables does so when structs of one name are merged. -/
theorem fits_mergeStructs {r : Reflection} {items : List Stmt} (h : r.Fits items)
    (seen : List String) : r.Fits (mergeStructs seen items) := by
  have hsub {d : StructDeclaration}
      (hd : d ∈ r.structs ++ (mergeStructs seen items).flatMap Stmt.structEntries) :
      d ∈ r.structs ++ items.flatMap Stmt.structEntries := by
    refine (List.mem_append.mp hd).elim (List.mem_append_left _) fun hd => ?_
    obtain ⟨item, hitem, hd⟩ := List.mem_flatMap.mp hd
    exact List.mem_append_right _ (List.mem_flatMap.mpr ⟨item, mem_of_mem_mergeStructs hitem, hd⟩)
  refine ⟨?_, ?_, ?_, fun d hd d' hd' => h.structs d (hsub hd) d' (hsub hd')⟩
  · rw [flatMap_mergeStructs fun _ _ => rfl]
    exact h.inputs
  · rw [flatMap_mergeStructs fun _ _ => rfl]
    exact h.outputs
  · rw [flatMap_mergeStructs fun _ _ => rfl]
    exact h.externals

end Merge

section Whole

variable {items : List Stmt}

theorem flattenList_of_not_block (h : ∀ item ∈ items, item.isBlock = false) :
    flattenList items = items := by
  induction items with
  | nil => rfl
  | cons item rest ih =>
      rw [flattenList, flatten_of_not_block (h item List.mem_cons_self),
        ih fun s hs => h s (List.mem_cons_of_mem _ hs)]
      rfl

/-- An item stays whole where every site in it stays. -/
theorem restrict_eq_self {kept : Nat → Bool} {i : Nat} {item : Stmt}
    (h : ∀ s ∈ sites i item, staysIn kept s = true) : restrict kept item = item := by
  have hblock {α : Type} {c : Category} {name : α → String} {span : α → Span} {entries : List α}
      (h : ∀ s ∈ blockSites c i name span entries, staysIn kept s = true) :
      keepEntries kept entries = entries := by
    conv_rhs => rw [← keepEntries_true entries]
    refine congrArg (List.map _) (List.filter_congr fun p hp => ?_)
    exact h _ (List.mem_map_of_mem hp)
  cases item with
  | inputs p vs => rw [restrict, hblock h]
  | outputs p vs => rw [restrict, hblock h]
  | externals p vs => rw [restrict, hblock h]
  | consts p ds => rw [restrict, hblock h]
  | options p ds => rw [restrict, hblock h]
  | _ => rfl

/-- When every declaration is reached, all items are kept as they are. -/
theorem parts_allSites (h : ∀ item ∈ items, item.isLibrary = true ∨ declares item ≠ []) :
    parts (allSites items) items = items := by
  have hpart : ∀ p ∈ items.zipIdx, part? (allSites items) p.1 p.2 = some p.1 := by
    rintro ⟨item, i⟩ hp
    have hget : items[i]? = some item := List.mem_zipIdx_iff_getElem?.mp hp
    by_cases hlib : ∃ s path, item = .library s path
    · obtain ⟨s, path, rfl⟩ := hlib
      rfl
    · have hdeclares : declares item ≠ [] := by
        refine (h item (List.mem_of_getElem? hget)).resolve_left fun hlibrary => hlib ?_
        cases item with
        | library s path => exact ⟨s, path, rfl⟩
        | _ => cases hlibrary
      have hall := (bySite_declares items).restrict i item hget fun _ => true
      obtain ⟨s, hs⟩ : ∃ s, s ∈ sites i item := List.exists_mem_of_ne_nil _ fun hnone =>
        hdeclares (by rw [← restrict_true item, hall, hnone]; rfl)
      have hany : (allSites items).any (·.item = i) = true := by
        have hi := item_of_mem_sites hs
        refine List.any_eq_true.mpr ⟨s, (mem_allSites_iff items s).mpr ?_, decide_eq_true hi⟩
        exact ⟨item, by rw [hi]; exact hget, by rw [hi]; exact hs⟩
      rw [part?_of_ne_library _ _ fun s path heq => hlib ⟨s, path, heq⟩, if_pos hany]
      refine congrArg some (restrict_eq_self (i := i) fun s hs => ?_)
      have hsites : allSites items = (allSites items).filter fun _ => true :=
        (List.filter_true _).symm
      exact staysIn_eq hsites hget hany hs
  rw [parts, List.filterMap_congr hpart, List.filterMap_eq_map', List.zipIdx_map_fst]

end Whole

section Texts

/-- The texts of items are read off their sites. -/
theorem bySite_texts (items : List Stmt) :
    BySite items Stmt.texts fun s => (textAt items s).toList := by
  refine ⟨fun _ _ => rfl, fun i item hget kept => ?_⟩
  have hblock {α : Type} (c : Category) (name : α → String) (span : α → Span)
      (entries : List α) (f : α → Stmt)
      (hf : ∀ a n, entries[n]? = some a →
        (restrict (fun m => decide (some n = some m)) item).eraseSpans = f a) :
      (keepEntries kept entries).map f =
        ((blockSites c i name span entries).filter (staysIn kept)).flatMap fun s =>
          (textAt items s).toList := by
    rw [← flatMap_keepEntries kept entries (fun a => [f a]) c i name span, List.map_eq_flatMap]
    intro a n ha
    rw [textAt, hget, Option.map_some, cut, hf a n ha]
    rfl
  have hwhole (s : Site) (hi : s.item = i) (hcut : cut s item = item) :
      (textAt items s).toList ++ [] = [item.eraseSpans] := by
    rw [textAt, hi, hget, Option.map_some, hcut]
    rfl
  cases item with
  | inputs p vs =>
      exact hblock .input _ _ vs _ fun v n hv => by
        rw [restrict, keepEntries_single, hv, Stmt.erased_inputs]; rfl
  | outputs p vs =>
      exact hblock .output _ _ vs _ fun v n hv => by
        rw [restrict, keepEntries_single, hv, Stmt.erased_outputs]; rfl
  | externals p vs =>
      exact hblock .external _ _ vs _ fun v n hv => by
        rw [restrict, keepEntries_single, hv, Stmt.erased_externals]; rfl
  | consts p ds =>
      exact hblock .const _ _ ds _ fun d n hd => by
        rw [restrict, keepEntries_single, hd, Stmt.erased_consts]; rfl
  | options p ds =>
      exact hblock .option _ _ ds _ fun d n hd => by
        rw [restrict, keepEntries_single, hd, Stmt.erased_options]; rfl
  | function p f body => exact (hwhole ⟨.function, f.name, i, none, p⟩ rfl rfl).symm
  | struct p d => exact (hwhole ⟨.struct, d.name, i, none, p⟩ rfl rfl).symm
  | var p d => exact (hwhole ⟨.global, d.name, i, none, p⟩ rfl rfl).symm
  | _ => rfl

/-- A text belongs to an item where a site of it has that text. -/
theorem mem_texts_iff (items : List Stmt) (text : Stmt) :
    text ∈ items.flatMap Stmt.texts ↔ ∃ s ∈ allSites items, textAt items s = some text := by
  rw [← flatMap_allSites (bySite_texts items)]
  simp only [List.mem_flatMap, Option.mem_toList]

/-- The texts of the parts are those of the reached sites. -/
theorem mem_texts_parts_iff {items : List Stmt} {entry : Site} (hentry : entry ∈ allSites items)
    (text : Stmt) :
    text ∈ (parts (reachedSites items entry) items).flatMap Stmt.texts ↔
      ∃ s, Reaches items entry s ∧ textAt items s = some text := by
  have hparts : (parts (reachedSites items entry) items).flatMap Stmt.texts =
      (reachedSites items entry).flatMap fun s => (textAt items s).toList :=
    flatMap_parts (bySite_texts items) rfl
  simp only [hparts, List.mem_flatMap, Option.mem_toList,
    mem_reachedSites_iff hentry]

end Texts

section Again

variable {items : List Stmt} {stage : Stage} {entry : Site}

/-- A declaration of a stage is one that is reached. -/
theorem exists_reached_of_mem_stageItems (hentry : entry ∈ allSites items) {s' : Site}
    (hs' : s' ∈ allSites (stageItems items entry)) :
    ∃ s, Reaches items entry s ∧ textAt (stageItems items entry) s' = textAt items s := by
  obtain ⟨item, _, _, htext⟩ := textAt_of_mem_allSites hs'
  obtain ⟨part, hpart, hin⟩ := List.mem_flatMap.mp ((mem_texts_iff _ _).mpr ⟨s', hs', htext⟩)
  obtain ⟨s, hs, hsame⟩ := (mem_texts_parts_iff hentry _).mp
    (List.mem_flatMap.mpr ⟨part, mem_of_mem_mergeStructs hpart, hin⟩)
  exact ⟨s, hs, htext.trans hsame.symm⟩

/-- What is reached is declared in the stage. -/
theorem exists_mem_stageItems_of_reached (hentry : entry ∈ allSites items)
    (hfits : Reflection.empty.Fits (parts (reachedSites items entry) items)) {s : Site}
    (hs : Reaches items entry s) :
    ∃ s' ∈ allSites (stageItems items entry),
      textAt (stageItems items entry) s' = textAt items s := by
  obtain ⟨item, _, _, htext⟩ := textAt_of_mem_allSites (mem_allSites_of_reaches hentry hs)
  have hkept : (cut s item).eraseSpans ∈ (stageItems items entry).flatMap Stmt.texts :=
    (mem_texts_mergeStructs hfits.structs
      ((mem_texts_parts_iff hentry _).mpr ⟨s, hs, htext⟩)).resolve_right
        fun ⟨_, _, _, hseen⟩ => by cases hseen
  obtain ⟨s', hs', hsame⟩ := (mem_texts_iff _ _).mp hkept
  exact ⟨s', hs', hsame.trans htext.symm⟩

/-- The items of a stage have the entry function that it was extracted from. -/
theorem candidates_stageItems {n : Nat} {point : EntryPoint}
    (hone : candidates items stage = [((n, point), entry)]) :
    ∃ n' entry', candidates (stageItems items entry) stage = [((n', point), entry')] ∧
      entry'.name = entry.name := by
  obtain ⟨f, hname, hpoint, hentries⟩ := stageEntries_stageItems hone
  have hsites := hentries
  rw [flatMap_stageEntries] at hsites
  obtain ⟨p, hp, _⟩ := List.map_eq_singleton_iff.mp hsites
  have hentry' : entrySites (stageItems items entry) stage = [p.2] := by
    rw [entrySites, hp, List.map_singleton]
  obtain ⟨⟨n', point'⟩, hone'⟩ := (exists_candidate_iff _ _ _).mpr hentry'
  obtain ⟨f', body, hget, hname', hpoint', hstage⟩ :=
    function_of_candidates (hone' ▸ List.mem_cons_self)
  have hmem : (f', p.2.span) ∈ (stageItems items entry).flatMap (Stmt.stageEntries stage) :=
    List.mem_flatMap.mpr ⟨_, List.mem_of_getElem? hget, by simp [Stmt.stageEntries, hstage]⟩
  rw [hentries, List.mem_singleton, Prod.mk.injEq] at hmem
  obtain ⟨rfl, _⟩ := hmem
  obtain rfl := Option.some.inj (hpoint.symm.trans hpoint')
  exact ⟨n', p.2, hone', hname'.symm.trans hname⟩

/-- From the entry function of a stage everything that the stage declares is reached. -/
theorem reachedSites_stageItems {n : Nat} {point : EntryPoint}
    (hone : candidates items stage = [((n, point), entry)])
    (hfits : Reflection.empty.Fits (parts (reachedSites items entry) items)) {entry' : Site}
    (hentry' : entrySites (stageItems items entry) stage = [entry']) :
    reachedSites (stageItems items entry) entry' = allSites (stageItems items entry) := by
  have hentry : entry ∈ entrySites items stage := by
    rw [(exists_candidate_iff _ _ _).mp ⟨_, hone⟩]
    exact List.mem_singleton_self _
  have hin := mem_allSites_of_entrySites hentry
  have hin' : entry' ∈ allSites (stageItems items entry) :=
    mem_allSites_of_entrySites (hentry' ▸ List.mem_singleton_self _)
  have hstart (s' : Site) (hs' : s' ∈ allSites (stageItems items entry))
      (hsame : textAt (stageItems items entry) s' = textAt items entry) : s' = entry' := by
    have hs' := mem_entrySites_of_textAt hentry hs' hsame
    rw [hentry'] at hs'
    exact List.mem_singleton.mp hs'
  have hall (t' : Site) (ht' : t' ∈ allSites (stageItems items entry)) :
      Reaches (stageItems items entry) entry' t' := by
    obtain ⟨t, ht, htext⟩ := exists_reached_of_mem_stageItems hin ht'
    exact reaches_of_textAt hin (fun _ => exists_mem_stageItems_of_reached hin hfits) hstart ht
      ht' htext
  exact List.filter_eq_self.mpr fun t' ht' =>
    (List.mem_filter.mp ((mem_reachedSites_iff hin' t').mpr (hall t' ht'))).2

/-- The items of a stage are flat. -/
theorem flattenList_stageItems (items : List Stmt) (entry : Site) :
    flattenList (stageItems items entry) = stageItems items entry := by
  refine flattenList_of_not_block fun item hitem => ?_
  have hdeclares := declares_of_mem_stageItems hitem
  cases item with
  | block p ss => exact absurd rfl (hdeclares.resolve_left (by simp [Stmt.isLibrary]))
  | _ => rfl

/-- No optional block is among the items of a stage. -/
theorem unspecialized?_stageItems (items : List Stmt) (entry : Site) :
    unspecialized? (stageItems items entry) = none :=
  (unspecialized?_eq_none_iff _).mpr fun _ _ _ _ hitem =>
    absurd rfl ((declares_of_mem_stageItems hitem).resolve_left (by simp [Stmt.isLibrary]))

/-- The tree of a stage gives the same stage, places included. -/
theorem extractStage_idempotent {tree : Stmt} {stage : Stage} {out : ExtractedStage}
    (hx : extractStage tree stage = .ok out) : extractStage out.tree stage = .ok out := by
  rw [extractStage_eq] at hx
  obtain ⟨index, hindex, hx⟩ := Except.bind_eq_ok_iff.mp hx
  obtain ⟨n, point, entry, hone, hall, hfits, rfl⟩ := (extract_eq_ok_iff hindex _ _ _).mp hx
  have hentry : entry ∈ allSites (flatten tree) :=
    mem_allSites_of_mem_keyedSites (mem_keyedSites_of_candidates (hone ▸ List.mem_cons_self))
  obtain ⟨n', entry', hone', hname⟩ := candidates_stageItems hone
  have hreached := reachedSites_stageItems hone hfits ((exists_candidate_iff _ _ _).mp ⟨_, hone'⟩)
  obtain ⟨index', hindex'⟩ := build_eq_ok_iff.mpr (unspecialized?_stageItems (flatten tree) entry)
  have hflat : flatten (stageFrom (flatten tree) tree.span point entry).tree =
      stageItems (flatten tree) entry := flattenList_stageItems (flatten tree) entry
  rw [extractStage_eq, hflat, hindex', Except.ok_bind, extract_eq_ok_iff hindex']
  have hparts := parts_allSites fun item (h : item ∈ stageItems (flatten tree) entry) =>
    declares_of_mem_stageItems h
  refine ⟨n', point, entry', hone', fun t' ht' => ?_, ?_, ?_⟩
  · have hentry' := mem_allSites_of_mem_keyedSites
      (mem_keyedSites_of_candidates (hone' ▸ List.mem_cons_self))
    have hin := mem_allSites_of_reaches hentry' ht'
    obtain ⟨t, ht, htext⟩ := exists_reached_of_mem_stageItems hentry hin
    exact resolves_of_textAt (mem_allSites_of_reaches hentry ht) hin htext
      (resolves_stageItems hentry ht (hall t ht))
  · rw [hreached, hparts]
    exact fits_mergeStructs hfits []
  · have hagain : stageItems (stageItems (flatten tree) entry) entry' =
        stageItems (flatten tree) entry := by
      rw [stageItems, hreached, hparts]
      exact mergeStructs_mergeStructs [] _
    rw [stageFrom, stageFrom, hagain, hname]
    rfl

/-- An unused item is dropped once, and extracting again drops nothing. -/
theorem splitTree_idempotent :
    ∃ out, extractStage splitTree .fragment = .ok out ∧
      out.tree.items.length < splitTree.items.length ∧
      extractStage out.tree .fragment = .ok out := by
  obtain ⟨out, hx, hfewer⟩ : ∃ out, extractStage splitTree .fragment = .ok out ∧
      out.tree.items.length < splitTree.items.length :=
    ⟨_, by with_unfolding_all rfl, by decide⟩
  exact ⟨out, hx, hfewer, extractStage_idempotent hx⟩

end Again

end Extractor

end Shading
