import Shading.Proofs.Extract.Emission
import Shading.Proofs.Extract.Entry

/-!
# The parts of reached items

The kept parts hold the reached declarations, in source order, and nothing else. What a
declaration contributes to a list over the items, such as its name or the location it
asks for, is therefore read off the reached sites.
-/

namespace Shading

namespace Extractor

open DeclarationIndex

section Places

variable {items : List Stmt} {item : Stmt} {i : Nat}

/-- A site belongs to the item at its position. -/
theorem mem_allSites_iff (items : List Stmt) (s : Site) :
    s ∈ allSites items ↔ ∃ item, items[s.item]? = some item ∧ s ∈ sites s.item item := by
  rw [allSites, List.mem_flatMap]
  constructor
  · rintro ⟨⟨item, i⟩, hp, hs⟩
    have hi : s.item = i := item_of_mem_sites hs
    exact ⟨item, by rw [hi]; exact List.mem_zipIdx_iff_getElem?.mp hp, by rw [hi]; exact hs⟩
  · rintro ⟨item, hget, hs⟩
    exact ⟨(item, s.item), List.mem_zipIdx_iff_getElem?.mpr hget, hs⟩

theorem mem_sites_of_mem_allSites {s : Site} (hitem : items[i]? = some item)
    (hs : s ∈ allSites items) (hi : s.item = i) : s ∈ sites i item := by
  obtain ⟨item', hget, hs'⟩ := (mem_allSites_iff items s).mp hs
  rw [hi, hitem] at hget
  cases hget
  rwa [hi] at hs'

/-- A declaration that is no entry of a block is the only one of its item. -/
theorem sites_of_entry_eq_none {s : Site} (hs : s ∈ sites i item) (hentry : s.entry = none) :
    sites i item = [s] := by
  have hblock {α : Type} (c : Category) (name : α → String) (span : α → Span)
      (entries : List α) : s ∉ blockSites c i name span entries := by
    intro hmem
    obtain ⟨_, _, rfl⟩ := List.mem_map.mp hmem
    cases hentry
  cases item with
  | function p f body => rw [List.mem_singleton.mp hs]; rfl
  | struct p d => rw [List.mem_singleton.mp hs]; rfl
  | var p d => rw [List.mem_singleton.mp hs]; rfl
  | inputs p vs => exact absurd hs (hblock _ _ _ _)
  | outputs p vs => exact absurd hs (hblock _ _ _ _)
  | externals p vs => exact absurd hs (hblock _ _ _ _)
  | consts p ds => exact absurd hs (hblock _ _ _ _)
  | options p ds => exact absurd hs (hblock _ _ _ _)
  | _ => cases hs

end Places

/-- An item is kept in part where a site in it is reached. -/
theorem part?_of_ne_library (reached : List Site) {item : Stmt} (i : Nat)
    (hlib : ∀ s path, item ≠ .library s path) :
    part? reached item i = if reached.any (·.item = i) then
      some (restrict (fun n => reached.any fun s => s.item = i && s.entry = some n) item)
      else none := by
  cases item with
  | library s path => exact absurd rfl (hlib s path)
  | _ => rfl

/-- Whether a declaration stays in an item that is cut down to the kept entries. -/
def staysIn (kept : Nat → Bool) (s : Site) : Bool :=
  match s.entry with
  | none => true
  | some n => kept n

section Flat

variable {β : Type} {items : List Stmt} {f : Stmt → List β} {g : Site → List β}

/-- What an item contributes comes from its declarations, entry by entry. -/
structure BySite (items : List Stmt) (f : Stmt → List β) (g : Site → List β) : Prop where
  library : ∀ s path, f (.library s path) = []
  restrict : ∀ (i : Nat) (item : Stmt), items[i]? = some item →
    ∀ kept, f (restrict kept item) = ((sites i item).filter (staysIn kept)).flatMap g

/-- The kept entries of a block, read through their sites. -/
theorem flatMap_keepEntries {α : Type} (kept : Nat → Bool) (entries : List α) (h : α → List β)
    (c : Category) (i : Nat) (name : α → String) (span : α → Span)
    (hg : ∀ a n, entries[n]? = some a → g ⟨c, name a, i, some n, span a⟩ = h a) :
    (keepEntries kept entries).flatMap h =
      ((blockSites c i name span entries).filter (staysIn kept)).flatMap g := by
  rw [keepEntries, blockSites, List.filter_map, List.flatMap_map, List.flatMap_map]
  apply List.flatMap_congr
  rintro ⟨a, n⟩ hp
  have hget := List.mem_zipIdx_iff_getElem?.mp (List.mem_of_mem_filter hp)
  exact (hg a n hget).symm

variable {reached : List Site} {keeps : Site → Bool}

/-- A site stays where it is among the reached ones. -/
theorem staysIn_eq (hreached : reached = (allSites items).filter keeps) {i : Nat} {item : Stmt}
    (hitem : items[i]? = some item) (hany : reached.any (·.item = i) = true) {s : Site}
    (hs : s ∈ sites i item) :
    staysIn (fun n => reached.any fun t => t.item = i && t.entry = some n) s = keeps s := by
  have hin : s ∈ allSites items := by
    rw [mem_allSites_iff, item_of_mem_sites hs]
    exact ⟨item, hitem, hs⟩
  have hmem (t : Site) : t ∈ reached ↔ t ∈ allSites items ∧ keeps t = true := by
    rw [hreached, List.mem_filter]
  cases hentry : s.entry with
  | none =>
      obtain ⟨t, ht, hti⟩ := List.any_eq_true.mp hany
      have hone := sites_of_entry_eq_none hs hentry
      have htin := mem_sites_of_mem_allSites hitem ((hmem t).mp ht).1 (of_decide_eq_true hti)
      rw [hone, List.mem_singleton] at htin
      rw [staysIn, hentry, ← htin, ((hmem t).mp ht).2]
  | some n =>
      rw [staysIn, hentry, Bool.eq_iff_iff, List.any_eq_true]
      constructor
      · rintro ⟨t, ht, hplace⟩
        rw [Bool.and_eq_true, decide_eq_true_eq, decide_eq_true_eq] at hplace
        have heq : s = t := eq_of_place_eq hin ((hmem t).mp ht).1
          ((item_of_mem_sites hs).trans hplace.1.symm) (hentry.trans hplace.2.symm)
        rw [heq]
        exact ((hmem t).mp ht).2
      · intro hkeeps
        refine ⟨s, (hmem s).mpr ⟨hin, hkeeps⟩, ?_⟩
        simp [item_of_mem_sites hs, hentry]

/-- What the parts of the items contribute is what the reached sites contribute. -/
theorem flatMap_parts (hfg : BySite items f g)
    (hreached : reached = (allSites items).filter keeps) :
    (parts reached items).flatMap f = reached.flatMap g := by
  have hone : ∀ p ∈ items.zipIdx, (part? reached p.1 p.2).toList.flatMap f =
      ((sites p.2 p.1).filter keeps).flatMap g := by
    rintro ⟨item, i⟩ hp
    have hitem : items[i]? = some item := List.mem_zipIdx_iff_getElem?.mp hp
    have hcut (hlib : ∀ s path, item ≠ .library s path) :
        (part? reached item i).toList.flatMap f = ((sites i item).filter keeps).flatMap g := by
      rw [part?_of_ne_library reached i hlib]
      cases hany : reached.any (·.item = i) with
      | true =>
          rw [if_pos rfl, Option.toList_some, List.flatMap_singleton,
            hfg.restrict i item hitem]
          congr 1
          apply List.filter_congr
          intro s hs
          exact staysIn_eq hreached hitem hany hs
      | false =>
          have hnone : (sites i item).filter keeps = [] := by
            rw [List.filter_eq_nil_iff]
            intro s hs hkeeps
            have hin : s ∈ reached := by
              rw [hreached, List.mem_filter, mem_allSites_iff, item_of_mem_sites hs]
              exact ⟨⟨item, hitem, hs⟩, hkeeps⟩
            have hitem' := List.any_eq_false.mp hany s hin
            simp [item_of_mem_sites hs] at hitem'
          simp [hnone]
    cases item with
    | library s path => simp [part?, sites, hfg.library]
    | _ => exact hcut (by simp)
  have hsplit : reached.flatMap g =
      items.zipIdx.flatMap fun p => ((sites p.2 p.1).filter keeps).flatMap g := by
    rw [hreached, allSites, List.filter_flatMap, List.flatMap_assoc]
  rw [hsplit, parts, List.filterMap_eq_flatMap_toList, List.flatMap_assoc]
  exact List.flatMap_congr hone

end Flat

section Emitting

variable {index : DeclarationIndex} {declarations : List Declaration} {reached : List Site}

/-- Declarations stand at the places of sites. -/
def SamePlaces (declarations : List Declaration) (reached : List Site) : Prop :=
  ∀ i e, (∃ d ∈ declarations, d.item = i ∧ d.entry = e) ↔
    ∃ s ∈ reached, s.item = i ∧ s.entry = e

/-- An item has declarations to keep where a site in it is reached. -/
theorem isEmpty_filter_item (h : SamePlaces declarations reached) (i : Nat) :
    (declarations.filter (·.item = i)).isEmpty = !reached.any (·.item = i) := by
  rw [Bool.eq_iff_iff, List.isEmpty_iff, List.filter_eq_nil_iff, Bool.not_eq_true',
    List.any_eq_false]
  simp only [decide_eq_true_eq]
  constructor
  · intro hnone s hs hi
    obtain ⟨d, hd, hdi, _⟩ := (h i s.entry).mpr ⟨s, hs, hi, rfl⟩
    exact hnone d hd hdi
  · intro hnone d hd hi
    obtain ⟨s, hs, hsi, _⟩ := (h i d.entry).mp ⟨d, hd, hi, rfl⟩
    exact hnone s hs hsi

theorem any_entry_filter_item (h : SamePlaces declarations reached) (i n : Nat) :
    (declarations.filter (·.item = i)).any (·.entry = some n) =
      reached.any fun s => s.item = i && s.entry = some n := by
  rw [List.any_filter, Bool.eq_iff_iff, List.any_eq_true, List.any_eq_true]
  simpa only [Bool.and_eq_true, decide_eq_true_eq] using h i (some n)

/-- The items of a stage are emitted as their parts. -/
theorem emitItems_eq_emitAll (h : SamePlaces declarations reached) (l : List (Stmt × Nat))
    (hlib : ∀ p ∈ l, p.2 ∈ index.passthrough ↔ ∃ s path, p.1 = .library s path)
    (r : Reflection) :
    emitItems index declarations l r =
      emitAll (l.filterMap fun p => part? reached p.1 p.2) r := by
  induction l generalizing r with
  | nil => rfl
  | cons p rest ih =>
      obtain ⟨item, i⟩ := p
      have hrest := ih fun p hp => hlib p (List.mem_cons_of_mem _ hp)
      have hhead := hlib (item, i) List.mem_cons_self
      by_cases hpass : i ∈ index.passthrough
      · obtain ⟨s, path, rfl⟩ := hhead.mp hpass
        have hpart : part? reached (.library s path) i = some (.library s path) := rfl
        simp only [emitItems, hpass, if_true, hrest, List.filterMap_cons, hpart, emitAll, emit,
          Stmt.copy_eq, Except.ok_bind]
        rfl
      · have hpart := part?_of_ne_library reached i fun s path heq =>
          hpass (hhead.mpr ⟨s, path, heq⟩)
        simp only [emitItems, hpass, if_false, isEmpty_filter_item h, any_entry_filter_item h,
          List.filterMap_cons, hpart, hrest]
        cases reached.any (·.item = i) with
        | false => rfl
        | true =>
            simp only [Bool.not_true, Bool.false_eq_true, if_false, if_true, emitAll]
            rw [emit_eq_emit_restrict]

end Emitting

end Extractor

end Shading
