import Shading.Proofs.Extract.Alike
import Shading.Proofs.Extract.Kept
import Shading.Proofs.Options.Placed

/-!
# What a stage has for a generator

The items of a stage hold its only entry, declare something each, keep statements in functions
and put every external at a place of its own. The struct that an external is made of is among
them.
-/

namespace Shading

open Stmt (Placed Place)

/-- What a generator may count on in the items of a stage. -/
structure Presents (stage : Stage) (items : List Stmt) : Prop where
  entry : ∃ f, items.flatMap (Stmt.stageEntries stage) = [f]
  declares : ∀ item ∈ items, item.isLibrary = true ∨ Extractor.declares item ≠ []
  bodies : ∀ b f body, .function b f body ∈ items → ∀ s ∈ body, s.Placed true .body
  places : ((items.flatMap Stmt.externalEntries).map fun v => (v.set, v.binding)).Nodup
  structs : ∀ v ∈ items.flatMap Stmt.externalEntries, ∀ n, v.type.structName? = some n →
    ∃ d ∈ items.flatMap Stmt.structEntries, d.name = n

namespace Extractor

open DeclarationIndex

mutual

/-- Flattening a block keeps the places of its statements. -/
theorem placed_flatten {chosen : Bool} {place : Place} (s : Stmt)
    (hs : s.Placed chosen place) : ∀ t ∈ flatten s, t.Placed chosen place := by
  cases s with
  | block b items =>
      cases hs with
      | block hitems => exact placed_flattenList items hitems
  | _ => simpa [flatten] using hs

theorem placed_flattenList {chosen : Bool} {place : Place} (ss : List Stmt)
    (hs : ∀ s ∈ ss, s.Placed chosen place) : ∀ t ∈ flattenList ss, t.Placed chosen place := by
  cases ss with
  | nil => simp [flattenList]
  | cons s rest =>
      intro t ht
      rw [flattenList] at ht
      rcases List.mem_append.mp ht with ht | ht
      · exact placed_flatten s (hs s List.mem_cons_self) t ht
      · exact placed_flattenList rest (fun u hu => hs u (List.mem_cons_of_mem _ hu)) t ht

end

section Stage

variable {items : List Stmt} {entry : Site}

/-- An external of a stage is an entry of a block of the file that is reached itself. -/
theorem exists_site_of_external {b : Span} {vs : List ExternalVariable} {v : ExternalVariable}
    (h : .externals b vs ∈ stageItems items entry) (hv : v ∈ vs) :
    ∃ s ∈ reachedSites items entry, ∃ b' ws n, items[s.item]? = some (.externals b' ws) ∧
      s.entry = some n ∧ ws[n]? = some v := by
  obtain ⟨item, i, hget, _, hout⟩ := exists_item_of_mem_stageItems h (by simp)
  cases item with
  | externals p ws =>
      obtain ⟨_, rfl⟩ := Stmt.externals.inj hout
      obtain ⟨n, hn, hkept⟩ := (mem_keepEntries_iff _ _ _).mp hv
      obtain ⟨s, hs, hplace⟩ := List.any_eq_true.mp hkept
      rw [Bool.and_eq_true, decide_eq_true_eq, decide_eq_true_eq] at hplace
      exact ⟨s, hs, p, ws, n, by rw [hplace.1, hget], hplace.2, hn⟩
  | _ => cases hout

/-- A site of a structure belongs to one of the structures. -/
theorem exists_struct_of_mem_allSites {s : Site} (h : s ∈ allSites items)
    (hcategory : s.category = .struct) :
    ∃ d ∈ items.flatMap Stmt.structEntries, d.name = s.name := by
  have hdeclared : (s.category, s.name) ∈ declared items := List.mem_map_of_mem h
  rw [declared_eq_flatMap, hcategory] at hdeclared
  obtain ⟨item, hitem, hname⟩ := List.mem_flatMap.mp hdeclared
  by_cases hstruct : ∃ b d, item = .struct b d
  · obtain ⟨b, d, rfl⟩ := hstruct
    have heq := List.mem_singleton.mp hname
    exact ⟨d, List.mem_flatMap.mpr ⟨_, hitem, List.mem_singleton_self d⟩,
      (congrArg Prod.snd heq).symm⟩
  · exact absurd hname (declares_ne_struct (fun b d hd => hstruct ⟨b, d, hd⟩) s.name)

/-- The struct of a reached external is declared among the items of the stage. -/
theorem exists_struct_of_external (hentry : entry ∈ allSites items)
    (hall : ∀ s, Reaches items entry s → (siteUses items s).Resolves (allSites items))
    {v : ExternalVariable} (hv : v ∈ (stageItems items entry).flatMap Stmt.externalEntries)
    {n : String} (hn : v.type.structName? = some n) :
    ∃ d ∈ (stageItems items entry).flatMap Stmt.structEntries, d.name = n := by
  obtain ⟨item, hitem, hv⟩ := List.mem_flatMap.mp hv
  cases item with
  | externals b vs =>
      obtain ⟨s, hs, b', ws, k, hget, hplace, hk⟩ := exists_site_of_external hitem hv
      have hreach := (mem_reachedSites_iff hentry s).mp hs
      have huses : n ∈ (siteUses items s).namesOf .struct := by
        rw [siteUses, usesOf, hget, hplace]
        simp only [Collector.declaration, hk, Collector.typeAt]
        exact (Collector.mem_namesOf_type _ _ _ _).mpr (.inr ⟨rfl, hn⟩)
      obtain ⟨t, ht, hcategory, rfl⟩ :=
        (resolves_stageItems hentry hreach (hall s hreach)).structs n huses
      exact exists_struct_of_mem_allSites ht hcategory
  | _ => cases hv

/-- The externals of a stage ask for places that differ. -/
theorem nodup_places_stageItems
    (hfits : Reflection.empty.Fits (parts (reachedSites items entry) items)) :
    (((stageItems items entry).flatMap Stmt.externalEntries).map
      fun v => (v.set, v.binding)).Nodup := by
  rw [stageItems, flatMap_mergeStructs fun _ _ => rfl]
  exact hfits.externals

/-- A function of a stage is one of the file, as a whole. -/
theorem placed_body_stageItems (h : ∀ s ∈ items, s.Placed true .file) {b : Span} {f : Signature}
    {body : List Stmt} (hf : .function b f body ∈ stageItems items entry) :
    ∀ s ∈ body, s.Placed true .body := by
  obtain ⟨s, _, hget⟩ := exists_site_of_function hf
  have hplaced := h _ (List.mem_of_getElem? hget)
  cases hplaced with
  | function hbody => exact hbody

end Stage

/-- What is extracted from a tree with everything in its place is fit for a generator. -/
theorem presents_of_extractStage {tree : Stmt} {stage : Stage} {out : ExtractedStage}
    (hplaced : tree.Placed true .file) (hx : extractStage tree stage = .ok out) :
    Presents stage out.tree.items := by
  rw [extractStage_eq] at hx
  obtain ⟨index, hindex, hx⟩ := Except.bind_eq_ok_iff.mp hx
  obtain ⟨n, point, entry, hone, hall, hfits, rfl⟩ := (extract_eq_ok_iff hindex _ _ _).mp hx
  have hentry : entry ∈ allSites (flatten tree) :=
    mem_allSites_of_mem_keyedSites (mem_keyedSites_of_candidates (hone ▸ List.mem_cons_self))
  obtain ⟨f, _, _, hentries⟩ := stageEntries_stageItems hone
  exact {
    entry := ⟨_, hentries⟩
    declares := fun item hitem => declares_of_mem_stageItems hitem
    bodies := fun b f body hf => placed_body_stageItems (placed_flatten tree hplaced) hf
    places := nodup_places_stageItems hfits
    structs := fun v hv n hn => exists_struct_of_external hentry hall hv hn }

end Extractor

end Shading
