import Shading.Proofs.Extract.Success

/-!
# What is not reached has no say

Two files with the same declared names give the same stage as long as what the entry
function reaches in one of them is the same in both.
-/

namespace Shading

namespace Extractor

open DeclarationIndex

/-- The declaration of a site as an item of its own: a block is cut down to one entry. -/
def cut (t : Site) (item : Stmt) : Stmt := restrict (fun n => decide (t.entry = some n)) item

theorem keepEntries_single {α : Type} (entries : List α) (m : Nat) :
    keepEntries (fun n => decide (some m = some n)) entries = entries[m]?.toList := by
  have hfrom (k : Nat) :
      ((entries.zipIdx k).filter fun x => decide (some (m + k) = some x.2)).map (·.1) =
        entries[m]?.toList := by
    induction entries generalizing m k with
    | nil => rfl
    | cons a rest ih =>
        cases m with
        | zero =>
            have hlater : ((rest.zipIdx (k + 1)).filter
                fun x => decide (some (0 + k) = some x.2)) = [] := by
              rw [List.filter_eq_nil_iff]
              rintro ⟨b, i⟩ hmem
              have hle := List.le_snd_of_mem_zipIdx hmem
              simp only [decide_eq_true_eq, Option.some.injEq]
              omega
            rw [List.zipIdx_cons, List.filter_cons, hlater]
            simp
        | succ m =>
            have hshift := ih m (k + 1)
            rw [show m + (k + 1) = m + 1 + k by omega] at hshift
            rw [List.zipIdx_cons, List.filter_cons, if_neg (by simp), hshift,
              List.getElem?_cons_succ]
  exact hfrom 0

/-- What a declaration refers to is read off the declaration alone. -/
theorem declaration_cut (c : Collector) {i : Nat} {item : Stmt} {t : Site}
    (ht : t ∈ sites i item) :
    c.declaration item t.entry = c.declaration (cut t item) (t.entry.map fun _ => 0) := by
  have hblock {α : Type} {category : Category} {name : α → String} {span : α → Span}
      {entries : List α} (h : t ∈ blockSites category i name span entries) :
      ∃ m, t.entry = some m := by
    obtain ⟨⟨a, m⟩, _, rfl⟩ := List.mem_map.mp h
    exact ⟨m, rfl⟩
  cases item with
  | inputs s vs =>
      obtain ⟨m, hm⟩ := hblock ht
      simp only [cut, restrict, hm, keepEntries_single, Option.map_some, Collector.declaration]
      cases vs[m]? <;> rfl
  | outputs s vs =>
      obtain ⟨m, hm⟩ := hblock ht
      simp only [cut, restrict, hm, keepEntries_single, Option.map_some, Collector.declaration]
      cases vs[m]? <;> rfl
  | externals s vs =>
      obtain ⟨m, hm⟩ := hblock ht
      simp only [cut, restrict, hm, keepEntries_single, Option.map_some, Collector.declaration]
      cases vs[m]? <;> rfl
  | options s ds =>
      obtain ⟨m, hm⟩ := hblock ht
      simp only [cut, restrict, hm, keepEntries_single, Option.map_some, Collector.declaration]
      cases ds[m]? <;> rfl
  | consts s ds =>
      obtain ⟨m, hm⟩ := hblock ht
      simp only [cut, restrict, hm, keepEntries_single, Option.map_some, Collector.declaration]
      cases ds[m]? <;> rfl
  | _ => rfl

section Two

variable {items items' : List Stmt} {entry : Site}

/-- The functions stand at the sites of functions, in order. -/
theorem functionSites_eq_zip (items : List Stmt) :
    functionSites items =
      (functions items).zip ((allSites items).filter (·.category = .function)) := by
  rw [← map_fst_functionSites, ← map_snd_functionSites, ← List.unzip_fst, ← List.unzip_snd,
    List.zip_unzip]

/-- A declaration that refers to nothing reaches itself only. -/
theorem reaches_of_uses_empty {t : Site} (h : siteUses items entry = Dependencies.empty)
    (ht : Reaches items entry t) : t = entry := by
  induction ht with
  | refl => rfl
  | tail _ href ih =>
      rw [ih, Refers, h] at href
      have hname := href.2
      unfold Dependencies.namesOf at hname
      split at hname <;> cases hname

/-- An entry point is declared. -/
theorem mem_allSites_of_entrySites {stage : Stage} (h : entry ∈ entrySites items stage) :
    entry ∈ allSites items := by
  obtain ⟨⟨f, s⟩, hf, rfl⟩ := List.mem_map.mp h
  have hs : s ∈ (functionSites items).map (·.2) :=
    List.mem_map_of_mem (List.mem_of_mem_filter hf)
  rw [map_snd_functionSites] at hs
  exact List.mem_of_mem_filter hs

/-- Two files that declare the same, one of which is known to be extractable, and that have
all in common that is reached in it. -/
structure SameReached (items items' : List Stmt) (entry : Site) : Prop where
  sites : allSites items' = allSites items
  uses : ∀ t, Reaches items entry t → siteUses items' t = siteUses items t
  parts : parts (reachedSites items entry) items' = parts (reachedSites items entry) items

namespace SameReached

/-- Items that differ outside what is reached reach the same. -/
theorem reaches_iff (h : SameReached items items' entry) (t : Site) :
    Reaches items' entry t ↔ Reaches items entry t := by
  constructor
  · intro ht
    induction ht with
    | refl => exact .refl
    | tail _ href ih =>
        rw [Refers, h.sites, h.uses _ ih] at href
        exact ih.tail href
  · intro ht
    induction ht with
    | refl => exact .refl
    | tail hsb href ih =>
        rw [Refers, ← h.sites, ← h.uses _ hsb] at href
        exact ih.tail href

theorem reachedSites_eq (h : SameReached items items' entry) :
    reachedSites items' entry = reachedSites items entry := by
  unfold reachedSites
  rw [h.sites]
  refine List.filter_congr fun t _ => ?_
  rw [decide_eq_decide]
  exact h.reaches_iff t

theorem stageFrom_eq (h : SameReached items items' entry) (span : Span) (point : EntryPoint) :
    stageFrom items' span point entry = stageFrom items span point entry := by
  rw [stageFrom, stageFrom, stageItems, stageItems, h.reachedSites_eq, h.parts]

end SameReached

/-- Two trees give the same stage when they declare the same and have in common all that
the entry function reaches in the first one. -/
theorem extractStage_congr {tree tree' : Stmt} {stage : Stage} {out : ExtractedStage}
    (hspan : tree'.span = tree.span)
    (hwhole : unspecialized? (flatten tree') = none)
    (hfunctions : functions (flatten tree') = functions (flatten tree))
    (hsame : ∀ entry, entrySites (flatten tree) stage = [entry] →
      SameReached (flatten tree) (flatten tree') entry)
    (hx : extractStage tree stage = .ok out) : extractStage tree' stage = .ok out := by
  rw [extractStage_eq] at hx
  obtain ⟨index, hindex, hx⟩ := Except.bind_eq_ok_iff.mp hx
  obtain ⟨n, point, entry, hone, hall, hfits, rfl⟩ := (extract_eq_ok_iff hindex _ _ _).mp hx
  have hsame := hsame entry ((exists_candidate_iff _ _ _).mp ⟨_, hone⟩)
  obtain ⟨index', hindex'⟩ := build_eq_ok_iff.mpr hwhole
  have hcandidates : candidates (flatten tree') stage = candidates (flatten tree) stage := by
    rw [candidates, candidates, functionSites_eq_zip, functionSites_eq_zip, hfunctions,
      hsame.sites]
  rw [extractStage_eq, hindex', Except.ok_bind, extract_eq_ok_iff hindex']
  refine ⟨n, point, entry, hcandidates.trans hone, fun t ht => ?_, ?_, ?_⟩
  · have ht := (hsame.reaches_iff t).mp ht
    rw [hsame.uses t ht, hsame.sites]
    exact hall t ht
  · rw [hsame.reachedSites_eq, hsame.parts]
    exact hfits
  · rw [hsame.stageFrom_eq, hspan]

end Two

end Extractor

end Shading
