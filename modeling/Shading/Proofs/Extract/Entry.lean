import Shading.Extract.Stage
import Shading.Proofs.Extract.Reaches

/-!
# The entry function and what it reaches

A stage starts at the only function that is an entry of the stage. The keys found from
it are the keys of the declarations that its site reaches.
-/

namespace Shading

namespace DeclarationIndex

/-- The functions of a file with their sites. -/
def functionSites (items : List Stmt) : List (Signature × Site) :=
  items.zipIdx.filterMap fun
    | (.function p f _, i) => some (f, ⟨.function, f.name, i, none, p⟩)
    | _ => none

/-- The sites of the functions that are an entry of the stage. -/
def entrySites (items : List Stmt) (stage : Stage) : List Site :=
  ((functionSites items).filter fun p => p.1.isEntryFor stage).map (·.2)

/-- The entry points of a stage by number, each with its site. -/
def candidates (items : List Stmt) (stage : Stage) : List ((Nat × EntryPoint) × Site) :=
  (functionSites items).zipIdx.filterMap fun (p, i) =>
    if p.1.isEntryFor stage then p.1.entry.map fun e => ((i, e), p.2) else none

/-- The functions with their sites are the functions, in order. -/
theorem map_fst_functionSites (items : List Stmt) :
    (functionSites items).map (·.1) = functions items := by
  rw [functionSites, functions, List.map_filterMap]
  conv_rhs => rw [← List.zipIdx_map_fst 0 items, List.filterMap_map]
  apply List.filterMap_congr
  rintro ⟨stmt, i⟩ _
  cases stmt <;> rfl

theorem map_snd_functionSites (items : List Stmt) :
    (functionSites items).map (·.2) = (allSites items).filter (·.category = .function) := by
  rw [functionSites, allSites, List.filter_flatMap, List.map_filterMap,
    List.filterMap_eq_flatMap_toList]
  apply List.flatMap_congr
  rintro ⟨stmt, i⟩ _
  cases stmt <;> simp [sites, filter_blockSites_of_ne]

/-- A function has the key of its number among the functions. -/
theorem mem_keyedSites_of_functionSites {items : List Stmt} {p : Signature × Site} {i : Nat}
    (h : (functionSites items)[i]? = some p) : (p.2, ⟨.function, i⟩) ∈ keyedSites items := by
  apply mem_keyedSites_of_getElem?
  rw [← map_snd_functionSites, List.getElem?_map, h]
  rfl

theorem mem_keyedSites_of_candidates {items : List Stmt} {stage : Stage}
    {c : (Nat × EntryPoint) × Site} (h : c ∈ candidates items stage) :
    (c.2, ⟨.function, c.1.1⟩) ∈ keyedSites items := by
  obtain ⟨⟨p, i⟩, hp, hc⟩ := List.mem_filterMap.mp h
  have hget : (functionSites items)[i]? = some p := List.mem_zipIdx_iff_getElem?.mp hp
  dsimp only at hc
  split at hc
  · obtain ⟨e, _, rfl⟩ := Option.map_eq_some_iff.mp hc
    exact mem_keyedSites_of_functionSites hget
  · cases hc

/-- The candidates stand at the sites of the entry points of the stage. -/
theorem map_snd_candidates (items : List Stmt) (stage : Stage) :
    (candidates items stage).map (·.2) = entrySites items stage := by
  rw [candidates, entrySites, List.map_filterMap, ← List.filterMap_eq_map,
    ← List.filterMap_eq_filter, List.filterMap_filterMap]
  conv_rhs => rw [← List.zipIdx_map_fst 0 (functionSites items), List.filterMap_map]
  apply List.filterMap_congr
  rintro ⟨⟨f, s⟩, i⟩ _
  cases he : f.entry with
  | none => simp [Signature.isEntryFor, he, Option.guard]
  | some e => by_cases hs : e.stage = stage <;> simp [Signature.isEntryFor, he, hs, Option.guard]

section Built

variable {items : List Stmt} {index : DeclarationIndex} {stage : Stage}

/-- The candidates are the entry points that the index lists for the stage. -/
theorem map_fst_candidates (h : build items = .ok index) :
    (candidates items stage).map (·.1) = index.entryPoints.filter (·.2.stage = stage) := by
  rw [entryPoints_of_build h, candidates, List.map_filterMap, ← map_fst_functionSites,
    List.zipIdx_map, List.filterMap_map, ← List.filterMap_eq_filter, List.filterMap_filterMap]
  apply List.filterMap_congr
  rintro ⟨⟨f, s⟩, i⟩ _
  cases he : f.entry with
  | none => simp [Signature.isEntryFor, he]
  | some e => by_cases hs : e.stage = stage <;> simp [Signature.isEntryFor, he, hs, Option.guard]

/-- One function is the entry where it is the only candidate. -/
theorem entryFunction_eq_ok_iff (h : build items = .ok index) (span : Span)
    (found : Nat × EntryPoint) :
    Extractor.entryFunction ⟨items, index, span⟩ stage = .ok found ↔
      ∃ s, candidates items stage = [(found, s)] := by
  rw [Extractor.entryFunction, ← map_fst_candidates h]
  rcases candidates items stage with _ | ⟨⟨a, s⟩, _ | ⟨b, rest⟩⟩ <;> simp

/-- A stage has one candidate exactly when one function of the file is its entry. -/
theorem exists_candidate_iff (items : List Stmt) (stage : Stage) (s : Site) :
    (∃ found, candidates items stage = [(found, s)]) ↔ entrySites items stage = [s] := by
  rw [← map_snd_candidates]
  rcases candidates items stage with _ | ⟨⟨a, t⟩, _ | ⟨b, rest⟩⟩ <;> simp

/-- The search starts with the entry function only. -/
theorem following_start {start : Key}
    (hstart : start ∈ index.declarations.map (·.key)) :
    Following index start (index.declarations.length + 1) [start] [start] where
  start_mem := by simp
  nodup := by simp
  known := by simpa using hstart
  sound k hk := by
    rw [List.mem_singleton.mp hk]
  stack_mem := by simp
  closed k hk hout := absurd hk hout
  steps := by simp

/-- The steps of the search are the references between sites, as long as every name that
is met is declared. -/
theorem exists_site_of_next (h : build items = .ok index) {s : Site} {start k : Key}
    (hs : (s, start) ∈ keyedSites items) (hk : Relation.ReflTransGen index.Next start k) :
    ∃ t, (t, k) ∈ keyedSites items ∧ Reaches items s t := by
  induction hk with
  | refl => exact ⟨s, hs, .refl⟩
  | tail _ hnext ih =>
      obtain ⟨t, ht, hreach⟩ := ih
      obtain ⟨_, u, hu, href⟩ := (next_iff h ht).mp hnext
      exact ⟨u, hu, hreach.tail href⟩

/-- What the entry reaches is found by following the keys. -/
theorem next_of_reaches (h : build items = .ok index) {s t : Site} {start k : Key}
    (hs : (s, start) ∈ keyedSites items) (hst : Reaches items s t)
    (hall : ∀ u, Reaches items s u → (siteUses items u).Resolves (allSites items))
    (hk : (t, k) ∈ keyedSites items) : Relation.ReflTransGen index.Next start k := by
  induction hst generalizing k with
  | refl => rw [key_eq_of_mem_keyedSites hs hk]
  | @tail b c hsb href ih =>
      have hb : b ∈ allSites items := by
        rcases Relation.ReflTransGen.cases_tail hsb with rfl | ⟨_, _, hlast⟩
        · exact mem_allSites_of_mem_keyedSites hs
        · exact hlast.1
      obtain ⟨kb, hkb⟩ := exists_key_of_mem_allSites hb
      exact (ih hkb).tail ((next_iff h hkb).mpr ⟨hall b hsb, c, hk, href⟩)

/-- The search from a function succeeds exactly when all names that the reached
declarations use are declared. -/
theorem reachable_eq_ok_iff (h : build items = .ok index) {s : Site} {n : Nat}
    (hs : (s, ⟨.function, n⟩) ∈ keyedSites items) :
    (∃ keys, index.reachable n = .ok keys) ↔
      ∀ t, Reaches items s t → (siteUses items t).Resolves (allSites items) := by
  have hstart := following_start ((mem_keys_iff h _).mpr ⟨s, hs⟩)
  rcases hstart.follow with ⟨out, hout, _, hmem, hok⟩ | ⟨e, k, herr, hk, hfail⟩
  · refine ⟨fun _ t ht => ?_, fun _ => ⟨out, hout⟩⟩
    have hwalk : ∀ t, Reaches items s t → ∃ k, (t, k) ∈ keyedSites items ∧ k ∈ out := by
      intro t ht
      induction ht with
      | refl => exact ⟨_, hs, (hmem _).mpr .refl⟩
      | tail _ href ih =>
          obtain ⟨k, hk, hin⟩ := ih
          obtain ⟨k', hk'⟩ := exists_key_of_mem_allSites href.1
          have hres := (successors_eq_ok_iff h _).mp (hok k hin)
          rw [usesAt_of_mem_keyedSites h hk] at hres
          exact ⟨k', hk', (hmem k').mpr (((hmem k).mp hin).tail
            ((next_iff h hk).mpr ⟨hres, _, hk', href⟩))⟩
    obtain ⟨k, hk, hin⟩ := hwalk t ht
    have hres := (successors_eq_ok_iff h _).mp (hok k hin)
    rwa [usesAt_of_mem_keyedSites h hk] at hres
  · constructor
    · rintro ⟨keys, hkeys⟩
      rw [reachable, herr] at hkeys
      cases hkeys
    · intro hall
      obtain ⟨t, ht, hreach⟩ := exists_site_of_next h hs hk
      obtain ⟨ks, hks⟩ := (successors_eq_ok_iff h _).mpr (hall t hreach)
      rw [usesAt_of_mem_keyedSites h ht, hks] at hfail
      cases hfail

/-- The keys that a search finds are those of the reached declarations. -/
theorem mem_reachable_iff (h : build items = .ok index) {s : Site} {n : Nat}
    (hs : (s, ⟨.function, n⟩) ∈ keyedSites items) {keys : List Key}
    (hkeys : index.reachable n = .ok keys) {t : Site} {k : Key}
    (hk : (t, k) ∈ keyedSites items) : k ∈ keys ↔ Reaches items s t := by
  have hall := (reachable_eq_ok_iff h hs).mp ⟨keys, hkeys⟩
  have hstart := following_start ((mem_keys_iff h _).mpr ⟨s, hs⟩)
  rcases hstart.follow with ⟨out, hout, _, hmem, _⟩ | ⟨e, _, herr, _⟩
  · rw [reachable, hout] at hkeys
    cases hkeys
    rw [hmem]
    constructor
    · intro hnext
      obtain ⟨t', ht', hreach⟩ := exists_site_of_next h hs hnext
      rwa [eq_of_mem_keyedSites hk ht']
    · intro hreach
      exact next_of_reaches h hs hreach hall hk
  · rw [reachable, herr] at hkeys
    cases hkeys

end Built

end DeclarationIndex

end Shading
