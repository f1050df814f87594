import Mathlib.Data.List.Nodup
import Shading.Extract.Index

/-!
# Keys of the declaration index

A key belongs to one declaration, and the numbers of one category count its
declarations in source order. The index of a file is therefore read through its
sites: every site has a key, and every key has the site it was made from.
-/

namespace Shading

namespace DeclarationIndex

/-- The names that count as externals while references are collected. -/
def externalNames (items : List Stmt) : List String :=
  ((allSites items).filter (·.category = .external)).map (·.name)

/-- What a site of a file refers to. -/
def siteUses (items : List Stmt) (s : Site) : Dependencies :=
  usesOf items (externalNames items) s

/-- The sites of a file with their keys, in source order. -/
def keyedSites (items : List Stmt) : List (Site × Key) :=
  (allSites items).zip (keysFrom [] (allSites items))

/-- The declaration that a site makes under a key. -/
def declarationOf (items : List Stmt) (p : Site × Key) : Declaration :=
  ⟨p.2, p.1.name, p.1.item, p.1.entry, p.1.span, siteUses items p.1⟩

theorem length_keysFrom (before : List Category) (ss : List Site) :
    (keysFrom before ss).length = ss.length := by
  induction ss generalizing before with
  | nil => rfl
  | cons s rest ih => simp [keysFrom, ih]

/-- Keys are numbered from what stands before. -/
theorem le_number_of_mem_keysFrom {before : List Category} {ss : List Site} {k : Key}
    (h : k ∈ keysFrom before ss) : before.count k.category ≤ k.number := by
  induction ss generalizing before with
  | nil => simp [keysFrom] at h
  | cons s rest ih =>
      rcases List.mem_cons.mp h with rfl | h
      · exact Nat.le_refl _
      · exact Nat.le_trans List.count_le_count_cons (ih h)

/-- No two sites have one key. -/
theorem nodup_keysFrom (before : List Category) (ss : List Site) :
    (keysFrom before ss).Nodup := by
  induction ss generalizing before with
  | nil => exact List.nodup_nil
  | cons s rest ih =>
      refine List.nodup_cons.mpr ⟨fun h => ?_, ih _⟩
      have hle := le_number_of_mem_keysFrom h
      simp only [List.count_cons_self] at hle
      omega

/-- The keys of one category are numbered in order, from the declarations before. -/
theorem filter_zip_keysFrom (before : List Category) (ss : List Site) (c : Category) :
    ((ss.zip (keysFrom before ss)).filter fun p => p.2.category = c).map (·.2) =
      (List.range' (before.count c) (ss.countP (·.category = c))).map (Key.mk c) := by
  induction ss generalizing before with
  | nil => rfl
  | cons s rest ih =>
      by_cases hc : s.category = c
      · subst hc
        simp [keysFrom, ih, List.range'_succ]
      · simp [keysFrom, ih, hc]

theorem map_fst_keyedSites (items : List Stmt) :
    (keyedSites items).map (·.1) = allSites items := by
  rw [keyedSites, List.map_fst_zip (Nat.le_of_eq (length_keysFrom _ _).symm)]

theorem nodup_keyedSites_keys (items : List Stmt) :
    ((keyedSites items).map (·.2)).Nodup := by
  rw [keyedSites, List.map_snd_zip (Nat.le_of_eq (length_keysFrom _ _))]
  exact nodup_keysFrom _ _

theorem category_of_mem_zip_keysFrom {before : List Category} {ss : List Site}
    {p : Site × Key} (h : p ∈ ss.zip (keysFrom before ss)) :
    p.2.category = p.1.category := by
  induction ss generalizing before with
  | nil => simp at h
  | cons s rest ih =>
      simp only [keysFrom, List.zip_cons_cons, List.mem_cons] at h
      rcases h with rfl | h
      · rfl
      · exact ih h

theorem category_of_mem_keyedSites {items : List Stmt} {p : Site × Key}
    (h : p ∈ keyedSites items) : p.2.category = p.1.category :=
  category_of_mem_zip_keysFrom h

/-- Every site has a key. -/
theorem exists_key_of_mem_allSites {items : List Stmt} {s : Site} (h : s ∈ allSites items) :
    ∃ k, (s, k) ∈ keyedSites items := by
  rw [← map_fst_keyedSites, List.mem_map] at h
  obtain ⟨⟨s', k⟩, hp, rfl⟩ := h
  exact ⟨k, hp⟩

theorem mem_allSites_of_mem_keyedSites {items : List Stmt} {p : Site × Key}
    (h : p ∈ keyedSites items) : p.1 ∈ allSites items := by
  rw [← map_fst_keyedSites]
  exact List.mem_map_of_mem h

/-- The number of a key counts the sites of its category before the site. -/
theorem mem_keyedSites_of_getElem? {items : List Stmt} {c : Category} {i : Nat} {s : Site}
    (h : ((allSites items).filter (·.category = c))[i]? = some s) :
    (s, ⟨c, i⟩) ∈ keyedSites items := by
  have hsites : ((keyedSites items).filter fun p => p.2.category = c).map (·.1) =
      (allSites items).filter (·.category = c) := by
    rw [← map_fst_keyedSites, List.filter_map]
    congr 1
    apply List.filter_congr
    intro p hp
    simp [category_of_mem_keyedSites hp]
  have hkeys := filter_zip_keysFrom [] (allSites items) c
  have hlist : ∃ p, ((keyedSites items).filter fun p => p.2.category = c)[i]? = some p ∧
      p.1 = s := by
    rw [← hsites, List.getElem?_map, Option.map_eq_some_iff] at h
    exact h
  obtain ⟨⟨s', k⟩, hp, rfl⟩ := hlist
  have hk : (((keyedSites items).filter fun p => p.2.category = c).map (·.2))[i]? = some k := by
    rw [List.getElem?_map, hp]
    rfl
  rw [keyedSites, hkeys, List.getElem?_map, Option.map_eq_some_iff] at hk
  obtain ⟨n, hn, rfl⟩ := hk
  obtain ⟨_, hn⟩ := List.getElem?_eq_some_iff.mp hn
  rw [List.getElem_range', List.count_nil, Nat.zero_add, Nat.one_mul] at hn
  rw [← hn] at hp
  exact (List.mem_filter.mp (List.mem_of_getElem? hp)).1

theorem item_of_mem_sites {i : Nat} {stmt : Stmt} {s : Site} (h : s ∈ sites i stmt) :
    s.item = i := by
  cases stmt <;> simp [sites, blockSites] at h <;> grind

/-- A block has no site of another category. -/
theorem filter_blockSites_of_ne {α : Type} {c d : Category} (h : c ≠ d) (i : Nat)
    (name : α → String) (span : α → Span) (entries : List α) :
    (blockSites c i name span entries).filter (·.category = d) = [] := by
  simp only [blockSites, List.filter_map, List.map_eq_nil_iff, List.filter_eq_nil_iff]
  intro p _
  simp [h]

theorem nodup_entries_blockSites {α : Type} (c : Category) (i : Nat) (name : α → String)
    (span : α → Span) (entries : List α) :
    ((blockSites c i name span entries).map (·.entry)).Nodup := by
  have hmap : (blockSites c i name span entries).map (·.entry) =
      (entries.zipIdx.map (·.2)).map some := by
    rw [blockSites, List.map_map, List.map_map]
    rfl
  rw [hmap, List.zipIdx_map_snd]
  exact List.Nodup.map (fun a b hab => Option.some.inj hab) List.nodup_range'

/-- The entries of one item are told apart by their numbers. -/
theorem nodup_entries_sites (i : Nat) (stmt : Stmt) :
    ((sites i stmt).map (·.entry)).Nodup := by
  cases stmt <;> simp only [sites, List.map_nil, List.map_cons, List.nodup_nil,
    List.nodup_singleton] <;> exact nodup_entries_blockSites _ _ _ _ _

/-- No two sites of a file are the same entry of the same item. -/
theorem nodup_places (items : List Stmt) :
    ((allSites items).map fun s => (s.item, s.entry)).Nodup := by
  rw [allSites, List.map_flatMap, List.nodup_flatMap]
  constructor
  · rintro ⟨stmt, i⟩ _
    refine List.Nodup.of_map Prod.snd ?_
    rw [List.map_map]
    exact nodup_entries_sites i stmt
  · have hpair : items.zipIdx.Pairwise fun a b => a.2 ≠ b.2 := by
      rw [← List.pairwise_map, List.zipIdx_map_snd]
      exact List.nodup_range'
    refine hpair.imp fun {a b} hab => ?_
    rintro ⟨i, e⟩ ha hb
    obtain ⟨s, hs, hse⟩ := List.mem_map.mp ha
    obtain ⟨t, ht, hte⟩ := List.mem_map.mp hb
    have hsi := item_of_mem_sites hs
    have hti := item_of_mem_sites ht
    grind

theorem nodup_allSites (items : List Stmt) : (allSites items).Nodup :=
  (nodup_places items).of_map

theorem eq_of_place_eq {items : List Stmt} {s t : Site} (hs : s ∈ allSites items)
    (ht : t ∈ allSites items) (hitem : s.item = t.item) (hentry : s.entry = t.entry) :
    s = t :=
  List.inj_on_of_nodup_map (nodup_places items) hs ht (by rw [hitem, hentry])

theorem eq_of_mem_keyedSites {items : List Stmt} {s t : Site} {k : Key}
    (hs : (s, k) ∈ keyedSites items) (ht : (t, k) ∈ keyedSites items) : s = t :=
  congrArg Prod.fst (List.inj_on_of_nodup_map (nodup_keyedSites_keys items) hs ht rfl)

theorem key_eq_of_mem_keyedSites {items : List Stmt} {s : Site} {k k' : Key}
    (hk : (s, k) ∈ keyedSites items) (hk' : (s, k') ∈ keyedSites items) : k = k' := by
  have hnodup : ((keyedSites items).map (·.1)).Nodup := by
    rw [map_fst_keyedSites]
    exact nodup_allSites items
  exact congrArg Prod.snd (List.inj_on_of_nodup_map hnodup hk hk' rfl)

section Built

variable {items : List Stmt} {index : DeclarationIndex}

theorem unspecialized?_of_build (h : build items = .ok index) :
    unspecialized? items = none := by
  unfold build at h
  split at h
  · cases h
  · assumption

/-- The index is built unless an optional block is left. -/
theorem build_eq_ok_iff :
    (∃ index, build items = .ok index) ↔ unspecialized? items = none := by
  constructor
  · rintro ⟨index, h⟩
    exact unspecialized?_of_build h
  · intro h
    simp [build, h]

/-- The index has a declaration for every keyed site, in source order. -/
theorem declarations_of_build (h : build items = .ok index) :
    index.declarations = (keyedSites items).map (declarationOf items) := by
  unfold build at h
  rw [unspecialized?_of_build h] at h
  cases h
  rfl

theorem entryPoints_of_build (h : build items = .ok index) :
    index.entryPoints =
      (functions items).zipIdx.filterMap fun (f, i) => f.entry.map (i, ·) := by
  unfold build at h
  rw [unspecialized?_of_build h] at h
  cases h
  rfl

theorem passthrough_of_build (h : build items = .ok index) :
    index.passthrough = items.zipIdx.filterMap fun
      | (.library .., i) => some i
      | _ => none := by
  unfold build at h
  rw [unspecialized?_of_build h] at h
  cases h
  rfl

/-- The items that every stage keeps are the libraries. -/
theorem mem_passthrough_iff (h : build items = .ok index) (i : Nat) :
    i ∈ index.passthrough ↔ ∃ s path, items[i]? = some (.library s path) := by
  rw [passthrough_of_build h, List.mem_filterMap]
  constructor
  · rintro ⟨⟨item, j⟩, hp, hj⟩
    have hget : items[j]? = some item := List.mem_zipIdx_iff_getElem?.mp hp
    cases item with
    | library s path =>
        cases hj
        exact ⟨s, path, hget⟩
    | _ => cases hj
  · rintro ⟨s, path, hget⟩
    exact ⟨(.library s path, i), List.mem_zipIdx_iff_getElem?.mpr hget, rfl⟩

theorem mem_declarations_iff (h : build items = .ok index) (d : Declaration) :
    d ∈ index.declarations ↔ ∃ p ∈ keyedSites items, declarationOf items p = d := by
  rw [declarations_of_build h, List.mem_map]

theorem nodup_keys (h : build items = .ok index) :
    (index.declarations.map (·.key)).Nodup := by
  rw [declarations_of_build h, List.map_map]
  exact nodup_keyedSites_keys items

/-- A look-up finds the declaration of the key and no other. -/
theorem get?_eq_some_iff (h : build items = .ok index) (k : Key) (d : Declaration) :
    index.get? k = some d ↔ d ∈ index.declarations ∧ d.key = k := by
  constructor
  · intro hd
    exact ⟨List.mem_of_find?_eq_some hd, by simpa using List.find?_some hd⟩
  · rintro ⟨hmem, rfl⟩
    cases hf : index.get? d.key with
    | none =>
        have := List.find?_eq_none.mp hf d hmem
        simp at this
    | some e =>
        have hkey : e.key = d.key := by simpa using List.find?_some hf
        have he := List.inj_on_of_nodup_map (nodup_keys h) (List.mem_of_find?_eq_some hf)
          hmem hkey
        rw [he]

theorem get?_of_mem_keyedSites (h : build items = .ok index) {p : Site × Key}
    (hp : p ∈ keyedSites items) : index.get? p.2 = some (declarationOf items p) :=
  (get?_eq_some_iff h _ _).mpr ⟨(mem_declarations_iff h _).mpr ⟨p, hp, rfl⟩, rfl⟩

theorem mem_keys_iff (h : build items = .ok index) (k : Key) :
    k ∈ index.declarations.map (·.key) ↔ ∃ s, (s, k) ∈ keyedSites items := by
  rw [declarations_of_build h, List.map_map, List.mem_map]
  constructor
  · rintro ⟨⟨s, k⟩, hp, rfl⟩
    exact ⟨s, hp⟩
  · rintro ⟨s, hp⟩
    exact ⟨(s, k), hp, rfl⟩

/-- The keys of a name are those of the sites of the name. -/
theorem mem_named_iff (h : build items = .ok index) (wanted : Category → Bool)
    (name : String) (k : Key) :
    k ∈ index.named wanted name ↔
      ∃ s, (s, k) ∈ keyedSites items ∧ s.name = name ∧ wanted s.category = true := by
  simp only [named, declarations_of_build h, List.mem_map, List.mem_filter,
    Bool.and_eq_true, decide_eq_true_eq]
  constructor
  · rintro ⟨d, ⟨⟨p, hp, rfl⟩, hn, hw⟩, rfl⟩
    refine ⟨p.1, hp, hn, ?_⟩
    rw [← category_of_mem_keyedSites hp]
    exact hw
  · rintro ⟨s, hp, hn, hw⟩
    refine ⟨declarationOf items (s, k), ⟨⟨(s, k), hp, rfl⟩, hn, ?_⟩, rfl⟩
    have hc : k.category = s.category := category_of_mem_keyedSites hp
    exact hc ▸ hw

end Built

end DeclarationIndex

end Shading
