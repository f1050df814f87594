import Shading.Proofs.Extract.Parts

/-!
# A faithful index

What an item declares is read off its form: a function, a struct or a global is one
declaration, a block is one for each entry. An index is faithful to the items if its keys
and these declarations are in bijection, and if its lists, by name, of the entry functions
and of the libraries, hold what they should in source order. The index of items without
optional blocks is.
-/

namespace Shading

/-- A declaration of the item at a position. -/
inductive DeclaredAt (i : Nat) : Stmt → Site → Prop where
  | function (s : Span) (f : Signature) (body : List Stmt) :
      DeclaredAt i (.function s f body) ⟨.function, f.name, i, none, s⟩
  | struct (s : Span) (d : StructDeclaration) :
      DeclaredAt i (.struct s d) ⟨.struct, d.name, i, none, s⟩
  | global (s : Span) (d : VariableDeclaration) :
      DeclaredAt i (.var s d) ⟨.global, d.name, i, none, s⟩
  | input {s : Span} {vs : List InterfaceVariable} {n : Nat} {v : InterfaceVariable}
      (h : vs[n]? = some v) : DeclaredAt i (.inputs s vs) ⟨.input, v.name, i, some n, v.span⟩
  | output {s : Span} {vs : List InterfaceVariable} {n : Nat} {v : InterfaceVariable}
      (h : vs[n]? = some v) : DeclaredAt i (.outputs s vs) ⟨.output, v.name, i, some n, v.span⟩
  | external {s : Span} {vs : List ExternalVariable} {n : Nat} {v : ExternalVariable}
      (h : vs[n]? = some v) :
      DeclaredAt i (.externals s vs) ⟨.external, v.name, i, some n, v.span⟩
  | const {s : Span} {ds : List ConstDeclaration} {n : Nat} {d : ConstDeclaration}
      (h : ds[n]? = some d) : DeclaredAt i (.consts s ds) ⟨.const, d.name, i, some n, d.span⟩
  | option {s : Span} {ds : List OptionDeclaration} {n : Nat} {d : OptionDeclaration}
      (h : ds[n]? = some d) : DeclaredAt i (.options s ds) ⟨.option, d.name, i, some n, d.span⟩

/-- One site comes before another in the source: by item, and in a block by entry. -/
def Site.Before (s t : Site) : Prop := s.item < t.item ∨ (s.item = t.item ∧ s.entry < t.entry)

/-- The site that a declaration was made from. -/
def Declaration.site (d : Declaration) : Site :=
  ⟨d.key.category, d.name, d.item, d.entry, d.span⟩

theorem Category.isValue_iff (c : Category) :
    c.isValue = true ↔ c ≠ .function ∧ c ≠ .struct := by
  cases c <;> decide

namespace DeclarationIndex

/-- The sites of a block are its entries, by number. -/
theorem mem_blockSites_iff {α : Type} (c : Category) (i : Nat) (name : α → String)
    (span : α → Span) (entries : List α) (s : Site) :
    s ∈ blockSites c i name span entries ↔
      ∃ n a, entries[n]? = some a ∧ s = ⟨c, name a, i, some n, span a⟩ := by
  rw [blockSites, List.mem_map]
  constructor
  · rintro ⟨⟨a, n⟩, hmem, rfl⟩
    exact ⟨n, a, List.mem_zipIdx_iff_getElem?.mp hmem, rfl⟩
  · rintro ⟨n, a, hget, rfl⟩
    exact ⟨(a, n), List.mem_zipIdx_iff_getElem?.mpr hget, rfl⟩

/-- The sites of an item are what it declares. -/
theorem mem_sites_iff (i : Nat) (item : Stmt) (s : Site) :
    s ∈ sites i item ↔ DeclaredAt i item s := by
  constructor
  · intro h
    cases item with
    | function p f body => exact List.mem_singleton.mp h ▸ .function p f body
    | struct p d => exact List.mem_singleton.mp h ▸ .struct p d
    | var p d => exact List.mem_singleton.mp h ▸ .global p d
    | inputs p vs =>
        obtain ⟨n, v, hv, rfl⟩ := (mem_blockSites_iff ..).mp h
        exact .input hv
    | outputs p vs =>
        obtain ⟨n, v, hv, rfl⟩ := (mem_blockSites_iff ..).mp h
        exact .output hv
    | externals p vs =>
        obtain ⟨n, v, hv, rfl⟩ := (mem_blockSites_iff ..).mp h
        exact .external hv
    | consts p ds =>
        obtain ⟨n, d, hd, rfl⟩ := (mem_blockSites_iff ..).mp h
        exact .const hd
    | options p ds =>
        obtain ⟨n, d, hd, rfl⟩ := (mem_blockSites_iff ..).mp h
        exact .option hd
    | _ => cases h
  · intro h
    cases h with
    | function => exact List.mem_singleton_self _
    | struct => exact List.mem_singleton_self _
    | global => exact List.mem_singleton_self _
    | input hv => exact (mem_blockSites_iff ..).mpr ⟨_, _, hv, rfl⟩
    | output hv => exact (mem_blockSites_iff ..).mpr ⟨_, _, hv, rfl⟩
    | external hv => exact (mem_blockSites_iff ..).mpr ⟨_, _, hv, rfl⟩
    | const hd => exact (mem_blockSites_iff ..).mpr ⟨_, _, hd, rfl⟩
    | option hd => exact (mem_blockSites_iff ..).mpr ⟨_, _, hd, rfl⟩

section SourceOrder

/-- Numbered elements stand in the order of their numbers. -/
theorem pairwise_lt_zipIdx {α : Type} (xs : List α) (k : Nat) :
    (xs.zipIdx k).Pairwise fun a b => a.2 < b.2 := by
  rw [← List.pairwise_map, List.zipIdx_map_snd]
  exact List.pairwise_lt_range'

theorem pairwise_before_blockSites {α : Type} (c : Category) (i : Nat) (name : α → String)
    (span : α → Span) (entries : List α) :
    (blockSites c i name span entries).Pairwise Site.Before := by
  rw [blockSites, List.pairwise_map]
  exact (pairwise_lt_zipIdx entries 0).imp fun hlt => .inr ⟨rfl, hlt⟩

theorem pairwise_before_sites (i : Nat) (item : Stmt) :
    (sites i item).Pairwise Site.Before := by
  cases item <;> simp only [sites, List.Pairwise.nil, List.pairwise_singleton] <;>
    exact pairwise_before_blockSites ..

/-- The sites of the items stand in source order. -/
theorem pairwise_before_allSites (items : List Stmt) :
    (allSites items).Pairwise Site.Before := by
  rw [allSites, List.pairwise_flatMap]
  refine ⟨fun p _ => pairwise_before_sites p.2 p.1, ?_⟩
  refine (pairwise_lt_zipIdx items 0).imp fun hlt s hs t ht => .inl ?_
  rwa [item_of_mem_sites hs, item_of_mem_sites ht]

theorem pairwise_before_keyedSites (items : List Stmt) :
    (keyedSites items).Pairwise fun p q => p.1.Before q.1 := by
  rw [← List.pairwise_map, map_fst_keyedSites]
  exact pairwise_before_allSites items

theorem pairwise_before_functionSites (items : List Stmt) :
    (functionSites items).Pairwise fun p q => p.2.Before q.2 := by
  rw [← List.pairwise_map, map_snd_functionSites]
  exact (pairwise_before_allSites items).filter _

end SourceOrder

/-- A function is listed with its site where the item is that function. -/
theorem mem_functionSites_iff (items : List Stmt) (f : Signature) (s : Site) :
    (f, s) ∈ functionSites items ↔ ∃ p body, items[s.item]? = some (.function p f body) ∧
      s = ⟨.function, f.name, s.item, none, p⟩ := by
  rw [functionSites, List.mem_filterMap]
  constructor
  · rintro ⟨⟨item, i⟩, hmem, hs⟩
    have hget := List.mem_zipIdx_iff_getElem?.mp hmem
    cases item with
    | function p f body =>
        cases hs
        exact ⟨p, body, hget, rfl⟩
    | _ => cases hs
  · rintro ⟨p, body, hget, hs⟩
    refine ⟨(.function p f body, s.item), List.mem_zipIdx_iff_getElem?.mpr hget, ?_⟩
    rw [hs]

/-- The declaration of one key comes before that of another. -/
def Precedes (index : DeclarationIndex) (k k' : Key) : Prop :=
  ∃ d d', index.get? k = some d ∧ index.get? k' = some d' ∧ d.site.Before d'.site

/-- A list holds the keys of the declarations with a property, in source order. -/
structure ListsInOrder (index : DeclarationIndex) (P : Declaration → Prop) (ks : List Key) :
    Prop where
  mem_iff : ∀ k, k ∈ ks ↔ ∃ d, index.get? k = some d ∧ P d
  inOrder : ks.Pairwise index.Precedes

/-- The index says of the items what they declare, and nothing else. -/
structure Faithful (items : List Stmt) (index : DeclarationIndex) : Prop where
  keys_nodup : index.keys.Nodup
  mem_keys_iff : ∀ k, k ∈ index.keys ↔ ∃ d, index.get? k = some d
  /-- A key brings back the name, the span and the position of a declaration. -/
  declared : ∀ k d, index.get? k = some d →
    d.key = k ∧ ∃ item, items[d.item]? = some item ∧ DeclaredAt d.item item d.site
  /-- Every declaration has a key, and no other key has its position. -/
  hasKey : ∀ i item s, items[i]? = some item → DeclaredAt i item s →
    ∃ k d, index.get? k = some d ∧ d.site = s ∧
      ∀ k' d', index.get? k' = some d' → d'.item = s.item → d'.entry = s.entry → k' = k
  functionsNamed : ∀ name, index.ListsInOrder
    (fun d => d.name = name ∧ d.key.category = .function) (index.functionsNamed name)
  structsNamed : ∀ name, index.ListsInOrder
    (fun d => d.name = name ∧ d.key.category = .struct) (index.structsNamed name)
  valuesNamed : ∀ name, index.ListsInOrder
    (fun d => d.name = name ∧ d.key.category ≠ .function ∧ d.key.category ≠ .struct)
    (index.valuesNamed name)
  mem_entryPoints_iff : ∀ n e, (n, e) ∈ index.entryPoints ↔
    ∃ d s f body, index.get? ⟨.function, n⟩ = some d ∧
      items[d.item]? = some (.function s f body) ∧ f.entry = some e
  entryPoints_inOrder :
    (index.entryPoints.map fun p => (⟨.function, p.1⟩ : Key)).Pairwise index.Precedes
  mem_passthrough_iff : ∀ i, i ∈ index.passthrough ↔ ∃ s path, items[i]? = some (.library s path)
  passthrough_inOrder : index.passthrough.Pairwise (· < ·)

section Built

variable {items : List Stmt} {index : DeclarationIndex}

/-- The declaration of a key was made from the site with this key. -/
theorem exists_get?_iff (h : build items = .ok index) (k : Key) (s : Site) :
    (∃ d, index.get? k = some d ∧ d.site = s) ↔ (s, k) ∈ keyedSites items := by
  constructor
  · rintro ⟨d, hget, rfl⟩
    obtain ⟨hmem, rfl⟩ := (get?_eq_some_iff h k d).mp hget
    obtain ⟨⟨s, k⟩, hp, rfl⟩ := (mem_declarations_iff h d).mp hmem
    have hcategory : k.category = s.category := category_of_mem_keyedSites hp
    have hsite : (declarationOf items (s, k)).site = s := by
      rw [Declaration.site, declarationOf, hcategory]
    rwa [hsite]
  · intro hp
    refine ⟨_, get?_of_mem_keyedSites h hp, ?_⟩
    have hcategory : k.category = s.category := category_of_mem_keyedSites hp
    rw [Declaration.site, declarationOf, hcategory]

theorem site_mem_of_get? (h : build items = .ok index) {k : Key} {d : Declaration}
    (hget : index.get? k = some d) : (d.site, k) ∈ keyedSites items :=
  (exists_get?_iff h k d.site).mp ⟨d, hget, rfl⟩

/-- What stands before in the source precedes in the index. -/
theorem precedes_of_before (h : build items = .ok index) {p q : Site × Key}
    (hp : p ∈ keyedSites items) (hq : q ∈ keyedSites items) (hbefore : p.1.Before q.1) :
    index.Precedes p.2 q.2 := by
  obtain ⟨d, hget, hd⟩ := (exists_get?_iff h p.2 p.1).mpr hp
  obtain ⟨d', hget', hd'⟩ := (exists_get?_iff h q.2 q.1).mpr hq
  exact ⟨d, d', hget, hget', by rwa [hd, hd']⟩

/-- A key is listed where it has a declaration. -/
theorem mem_index_keys_iff (h : build items = .ok index) (k : Key) :
    k ∈ index.keys ↔ ∃ d, index.get? k = some d := by
  simp only [keys, List.mem_flatMap, List.mem_map, List.mem_filter, decide_eq_true_eq,
    get?_eq_some_iff h]
  constructor
  · rintro ⟨c, -, d, ⟨hd, -⟩, hk⟩
    exact ⟨d, hd, hk⟩
  · rintro ⟨d, hd, hk⟩
    refine ⟨d.key.category, ?_, d, ⟨hd, rfl⟩, hk⟩
    cases d.key.category <;> decide

theorem nodup_index_keys (h : build items = .ok index) : index.keys.Nodup := by
  have hcategories : Category.all.Nodup := by decide
  rw [keys, List.nodup_flatMap]
  refine ⟨fun c _ => (nodup_keys h).sublist (List.filter_sublist.map _), ?_⟩
  refine hcategories.imp fun {a b} hab k ha hb => hab ?_
  obtain ⟨d, hd, rfl⟩ := List.mem_map.mp ha
  obtain ⟨d', hd', hkey⟩ := List.mem_map.mp hb
  have hca : d.key.category = a := of_decide_eq_true (List.mem_filter.mp hd).2
  have hcb : d'.key.category = b := of_decide_eq_true (List.mem_filter.mp hd').2
  rw [← hca, ← hcb, hkey]

/-- A name lists its declarations in source order. -/
theorem listsInOrder_named (h : build items = .ok index) (wanted : Category → Bool)
    (name : String) : index.ListsInOrder
      (fun d => d.name = name ∧ wanted d.key.category = true) (index.named wanted name) where
  mem_iff k := by
    simp only [named, List.mem_map, List.mem_filter, Bool.and_eq_true, decide_eq_true_eq,
      get?_eq_some_iff h]
    constructor
    · rintro ⟨d, ⟨hd, hwanted⟩, hk⟩
      exact ⟨d, ⟨hd, hk⟩, hwanted⟩
    · rintro ⟨d, ⟨hd, hk⟩, hwanted⟩
      exact ⟨d, ⟨hd, hwanted⟩, hk⟩
  inOrder := by
    rw [named, List.pairwise_map]
    refine List.Pairwise.filter _ ?_
    rw [declarations_of_build h, List.pairwise_map]
    exact (pairwise_before_keyedSites items).imp_of_mem fun hp hq => precedes_of_before h hp hq

/-- The entry points are the functions that have one, by number. -/
theorem entryPoints_eq (h : build items = .ok index) :
    index.entryPoints =
      (functionSites items).zipIdx.filterMap fun (p, i) => p.1.entry.map (i, ·) := by
  rw [entryPoints_of_build h, ← map_fst_functionSites, List.zipIdx_map, List.filterMap_map]
  rfl

/-- The entry points are the functions with an entry attribute, under their numbers. -/
theorem mem_entryPoints_iff (h : build items = .ok index) (n : Nat) (e : EntryPoint) :
    (n, e) ∈ index.entryPoints ↔ ∃ d s f body, index.get? ⟨.function, n⟩ = some d ∧
      items[d.item]? = some (.function s f body) ∧ f.entry = some e := by
  rw [entryPoints_eq h, List.mem_filterMap]
  constructor
  · rintro ⟨⟨⟨f, s⟩, i⟩, hmem, hentry⟩
    obtain ⟨e', he, hpair⟩ := Option.map_eq_some_iff.mp hentry
    cases hpair
    have hget : (functionSites items)[n]? = some (f, s) := List.mem_zipIdx_iff_getElem?.mp hmem
    obtain ⟨p, body, hitem, -⟩ := (mem_functionSites_iff items f s).mp (List.mem_of_getElem? hget)
    obtain ⟨d, hd, rfl⟩ := (exists_get?_iff h _ _).mpr (mem_keyedSites_of_functionSites hget)
    exact ⟨d, p, f, body, hd, hitem, he⟩
  · rintro ⟨d, s, f, body, hd, hitem, he⟩
    have hkey := site_mem_of_get? h hd
    have hsite : d.site ∈ sites d.item (.function s f body) :=
      Extractor.mem_sites_of_mem_allSites hitem (mem_allSites_of_mem_keyedSites hkey) rfl
    have hfunction : (f, d.site) ∈ functionSites items :=
      (mem_functionSites_iff items f d.site).mpr ⟨s, body, hitem, List.mem_singleton.mp hsite⟩
    obtain ⟨m, hm⟩ := List.mem_iff_getElem?.mp hfunction
    -- The site has one key, so its place among the functions is the number asked for.
    have hnumber := key_eq_of_mem_keyedSites (mem_keyedSites_of_functionSites hm) hkey
    cases hnumber
    refine ⟨((f, d.site), n), List.mem_zipIdx_iff_getElem?.mpr hm, ?_⟩
    simp [he]

theorem entryPoints_inOrder (h : build items = .ok index) :
    (index.entryPoints.map fun p => (⟨.function, p.1⟩ : Key)).Pairwise index.Precedes := by
  have hsites := pairwise_before_functionSites items
  rw [← List.zipIdx_map_fst 0 (functionSites items), List.pairwise_map] at hsites
  rw [List.pairwise_map, entryPoints_eq h, List.pairwise_filterMap]
  refine hsites.imp_of_mem fun {a b} ha hb hbefore x hx y hy => ?_
  obtain ⟨_, _, rfl⟩ := Option.map_eq_some_iff.mp hx
  obtain ⟨_, _, rfl⟩ := Option.map_eq_some_iff.mp hy
  have hkeyed {c : (Signature × Site) × Nat} (hc : c ∈ (functionSites items).zipIdx) :
      (c.1.2, ⟨.function, c.2⟩) ∈ keyedSites items :=
    mem_keyedSites_of_functionSites (List.mem_zipIdx_iff_getElem?.mp hc)
  exact precedes_of_before h (hkeyed ha) (hkeyed hb) hbefore

theorem passthrough_inOrder (h : build items = .ok index) :
    index.passthrough.Pairwise (· < ·) := by
  rw [passthrough_of_build h, List.pairwise_filterMap]
  refine (pairwise_lt_zipIdx items 0).imp ?_
  rintro ⟨item, i⟩ ⟨item', j⟩ hlt x hx y hy
  cases item <;> cases hx
  cases item' <;> cases hy
  exact hlt

/-- An index that was built is faithful to the items. -/
theorem faithful_of_build (h : build items = .ok index) : index.Faithful items where
  keys_nodup := nodup_index_keys h
  mem_keys_iff := mem_index_keys_iff h
  declared k d hget := by
    have hmem := mem_allSites_of_mem_keyedSites (site_mem_of_get? h hget)
    obtain ⟨item, hitem, hsite⟩ := (Extractor.mem_allSites_iff items d.site).mp hmem
    exact ⟨((get?_eq_some_iff h k d).mp hget).2, item, hitem, (mem_sites_iff ..).mp hsite⟩
  hasKey i item s hitem hs := by
    have hsite : s ∈ sites i item := (mem_sites_iff ..).mpr hs
    obtain rfl := item_of_mem_sites hsite
    have hmem : s ∈ allSites items :=
      (Extractor.mem_allSites_iff items s).mpr ⟨item, hitem, hsite⟩
    obtain ⟨k, hk⟩ := exists_key_of_mem_allSites hmem
    obtain ⟨d, hget, hd⟩ := (exists_get?_iff h k s).mpr hk
    refine ⟨k, d, hget, hd, fun k' d' hget' hplace hentry => ?_⟩
    have hk' := site_mem_of_get? h hget'
    have hsame : d'.site = s :=
      eq_of_place_eq (mem_allSites_of_mem_keyedSites hk') hmem hplace hentry
    rw [hsame] at hk'
    exact key_eq_of_mem_keyedSites hk' hk
  functionsNamed name := by
    have hlists := listsInOrder_named h (· = .function) name
    simp only [decide_eq_true_eq] at hlists
    exact hlists
  structsNamed name := by
    have hlists := listsInOrder_named h (· = .struct) name
    simp only [decide_eq_true_eq] at hlists
    exact hlists
  valuesNamed name := by
    have hlists := listsInOrder_named h Category.isValue name
    simp only [Category.isValue_iff] at hlists
    exact hlists
  mem_entryPoints_iff := mem_entryPoints_iff h
  entryPoints_inOrder := entryPoints_inOrder h
  mem_passthrough_iff := mem_passthrough_iff h
  passthrough_inOrder := passthrough_inOrder h

end Built

end DeclarationIndex

end Shading
