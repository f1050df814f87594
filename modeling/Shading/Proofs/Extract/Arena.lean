import Shading.Extract.Arena
import Shading.Proofs.Extract.Faithful
import Shading.Proofs.Extract.Success

/-!
# The arena stands behind the index

Each declaration that is put into an arena appends its row to one table and its key to the
keys of its name, and leaves all else as it was. After the items before a position have
been put in, the tables therefore hold the sites of these items, and the maps their keys,
in source order. Once the references are filled in, the arena and the index answer alike.
-/

namespace Shading

/-- An added name answers with one more declaration, behind those it had; no other name changes. -/
theorem NameMap.get_add {α : Type} (m : NameMap α) (name : String) (a : α) (wanted : String) :
    (m.add name a).get wanted = m.get wanted ++ if name = wanted then [a] else [] := by
  induction m with
  | nil =>
      by_cases hname : name = wanted
      · simp [add, get, hname]
      · simp [add, get, List.lookup_cons, hname, beq_false_of_ne (Ne.symm hname)]
  | cons p rest ih =>
      obtain ⟨other, as⟩ := p
      rw [add]
      by_cases hother : name = other
      · subst hother
        by_cases hname : name = wanted
        · simp [get, hname]
        · simp [get, List.lookup_cons, hname, beq_false_of_ne (Ne.symm hname)]
      · rw [if_neg hother]
        by_cases hwanted : wanted = other
        · subst hwanted
          simp [get, hother]
        · simp only [get, List.lookup_cons, beq_false_of_ne hwanted] at ih ⊢
          exact ih

namespace DeclarationIndex

/-- Sites with the keys that they get in their order. -/
def keyed (ss : List Site) : List (Site × Key) := ss.zip (keysFrom [] ss)

/-- The keys of the sites of a name. -/
def keysNamed (ss : List Site) (wanted : Category → Bool) (name : String) : List Key :=
  ((keyed ss).filter fun p => p.1.name = name && wanted p.1.category).map (·.2)

/-- The key of one more site counts the sites of its category before it. -/
theorem keysFrom_concat (before : List Category) (ss : List Site) (s : Site) :
    keysFrom before (ss ++ [s]) = keysFrom before ss ++
      [⟨s.category, before.count s.category + ss.countP (·.category = s.category)⟩] := by
  induction ss generalizing before with
  | nil => simp [keysFrom]
  | cons t rest ih =>
      by_cases hc : t.category = s.category
      · simp [keysFrom, ih, hc, Nat.add_assoc, Nat.add_comm 1]
      · simp [keysFrom, ih, hc]

/-- One more site is numbered by how many of its category stand before it. -/
theorem keyed_concat (ss : List Site) (s : Site) :
    keyed (ss ++ [s]) =
      keyed ss ++ [(s, ⟨s.category, (ss.filter (·.category = s.category)).length⟩)] := by
  rw [keyed, keysFrom_concat, List.zip_append (length_keysFrom [] ss).symm, List.count_nil,
    Nat.zero_add, List.countP_eq_length_filter]
  rfl

/-- One more site is found under its name where its category is wanted, behind the sites found
before. -/
theorem keysNamed_concat (ss : List Site) (s : Site) (wanted : Category → Bool)
    (name : String) :
    keysNamed (ss ++ [s]) wanted name = keysNamed ss wanted name ++
      if s.name = name ∧ wanted s.category = true then
        [⟨s.category, (ss.filter (·.category = s.category)).length⟩] else [] := by
  rw [keysNamed, keyed_concat, List.filter_append, List.map_append]
  by_cases hs : s.name = name ∧ wanted s.category = true
  · simp [keysNamed, hs]
  · have hother : (decide (s.name = name) && wanted s.category) = false := by simpa using hs
    simp [keysNamed, hs, hother]

theorem allSites_concat (items : List Stmt) (item : Stmt) :
    allSites (items ++ [item]) = allSites items ++ sites items.length item := by
  simp [allSites, List.zipIdx_append]

/-- The entry functions of items, counted from a number on. -/
def entryNumbers (start : Nat) (items : List Stmt) : List (Nat × EntryPoint) :=
  ((functions items).zipIdx start).filterMap fun (f, i) => f.entry.map (i, ·)

/-- The positions of the libraries, counted from a number on. -/
def libraryPositions (start : Nat) (items : List Stmt) : List Nat :=
  (items.zipIdx start).filterMap fun
    | (.library .., i) => some i
    | _ => none

theorem length_functions (items : List Stmt) :
    (functions items).length = ((allSites items).filter (·.category = .function)).length := by
  rw [← map_fst_functionSites, ← map_snd_functionSites, List.length_map, List.length_map]

/-- The entry points of one more item are numbered from the functions before it. -/
theorem entryNumbers_concat (items : List Stmt) (item : Stmt) :
    entryNumbers 0 (items ++ [item]) =
      entryNumbers 0 items ++ entryNumbers (functions items).length [item] := by
  simp [entryNumbers, functions, List.zipIdx_append]

theorem libraryPositions_concat (items : List Stmt) (item : Stmt) :
    libraryPositions 0 (items ++ [item]) =
      libraryPositions 0 items ++ libraryPositions items.length [item] := by
  simp [libraryPositions, List.zipIdx_append]

/-- The index answers a name with the keys of the sites of that name, in source order. -/
theorem named_eq {items : List Stmt} {index : DeclarationIndex}
    (h : build items = .ok index) (wanted : Category → Bool) (name : String) :
    index.named wanted name = keysNamed (allSites items) wanted name := by
  rw [named, declarations_of_build h, List.filter_map, List.map_map]
  refine congrArg _ (List.filter_congr fun p hp => ?_)
  have hcategory : (declarationOf items p).key.category = p.1.category :=
    category_of_mem_keyedSites hp
  rw [Function.comp_apply, hcategory]
  rfl

/-- The keys are numbered without a gap in every category. -/
theorem keys_eq {items : List Stmt} {index : DeclarationIndex} (h : build items = .ok index) :
    index.keys = Category.all.flatMap fun c =>
      (List.range ((allSites items).filter (·.category = c)).length).map (Key.mk c) := by
  rw [keys]
  refine List.flatMap_congr fun c _ => ?_
  have hkeys := filter_zip_keysFrom [] (allSites items) c
  rw [List.count_nil, List.countP_eq_length_filter, ← List.range_eq_range'] at hkeys
  rw [← hkeys, declarations_of_build h, List.filter_map, List.map_map]
  rfl

/-- A key finds the site that its number counts to in its category. -/
theorem get?_eq {items : List Stmt} {index : DeclarationIndex} (h : build items = .ok index)
    (k : Key) :
    index.get? k = ((allSites items).filter (·.category = k.category))[k.number]?.map
      fun s => declarationOf items (s, k) := by
  cases hs : ((allSites items).filter (·.category = k.category))[k.number]? with
  | some s => exact get?_of_mem_keyedSites h (mem_keyedSites_of_getElem? hs)
  | none =>
      cases hget : index.get? k with
      | none => rfl
      | some d =>
          have hkey := site_mem_of_get? h hget
          have hsite : d.site ∈ (allSites items).filter (·.category = k.category) := by
            rw [List.mem_filter, decide_eq_true_eq]
            exact ⟨mem_allSites_of_mem_keyedSites hkey, (category_of_mem_keyedSites hkey).symm⟩
          obtain ⟨n, hn⟩ := List.mem_iff_getElem?.mp hsite
          have hnumber := key_eq_of_mem_keyedSites (mem_keyedSites_of_getElem? hn) hkey
          rw [← hnumber] at hs
          rw [hs] at hn
          cases hn

end DeclarationIndex

/-- Whether the names of another category are in the same map. -/
def Category.sharesNames (c other : Category) : Bool :=
  match c with
  | .function => other = .function
  | .struct => other = .struct
  | _ => other.isValue

/-- The row of a site, before it is known what the site refers to. -/
def Row.ofSite (s : Site) : Row := ⟨s.name, s.item, s.entry, s.span, .empty⟩

namespace Arena

open DeclarationIndex

/-- The keys under a name in the map of a category. -/
def named (a : Arena) (category : Category) (name : String) : List Key :=
  match category with
  | .function => (a.functionsNamed name).map (Key.mk .function)
  | .struct => (a.structsNamed name).map (Key.mk .struct)
  | _ => a.valuesNamed name

section Declare

variable (a : Arena)

theorem table_setTable (category : Category) (rows : List Row) (other : Category) :
    (a.setTable category rows).table other =
      if other = category then rows else a.table other := by
  cases category <;> cases other <;> rfl

/-- A name is noted beside the tables. -/
theorem table_addName (name : String) (key : Key) (category : Category) :
    (a.addName name key).table category = a.table category := by
  obtain ⟨keyCategory, number⟩ := key
  cases keyCategory <;> cases category <;> rfl

/-- A declared row goes to the end of its category's table, and the other tables stay. -/
theorem table_declare (category : Category) (row : Row) (other : Category) :
    (a.declare category row).table other =
      a.table other ++ if category = other then [row] else [] := by
  rw [declare, table_setTable, table_addName]
  by_cases h : category = other
  · subst h
    simp
  · simp [h, Ne.symm h]

/-- A declaration comes last under its name, in the map of its category. -/
theorem named_declare (category : Category) (row : Row) (other : Category) (name : String) :
    (a.declare category row).named other name = a.named other name ++
      if row.name = name ∧ other.sharesNames category = true then [a.nextKey category] else [] := by
  by_cases hname : row.name = name <;> cases category <;> cases other <;>
    simp [named, functionsNamed, structsNamed, valuesNamed, declare, addName, setTable, nextKey,
      NameMap.get_add, Category.sharesNames, Category.isValue, hname]

@[simp] theorem entryPoints_declare (category : Category) (row : Row) :
    (a.declare category row).entryPoints = a.entryPoints := by
  cases category <;> rfl

@[simp] theorem passthrough_declare (category : Category) (row : Row) :
    (a.declare category row).passthrough = a.passthrough := by
  cases category <;> rfl

end Declare

/-- The tables hold the sites put in so far, and the maps hold their keys. -/
structure Holds (a : Arena) (ss : List Site) : Prop where
  table : ∀ c, a.table c = (ss.filter (·.category = c)).map Row.ofSite
  named : ∀ c name, a.named c name = keysNamed ss c.sharesNames name

/-- Puts in declarations one after another. -/
def declareAll (a : Arena) (ss : List Site) : Arena :=
  ss.foldl (fun a s => a.declare s.category (.ofSite s)) a

section Fold

variable {a : Arena} {ss : List Site}

/-- The empty arena holds no site. -/
theorem holds_empty : empty.Holds [] where
  table c := by cases c <;> rfl
  named c name := by cases c <;> rfl

/-- The two lists beside the tables and the maps do not matter. -/
theorem Holds.of_tables (h : a.Holds ss) {a' : Arena} (htable : ∀ c, a'.table c = a.table c)
    (hnamed : ∀ c name, a'.named c name = a.named c name) : a'.Holds ss where
  table c := (htable c).trans (h.table c)
  named c name := (hnamed c name).trans (h.named c name)

/-- Noting an entry point changes no table and no name. -/
theorem Holds.noteEntry (h : a.Holds ss) (f : Signature) : (a.noteEntry f).Holds ss := by
  rw [Arena.noteEntry]
  cases f.entry with
  | none => exact h
  | some e => exact h.of_tables (fun c => by cases c <;> rfl) fun c _ => by cases c <;> rfl

theorem Holds.length_table (h : a.Holds ss) (c : Category) :
    (a.table c).length = (ss.filter (·.category = c)).length := by
  rw [h.table, List.length_map]

/-- Declaring a site is the step by which an arena comes to hold one more. -/
theorem Holds.declare (h : a.Holds ss) (s : Site) :
    (a.declare s.category (.ofSite s)).Holds (ss ++ [s]) where
  table c := by
    rw [table_declare, h.table, List.filter_append, List.map_append]
    by_cases hc : s.category = c <;> simp [hc]
  named c name := by
    rw [named_declare, keysNamed_concat, h.named, nextKey, h.length_table]
    rfl

/-- The sites of an item are declared one after the other. -/
theorem Holds.declareAll (h : a.Holds ss) (more : List Site) :
    (a.declareAll more).Holds (ss ++ more) := by
  induction more generalizing a ss with
  | nil => rwa [List.append_nil]
  | cons s rest ih =>
      have hrest := ih (h.declare s)
      rwa [List.append_assoc] at hrest

@[simp] theorem entryPoints_declareAll (a : Arena) (more : List Site) :
    (a.declareAll more).entryPoints = a.entryPoints := by
  induction more generalizing a with
  | nil => rfl
  | cons s rest ih => exact (ih _).trans (entryPoints_declare ..)

@[simp] theorem passthrough_declareAll (a : Arena) (more : List Site) :
    (a.declareAll more).passthrough = a.passthrough := by
  induction more generalizing a with
  | nil => rfl
  | cons s rest ih => exact (ih _).trans (passthrough_declare ..)

/-- A block of entries is declared as the sites it gives. -/
theorem declareEntries_eq {α : Type} (a : Arena) (category : Category) (item : Nat)
    (name : α → String) (span : α → Span) (entries : List α) :
    a.declareEntries category item name span entries =
      a.declareAll (blockSites category item name span entries) := by
  rw [declareAll, blockSites, List.foldl_map]
  rfl

end Fold

/-- The items so far have been put in. -/
structure Registered (a : Arena) (items : List Stmt) : Prop where
  holds : a.Holds (allSites items)
  entryPoints : a.entryPoints = entryNumbers 0 items
  passthrough : a.passthrough = libraryPositions 0 items

section Run

variable {a : Arena} {items : List Stmt}

theorem registered_empty : empty.Registered [] := ⟨holds_empty, rfl, rfl⟩

/-- What one item adds to the tables and to the two lists beside them. -/
theorem Registered.concat (h : a.Registered items) {item : Stmt} {a' : Arena}
    (hholds : a'.Holds (allSites items ++ sites items.length item))
    (hentry : a'.entryPoints = a.entryPoints ++ entryNumbers a.functions.length [item])
    (hlibrary : a'.passthrough = a.passthrough ++ libraryPositions items.length [item]) :
    a'.Registered (items ++ [item]) where
  holds := by rwa [allSites_concat]
  entryPoints := by
    have hlength : a.functions.length = (DeclarationIndex.functions items).length :=
      (h.holds.length_table .function).trans (length_functions items).symm
    rw [entryNumbers_concat, hentry, h.entryPoints, hlength]
  passthrough := by rw [libraryPositions_concat, hlibrary, h.passthrough]

/-- An item that is neither a function nor a library adds its declarations alone. -/
theorem Registered.declareAll (h : a.Registered items) (item : Stmt)
    (hfunction : DeclarationIndex.functions [item] = [])
    (hlibrary : libraryPositions items.length [item] = []) :
    (a.declareAll (sites items.length item)).Registered (items ++ [item]) := by
  refine h.concat (h.holds.declareAll _) ?_ ?_
  · simp [entryNumbers, hfunction]
  · simp [hlibrary]

/-- An item that declares nothing and is no library is passed over. -/
theorem Registered.ignored (h : a.Registered items) (item : Stmt)
    (hsites : sites items.length item = []) (hfunction : DeclarationIndex.functions [item] = [])
    (hlibrary : libraryPositions items.length [item] = []) : a.Registered (items ++ [item]) := by
  have hdeclared := h.declareAll item hfunction hlibrary
  rwa [hsites] at hdeclared

/-- Any item but an optional block is put in. -/
theorem Registered.register (h : a.Registered items) {item : Stmt}
    (hitem : ∀ s condition body otherwise, item ≠ .optional s condition body otherwise) :
    ∃ a', a.register items.length item = .ok a' ∧ a'.Registered (items ++ [item]) := by
  -- Only functions and libraries add to the lists beside the tables.
  cases item with
  | function s f body =>
      refine ⟨_, rfl, h.concat ((h.holds.noteEntry f).declare
        ⟨.function, f.name, items.length, none, s⟩) ?_ ?_⟩
      · rw [entryPoints_declare, noteEntry]
        cases he : f.entry <;> simp [entryNumbers, DeclarationIndex.functions, he]
      · rw [passthrough_declare, noteEntry]
        cases f.entry <;> simp [libraryPositions]
  | library s path =>
      refine ⟨_, rfl, h.concat ?_ ?_ rfl⟩
      · have hsites : sites items.length (.library s path) = [] := rfl
        rw [hsites, List.append_nil]
        exact h.holds.of_tables (fun c => by cases c <;> rfl) fun c _ => by cases c <;> rfl
      · simp [entryNumbers, DeclarationIndex.functions]
  | optional s condition body otherwise => exact absurd rfl (hitem s condition body otherwise)
  | inputs s vs =>
      exact ⟨_, rfl, declareEntries_eq a .. ▸ h.declareAll (.inputs s vs) rfl rfl⟩
  | outputs s vs =>
      exact ⟨_, rfl, declareEntries_eq a .. ▸ h.declareAll (.outputs s vs) rfl rfl⟩
  | externals s vs =>
      exact ⟨_, rfl, declareEntries_eq a .. ▸ h.declareAll (.externals s vs) rfl rfl⟩
  | consts s ds =>
      exact ⟨_, rfl, declareEntries_eq a .. ▸ h.declareAll (.consts s ds) rfl rfl⟩
  | options s ds =>
      exact ⟨_, rfl, declareEntries_eq a .. ▸ h.declareAll (.options s ds) rfl rfl⟩
  | struct s d => exact ⟨_, rfl, h.declareAll (.struct s d) rfl rfl⟩
  | var s d => exact ⟨_, rfl, h.declareAll (.var s d) rfl rfl⟩
  | _ => exact ⟨a, rfl, h.ignored _ rfl rfl rfl⟩

/-- All items are put in, one after another. -/
theorem Registered.registerAll (h : a.Registered items) {rest : List Stmt}
    (hrest : ∀ s condition body otherwise, .optional s condition body otherwise ∉ rest) :
    ∃ a', (rest.zipIdx items.length).foldlM (fun a (s, i) => a.register i s) a = .ok a' ∧
      a'.Registered (items ++ rest) := by
  induction rest generalizing a items with
  | nil => exact ⟨a, rfl, by rwa [List.append_nil]⟩
  | cons item rest ih =>
      obtain ⟨next, hnext, hregistered⟩ := h.register fun s condition body otherwise heq =>
        hrest s condition body otherwise (heq ▸ List.mem_cons_self)
      obtain ⟨a', hrun, ha'⟩ := ih hregistered fun s condition body otherwise hmem =>
        hrest s condition body otherwise (List.mem_cons_of_mem _ hmem)
      rw [List.length_append, List.length_singleton] at hrun
      rw [List.append_assoc] at ha'
      refine ⟨a', ?_, ha'⟩
      simp only [List.zipIdx_cons, List.foldlM_cons, hnext, Except.ok_bind]
      exact hrun

/-- The first optional block ends the run. -/
theorem Registered.registerAll_error (h : a.Registered items) {rest : List Stmt} {span : Span}
    (hrest : unspecialized? rest = some span) :
    (rest.zipIdx items.length).foldlM (fun a (s, i) => a.register i s) a =
      .error (.unspecialized span) := by
  induction rest generalizing a items with
  | nil => cases hrest
  | cons item rest ih =>
      simp only [List.zipIdx_cons, List.foldlM_cons]
      by_cases hitem : ∃ s condition body otherwise, item = .optional s condition body otherwise
      · obtain ⟨s, condition, body, otherwise, rfl⟩ := hitem
        cases hrest
        rfl
      · have hplain : ∀ s condition body otherwise,
            item ≠ .optional s condition body otherwise :=
          fun s condition body otherwise heq => hitem ⟨s, condition, body, otherwise, heq⟩
        obtain ⟨next, hnext, hregistered⟩ := h.register hplain
        have hlater : unspecialized? rest = some span := by
          cases item with
          | optional s condition body otherwise =>
              exact absurd rfl (hplain s condition body otherwise)
          | _ => exact hrest
        have hrun := ih hregistered hlater
        rw [List.length_append, List.length_singleton] at hrun
        rw [hnext, Except.ok_bind]
        exact hrun

end Run

section Collect

variable {items : List Stmt} {externals : List String} {a : Arena} {ks : List Key}

/-- A declaration with what it refers to. -/
def filled (items : List Stmt) (externals : List String) (d : Declaration) : Declaration :=
  { d with uses := usesOf items externals d.site }

/-- All of an arena but its tables. -/
def besideTables (a : Arena) :
    List (Nat × EntryPoint) × List Nat × NameMap Nat × NameMap Nat × NameMap Key :=
  (a.entryPoints, a.passthrough, a.functionsByName, a.structsByName, a.valuesByName)

/-- Collecting a declaration's references changes nothing beside the tables. -/
theorem besideTables_collect (key : Key) :
    (collect items externals a key).besideTables = a.besideTables := by
  rw [collect]
  cases key.category <;> rfl

/-- Collecting references neither adds nor removes a key. -/
theorem keys_collect (key : Key) : (collect items externals a key).keys = a.keys := by
  rw [keys, keys]
  refine List.flatMap_congr fun c _ => ?_
  rw [collect, table_setTable]
  by_cases hc : c = key.category
  · rw [if_pos hc, List.length_modify, hc]
  · rw [if_neg hc]

/-- Collecting for a key fills in that declaration and leaves the others. -/
theorem get?_collect (key k : Key) :
    (collect items externals a key).get? k =
      if k = key then (a.get? k).map (filled items externals) else a.get? k := by
  obtain ⟨c, n⟩ := k
  obtain ⟨category, number⟩ := key
  rw [collect, get?, get?, table_setTable]
  by_cases hc : c = category
  · subst hc
    rw [if_pos rfl, List.getElem?_modify]
    by_cases hn : number = n
    · subst hn
      cases (a.table c)[number]? <;> simp [filled, Row.declaration, Row.site, Declaration.site]
    · simp [hn, Ne.symm hn]
  · rw [if_neg hc, if_neg (by simp [hc])]

theorem besideTables_foldl_collect :
    (ks.foldl (collect items externals) a).besideTables = a.besideTables := by
  induction ks generalizing a with
  | nil => rfl
  | cons key rest ih => exact ih.trans (besideTables_collect key)

theorem keys_foldl_collect : (ks.foldl (collect items externals) a).keys = a.keys := by
  induction ks generalizing a with
  | nil => rfl
  | cons key rest ih => exact ih.trans (keys_collect key)

/-- Every key in the list has had its declaration filled in, and no other. -/
theorem get?_foldl_collect (k : Key) :
    (ks.foldl (collect items externals) a).get? k =
      if k ∈ ks then (a.get? k).map (filled items externals) else a.get? k := by
  -- Filling in twice changes nothing, so it does not matter how often a key occurs.
  have htwice : filled items externals ∘ filled items externals = filled items externals := rfl
  induction ks generalizing a with
  | nil => simp
  | cons key rest ih =>
      rw [List.foldl_cons, ih, get?_collect]
      by_cases hkey : k = key <;> by_cases hrest : k ∈ rest <;> simp [hkey, hrest, htwice]

/-- A key is listed exactly where a declaration answers it. -/
theorem mem_keys_iff (k : Key) : k ∈ a.keys ↔ ∃ d, a.get? k = some d := by
  obtain ⟨c, n⟩ := k
  have hcategory : c ∈ Category.all := by cases c <;> decide
  simp [keys, get?, hcategory, List.getElem?_eq_some_iff]

/-- Every declaration is filled in. -/
theorem get?_foldl_collect_keys (k : Key) :
    (a.keys.foldl (collect items externals) a).get? k =
      (a.get? k).map (filled items externals) := by
  rw [get?_foldl_collect]
  split
  next => rfl
  next hk =>
    rw [mem_keys_iff, ← Option.isSome_iff_exists, Option.not_isSome_iff_eq_none] at hk
    rw [hk, Option.map_none]

end Collect

/-- An arena answers every question as the index does. -/
structure Represents (a : Arena) (index : DeclarationIndex) : Prop where
  keys : a.keys = index.keys
  get? : ∀ k, a.get? k = index.get? k
  functionsNamed : ∀ name,
    (a.functionsNamed name).map (Key.mk .function) = index.functionsNamed name
  structsNamed : ∀ name, (a.structsNamed name).map (Key.mk .struct) = index.structsNamed name
  valuesNamed : ∀ name, a.valuesNamed name = index.valuesNamed name
  entryPoints : a.entryPoints = index.entryPoints
  passthrough : a.passthrough = index.passthrough

section Answers

variable {a : Arena} {items : List Stmt} {index : DeclarationIndex}

/-- The external names the collector is given are those of all external blocks. -/
theorem Registered.externals (h : a.Registered items) :
    a.externals.map (·.name) = externalNames items := by
  have htable : a.externals = _ := h.holds.table .external
  rw [htable, List.map_map]
  rfl

/-- Once filled in, a key answers with the declaration of its site. -/
theorem Registered.get? (h : a.Registered items) (k : Key) :
    (a.get? k).map (filled items (externalNames items)) =
      ((allSites items).filter (·.category = k.category))[k.number]?.map
        fun s => declarationOf items (s, k) := by
  rw [Arena.get?, h.holds.table, List.getElem?_map, Option.map_map, Option.map_map]
  rfl

/-- The arena with every declaration filled in represents the declarative index. -/
theorem Registered.represents (h : a.Registered items)
    (hindex : DeclarationIndex.build items = .ok index) :
    (a.keys.foldl (collect items (a.externals.map (·.name))) a).Represents index := by
  have hbeside : (a.keys.foldl (collect items (a.externals.map (·.name))) a).besideTables =
      a.besideTables := besideTables_foldl_collect
  simp only [besideTables, Prod.mk.injEq] at hbeside
  obtain ⟨hentry, hlibrary, hfunctions, hstructs, hvalues⟩ := hbeside
  constructor
  case keys =>
    rw [keys_foldl_collect, keys_eq hindex, Arena.keys]
    exact List.flatMap_congr fun c _ => by rw [h.holds.length_table]
  case get? =>
    intro k
    rw [get?_foldl_collect_keys, h.externals, h.get?, get?_eq hindex]
  case functionsNamed =>
    intro name
    rw [Arena.functionsNamed, hfunctions]
    exact (h.holds.named .function name).trans (named_eq hindex _ name).symm
  case structsNamed =>
    intro name
    rw [Arena.structsNamed, hstructs]
    exact (h.holds.named .struct name).trans (named_eq hindex _ name).symm
  case valuesNamed =>
    intro name
    rw [Arena.valuesNamed, hvalues]
    exact (h.holds.named .global name).trans (named_eq hindex _ name).symm
  case entryPoints => exact hentry.trans (h.entryPoints.trans (entryPoints_of_build hindex).symm)
  case passthrough => exact hlibrary.trans (h.passthrough.trans (passthrough_of_build hindex).symm)

/-- The arena is refused for the block for which the index is. -/
theorem build_eq_error_iff (items : List Stmt) (e : ExtractError) :
    Arena.build items = .error e ↔ DeclarationIndex.build items = .error e := by
  cases hspan : unspecialized? items with
  | some span =>
      have hrun := registered_empty.registerAll_error hspan
      rw [List.length_nil] at hrun
      rw [Arena.build, hrun, Except.error_bind, DeclarationIndex.build, hspan]
      simp
  | none =>
      obtain ⟨index, hindex⟩ := build_eq_ok_iff.mpr hspan
      obtain ⟨a, hrun, -⟩ := registered_empty.registerAll
        ((Extractor.unspecialized?_eq_none_iff items).mp hspan)
      rw [List.length_nil] at hrun
      rw [Arena.build, hrun, Except.ok_bind, hindex]
      exact iff_of_false (fun herror => by cases herror) fun herror => by cases herror

end Answers

end Arena

namespace DeclarationIndex

/-- Items without optional blocks have an index, which is faithful to them, and the tables
that are filled item by item answer as the index does. -/
theorem build_faithful {items : List Stmt}
    (h : ∀ s condition body otherwise, .optional s condition body otherwise ∉ items) :
    ∃ index arena, build items = .ok index ∧ index.Faithful items ∧
      Arena.build items = .ok arena ∧ arena.Represents index := by
  obtain ⟨index, hindex⟩ := build_eq_ok_iff.mpr ((Extractor.unspecialized?_eq_none_iff items).mpr h)
  obtain ⟨a, hrun, ha⟩ := Arena.registered_empty.registerAll h
  refine ⟨index, _, hindex, faithful_of_build hindex, ?_, ha.represents hindex⟩
  rw [Arena.build]
  exact Except.bind_eq_ok_iff.mpr ⟨a, hrun, rfl⟩

/-- Two functions of one name, of which the second is an entry, a block with an entry of the
name of a global, a library, and a statement that declares nothing. -/
def mixedItems : List Stmt :=
  [.function .dummy ⟨"shade", [], .void, none⟩ [],
    .inputs .dummy [⟨"uv", .prim .float, .location 0, .dummy⟩,
      ⟨"tint", .prim .float, .location 1, .dummy⟩],
    .library .dummy ["lighting"],
    .discard .dummy,
    .function .dummy ⟨"shade", [], .void, some ⟨.fragment, none⟩⟩
      [.expr .dummy (.ref .dummy "tint")],
    .var .dummy ⟨"tint", .prim .float, false, none⟩]

/-- Every kind of item at once is registered and then answered faithfully. -/
theorem mixedItems_faithful :
    (∀ s condition body otherwise, .optional s condition body otherwise ∉ mixedItems) ∧
      ∃ index arena, build mixedItems = .ok index ∧ index.Faithful mixedItems ∧
        Arena.build mixedItems = .ok arena ∧ arena.Represents index ∧
        index.keys.length = 5 ∧ index.entryPoints = [(1, ⟨.fragment, none⟩)] ∧
        index.valuesNamed "tint" = [⟨.input, 1⟩, ⟨.global, 0⟩] := by
  have hplain : ∀ s condition body otherwise,
      .optional s condition body otherwise ∉ mixedItems := by
    simp [mixedItems]
  obtain ⟨index, arena, hindex, hfaithful, harena, hrepresents⟩ := build_faithful hplain
  refine ⟨hplain, index, arena, hindex, hfaithful, harena, hrepresents, ?_⟩
  cases hindex
  exact ⟨rfl, rfl, rfl⟩

end DeclarationIndex

end Shading
