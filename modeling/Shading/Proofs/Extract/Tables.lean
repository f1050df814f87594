import Shading.Extract.Tables
import Shading.Proofs.Extract.Registration

/-!
# The tables of a reflection stay consistent

However registrations are mixed, and whether they are refused or not, the maps of a reflection
find exactly what its lists hold, and a refused registration changes nothing. All maps are of
one kind: a map holds for each key the position of the last entry with this key.
-/

namespace Shading

section Tracking

variable {α κ : Type} [BEq κ] [LawfulBEq κ] [DecidableEq κ]
variable {key : α → Option κ} {entries : List α} {map : Positions κ}

/-- The map holds for each key the position of the last entry with this key. An entry without a
key is in the list alone. -/
structure Tracks (key : α → Option κ) (entries : List α) (map : Positions κ) : Prop where
  lt : ∀ k i, map.lookup k = some i → i < entries.length
  get : ∀ k, (map.lookup k).bind (entries[·]?) = entries.reverse.find? (key · = some k)

/-- No key comes twice in the list that the map tracks. -/
structure TracksOnce (key : α → Option κ) (entries : List α) (map : Positions κ) : Prop
    extends Tracks key entries map where
  nodup : (entries.filterMap key).Nodup

/-- A lookup finds something for exactly the keys that occur in the list, and what it finds is an
entry with the key. -/
structure Finds (key : α → Option κ) (entries : List α) (find : κ → Option α) : Prop where
  isSome_iff : ∀ k, (find k).isSome = true ↔ ∃ e ∈ entries, key e = some k
  mem : ∀ k e, find k = some e → e ∈ entries ∧ key e = some k

/-- No key occurs twice in the list, so the entry that a lookup finds is the only one with the
key. -/
structure FindsOnly (key : α → Option κ) (entries : List α) (find : κ → Option α) : Prop
    extends Finds key entries find where
  nodup : (entries.filterMap key).Nodup
  only : ∀ k, ∀ e ∈ entries, key e = some k → find k = some e

namespace Tracks

omit [LawfulBEq κ] in
theorem empty (key : α → Option κ) : Tracks key [] ([] : Positions κ) := ⟨by simp, fun _ => rfl⟩

omit [LawfulBEq κ] in
/-- A new entry does not move those before it. -/
theorem bind_append (h : Tracks key entries map) (a : α) (k : κ) :
    (map.lookup k).bind ((entries ++ [a])[·]?) = (map.lookup k).bind (entries[·]?) := by
  cases hi : map.lookup k with
  | none => rfl
  | some i => exact List.getElem?_append_left (h.lt k i hi)

/-- A new entry comes with its position. -/
theorem push (h : Tracks key entries map) {a : α} {k : κ} (hk : key a = some k) :
    Tracks key (entries ++ [a]) ((k, entries.length) :: map) := by
  refine ⟨fun k' i hi => ?_, fun k' => ?_⟩
  · rw [List.lookup_cons] at hi
    split at hi
    · cases hi
      simp
    · have hlt := h.lt k' i hi
      simp only [List.length_append, List.length_singleton]
      omega
  · rw [List.reverse_append, List.reverse_singleton, List.singleton_append, List.find?_cons,
      List.lookup_cons]
    by_cases hkey : k' = k
    · rw [hkey, beq_self_eq_true, hk, decide_eq_true rfl]
      exact List.getElem?_concat_length
    · rw [beq_false_of_ne hkey, hk, decide_eq_false (fun h => hkey (Option.some.inj h).symm)]
      exact (h.bind_append a k').trans (h.get k')

omit [LawfulBEq κ] in
/-- An entry without a key leaves the map as it is. -/
theorem pushKeyless (h : Tracks key entries map) {a : α} (ha : key a = none) :
    Tracks key (entries ++ [a]) map := by
  refine ⟨fun k i hi => ?_, fun k => ?_⟩
  · have hlt := h.lt k i hi
    simp only [List.length_append, List.length_singleton]
    omega
  · rw [List.reverse_append, List.reverse_singleton, List.singleton_append, List.find?_cons, ha,
      decide_eq_false (by simp)]
    exact (h.bind_append a k).trans (h.get k)

omit [LawfulBEq κ] in
/-- A key is answered where an entry has it. -/
theorem isSome_iff (h : Tracks key entries map) (k : κ) :
    ((map.lookup k).bind (entries[·]?)).isSome = true ↔ ∃ e ∈ entries, key e = some k := by
  rw [h.get k, List.find?_isSome]
  simp

omit [LawfulBEq κ] in
theorem lookup_isSome_iff (h : Tracks key entries map) (k : κ) :
    (map.lookup k).isSome = true ↔ ∃ e ∈ entries, key e = some k := by
  rw [← h.isSome_iff]
  cases hi : map.lookup k with
  | none => rfl
  | some i => simp [h.lt k i hi]

omit [LawfulBEq κ] in
/-- The answer is an entry with the key. -/
theorem mem_of_eq_some (h : Tracks key entries map) {k : κ} {e : α}
    (he : (map.lookup k).bind (entries[·]?) = some e) : e ∈ entries ∧ key e = some k := by
  rw [h.get k] at he
  have hkey := List.find?_some he
  exact ⟨List.mem_reverse.mp (List.mem_of_find?_eq_some he), of_decide_eq_true hkey⟩

omit [LawfulBEq κ] in
theorem finds (h : Tracks key entries map) :
    Finds key entries fun k => (map.lookup k).bind (entries[·]?) :=
  ⟨h.isSome_iff, fun _ _ => h.mem_of_eq_some⟩

end Tracks

omit [BEq κ] [LawfulBEq κ] in
/-- Where no key comes twice the entry with a key is the only one. -/
theorem find?_eq_some_iff_of_nodup (h : (entries.filterMap key).Nodup) (k : κ) (e : α) :
    entries.find? (key · = some k) = some e ↔ e ∈ entries ∧ key e = some k := by
  induction entries with
  | nil => simp
  | cons a rest ih =>
      have hrest : (rest.filterMap key).Nodup :=
        h.sublist ((List.sublist_cons_self a rest).filterMap key)
      rw [List.find?_cons]
      by_cases ha : key a = some k
      · rw [List.filterMap_cons_some ha, List.nodup_cons] at h
        have honly : e ∈ rest → key e ≠ some k := fun he hk =>
          h.1 (List.mem_filterMap.mpr ⟨e, he, hk⟩)
        rw [decide_eq_true ha, List.mem_cons]
        constructor
        · intro heq
          obtain rfl := Option.some.inj heq
          exact ⟨.inl rfl, ha⟩
        · rintro ⟨rfl | he, hk⟩
          · rfl
          · exact absurd hk (honly he)
      · rw [decide_eq_false ha, ih hrest, List.mem_cons]
        constructor
        · exact fun ⟨he, hk⟩ => ⟨.inr he, hk⟩
        · rintro ⟨rfl | he, hk⟩
          · exact absurd hk ha
          · exact ⟨he, hk⟩

namespace TracksOnce

omit [LawfulBEq κ] in
theorem empty (key : α → Option κ) : TracksOnce key [] ([] : Positions κ) :=
  ⟨.empty key, List.nodup_nil⟩

/-- A new entry may join the others if its key is not taken. -/
theorem push (h : TracksOnce key entries map) {a : α} {k : κ} (hk : key a = some k)
    (hfree : map.lookup k = none) :
    TracksOnce key (entries ++ [a]) ((k, entries.length) :: map) := by
  have hnotin : k ∉ entries.filterMap key := by
    intro hmem
    have hsome := (h.lookup_isSome_iff k).mpr (List.mem_filterMap.mp hmem)
    rw [hfree] at hsome
    cases hsome
  refine ⟨h.toTracks.push hk, ?_⟩
  rw [List.filterMap_append, List.filterMap_cons_some hk, List.filterMap_nil,
    ← List.concat_eq_append, List.nodup_concat]
  exact ⟨hnotin, h.nodup⟩

omit [LawfulBEq κ] in
/-- An entry without a key changes no answer. -/
theorem pushKeyless (h : TracksOnce key entries map) {a : α} (ha : key a = none) :
    TracksOnce key (entries ++ [a]) map := by
  refine ⟨h.toTracks.pushKeyless ha, ?_⟩
  rw [List.filterMap_append, List.filterMap_cons_none ha, List.filterMap_nil, List.append_nil]
  exact h.nodup

omit [LawfulBEq κ] in
/-- Where no two entries share a key, the answer is the one that has it. -/
theorem eq_some_iff (h : TracksOnce key entries map) (k : κ) (e : α) :
    (map.lookup k).bind (entries[·]?) = some e ↔ e ∈ entries ∧ key e = some k := by
  have hreverse : (entries.reverse.filterMap key).Nodup := by
    rw [List.filterMap_reverse]
    exact List.nodup_reverse.mpr h.nodup
  rw [h.get k, find?_eq_some_iff_of_nodup hreverse, List.mem_reverse]

omit [LawfulBEq κ] in
/-- The map answers what a search through the entries would. -/
theorem eq_find? (h : TracksOnce key entries map) (k : κ) :
    (map.lookup k).bind (entries[·]?) = entries.find? (key · = some k) := by
  apply Option.ext
  intro e
  rw [h.eq_some_iff, find?_eq_some_iff_of_nodup h.nodup]

omit [LawfulBEq κ] in
theorem findsOnly (h : TracksOnce key entries map) :
    FindsOnly key entries fun k => (map.lookup k).bind (entries[·]?) where
  toFinds := h.finds
  nodup := h.nodup
  only := fun k e he hk => (h.eq_some_iff k e).mpr ⟨he, hk⟩

end TracksOnce

end Tracking

namespace InterfaceTable

variable {t : InterfaceTable} {direction : Direction} {v : InterfaceVariable}

/-- Both maps of the table track its list. -/
structure Indexed (t : InterfaceTable) : Prop where
  byName : Tracks (fun e : InterfaceEntry => some e.name) t.entries t.byName
  byLocation : TracksOnce (fun e : InterfaceEntry => e.location) t.entries t.byLocation

theorem indexed_empty : empty.Indexed := ⟨.empty _, .empty _⟩

/-- A variable is refused exactly if its location is in the map. -/
theorem register_cases (t : InterfaceTable) (direction : Direction) (v : InterfaceVariable) :
    (∃ b, v.slot = .builtin b ∧ t.register direction v = (.added, t.push v)) ∨
    (∃ n, v.slot = .location n ∧ t.byLocation.lookup n = none ∧ t.register direction v =
      (.added, { t with byLocation := (n, t.entries.length) :: t.byLocation }.push v)) ∨
    ∃ n other, v.slot = .location n ∧ t.byLocation.lookup n = some other ∧
      t.register direction v =
        (.refused (.duplicateLocation v.name (t.nameAt other) n direction v.span), t) := by
  cases hv : v.slot with
  | builtin b => exact .inl ⟨b, rfl, by rw [register, hv]⟩
  | location n =>
      cases hn : t.byLocation.lookup n with
      | none => exact .inr (.inl ⟨n, rfl, hn, by simp only [register, hv, hn]⟩)
      | some other => exact .inr (.inr ⟨n, other, rfl, hn, by simp only [register, hv, hn]⟩)

/-- A refusal leaves the table as it was. -/
theorem added_or_refused (t : InterfaceTable) (direction : Direction) (v : InterfaceVariable) :
    (∃ t', t.register direction v = (.added, t')) ∨
      ∃ e, t.register direction v = (.refused e, t) := by
  rcases register_cases t direction v with ⟨b, _, hrun⟩ | ⟨n, _, _, hrun⟩ | ⟨n, _, _, _, hrun⟩
  · exact .inl ⟨_, hrun⟩
  · exact .inl ⟨_, hrun⟩
  · exact .inr ⟨_, hrun⟩

/-- Registering a variable keeps the maps in step with the entries. -/
theorem indexed_register (h : t.Indexed) : (t.register direction v).2.Indexed := by
  have hname : Tracks (fun e : InterfaceEntry => some e.name) (t.entries ++ [.ofVariable v])
      ((v.name, t.entries.length) :: t.byName) := h.byName.push rfl
  have hlocation : (InterfaceEntry.ofVariable v).location = v.slot.location? := rfl
  rcases register_cases t direction v with ⟨b, hv, hrun⟩ | ⟨n, hv, hn, hrun⟩ | ⟨n, _, _, _, hrun⟩
  · rw [hv] at hlocation
    rw [hrun]
    exact ⟨hname, h.byLocation.pushKeyless hlocation⟩
  · rw [hv] at hlocation
    rw [hrun]
    exact ⟨hname, h.byLocation.push hlocation hn⟩
  · rw [hrun]
    exact h

/-- The location of the variable occurs in the list. -/
def Taken (t : InterfaceTable) (v : InterfaceVariable) : Prop :=
  ∃ n, v.slot = .location n ∧ ∃ e ∈ t.entries, e.location = some n

/-- A variable is refused where its location is taken. -/
theorem register_ne_added_iff (h : t.Indexed) :
    (t.register direction v).1 ≠ .added ↔ t.Taken v := by
  rcases register_cases t direction v with ⟨b, hv, hrun⟩ | ⟨n, hv, hn, hrun⟩ |
    ⟨n, other, hv, hn, hrun⟩
  · rw [hrun]
    refine iff_of_false (by simp) ?_
    rintro ⟨n, hn, _⟩
    rw [hv] at hn
    cases hn
  · rw [hrun]
    refine iff_of_false (by simp) ?_
    rintro ⟨n', hn', he⟩
    obtain rfl := Slot.location.inj (hv.symm.trans hn')
    have hsome := (h.byLocation.lookup_isSome_iff n).mpr he
    rw [hn] at hsome
    cases hsome
  · rw [hrun]
    refine iff_of_true (by simp) ⟨n, hv, (h.byLocation.lookup_isSome_iff n).mp ?_⟩
    rw [hn]
    rfl

/-- A refused variable changes nothing. -/
theorem register_unchanged (hrefused : (t.register direction v).1 ≠ .added) :
    (t.register direction v).2 = t := by
  rcases added_or_refused t direction v with ⟨t', hrun⟩ | ⟨e, hrun⟩
  · exact absurd (congrArg Prod.fst hrun) hrefused
  · exact congrArg Prod.snd hrun

theorem at?_eq (h : t.Indexed) (n : Nat) : t.at? n = InterfaceEntry.at? t.entries n :=
  h.byLocation.eq_find? n

theorem named?_eq (h : t.Indexed) (name : String) :
    t.named? name = InterfaceEntry.named? t.entries name := by
  have hget := h.byName.get name
  simp only [Option.some.injEq] at hget
  exact hget

/-- The tables and the list of entries accept the same variables, with the same errors. -/
theorem register_entries (h : t.Indexed) (direction : Direction) (v : InterfaceVariable) :
    InterfaceEntry.register t.entries direction v =
      match t.register direction v with
      | (.refused e, _) => .error e
      | (_, t') => .ok t'.entries := by
  rcases register_cases t direction v with ⟨b, hv, hrun⟩ | ⟨n, hv, hn, hrun⟩ |
    ⟨n, other, hv, hn, hrun⟩
  · rw [hrun, InterfaceEntry.register, hv]
    rfl
  · have hfree : InterfaceEntry.at? t.entries n = none := by
      rw [← at?_eq h, at?, hn, Option.bind_none]
    rw [hrun, InterfaceEntry.register, hv]
    simp only [hfree]
    rfl
  · have hlt := h.byLocation.lt n other hn
    have htaken : InterfaceEntry.at? t.entries n = some t.entries[other] := by
      rw [← at?_eq h, at?, hn, Option.bind_some, List.getElem?_eq_getElem hlt]
    have hname : t.nameAt other = t.entries[other].name := by
      rw [nameAt, List.getElem?_eq_getElem hlt]
      rfl
    rw [hrun, InterfaceEntry.register, hv]
    simp only [htaken, hname]

/-- Registration in the list that a reflection holds answers as that in the table. -/
theorem answered_register (h : t.Indexed) (direction : Direction) (v : InterfaceVariable)
    {r : Reflection} {put : List InterfaceEntry → Reflection} (hput : put t.entries = r) :
    Reflection.register.answered r
        (InterfaceEntry.register t.entries direction v >>= fun entries => .ok (put entries)) =
      ((t.register direction v).1, put (t.register direction v).2.entries) := by
  have hlist := register_entries h direction v
  rcases added_or_refused t direction v with ⟨t', hrun⟩ | ⟨e, hrun⟩
  · rw [hlist, hrun]
    rfl
  · rw [hlist, hrun, hput]
    rfl

end InterfaceTable

/-- What is registered has a place or a name that the same table has taken already. -/
def Registration.Taken (t : ReflectionTables) : Registration → Prop
  | .input v => t.inputs.Taken v
  | .output v => t.outputs.Taken v
  | .external v => ∃ e ∈ t.externals, e.set = v.set ∧ e.binding = v.binding
  | .struct d => ∃ s ∈ t.structs, s.name = d.name

namespace ReflectionTables

variable {t : ReflectionTables}

/-- All maps track their lists. -/
structure Indexed (t : ReflectionTables) : Prop where
  inputs : t.inputs.Indexed
  outputs : t.outputs.Indexed
  externalsByName : Tracks (fun e : ExternalEntry => some e.name) t.externals t.externalsByName
  externalsByBinding : TracksOnce (fun e : ExternalEntry => some (e.set, e.binding)) t.externals
    t.externalsByBinding
  structsByName : TracksOnce (fun d : StructDeclaration => some d.name) t.structs t.structsByName

theorem indexed_empty : empty.Indexed :=
  ⟨InterfaceTable.indexed_empty, InterfaceTable.indexed_empty, .empty _, .empty _, .empty _⟩

theorem addExternal_cases (t : ReflectionTables) (v : ExternalVariable) :
    (t.externalsByBinding.lookup (v.set, v.binding) = none ∧ t.addExternal v =
      (.added, { t with
        externals := t.externals ++ [.ofVariable v]
        externalsByName := (v.name, t.externals.length) :: t.externalsByName
        externalsByBinding :=
          ((v.set, v.binding), t.externals.length) :: t.externalsByBinding })) ∨
    ∃ other, t.externalsByBinding.lookup (v.set, v.binding) = some other ∧ t.addExternal v =
      (.refused (.duplicateBinding v.name (t.externalNameAt other) v.set v.binding v.span), t) := by
  cases hplace : t.externalsByBinding.lookup (v.set, v.binding) with
  | none => exact .inl ⟨rfl, by simp only [addExternal, hplace]⟩
  | some other => exact .inr ⟨other, rfl, by simp only [addExternal, hplace]⟩

theorem addStruct_cases (t : ReflectionTables) (d : StructDeclaration) :
    (t.structsByName.lookup d.name = none ∧ t.addStruct d =
      (.added, { t with
        structs := t.structs ++ [d]
        structsByName := (d.name, t.structs.length) :: t.structsByName })) ∨
    ∃ other, t.structsByName.lookup d.name = some other ∧ t.addStruct d = (.known, t) := by
  cases hname : t.structsByName.lookup d.name with
  | none => exact .inl ⟨rfl, by simp only [addStruct, hname]⟩
  | some other => exact .inr ⟨other, rfl, by simp only [addStruct, hname]⟩

/-- One registration keeps all maps in step with their lists. -/
theorem indexed_register (h : t.Indexed) (call : Registration) : (t.register call).2.Indexed := by
  cases call with
  | input v => exact { h with inputs := InterfaceTable.indexed_register h.inputs }
  | output v => exact { h with outputs := InterfaceTable.indexed_register h.outputs }
  | external v =>
      rw [register]
      rcases addExternal_cases t v with ⟨hfree, hrun⟩ | ⟨other, -, hrun⟩
      · rw [hrun]
        exact { h with
          externalsByName := h.externalsByName.push rfl
          externalsByBinding := h.externalsByBinding.push rfl hfree }
      · rw [hrun]
        exact h
  | struct d =>
      rw [register]
      rcases addStruct_cases t d with ⟨hfree, hrun⟩ | ⟨other, -, hrun⟩
      · rw [hrun]
        exact { h with structsByName := h.structsByName.push rfl hfree }
      · rw [hrun]
        exact h

/-- A call is refused where what it wants is taken. -/
theorem register_ne_added_iff (h : t.Indexed) (call : Registration) :
    (t.register call).1 ≠ .added ↔ call.Taken t := by
  cases call with
  | input v => exact InterfaceTable.register_ne_added_iff h.inputs
  | output v => exact InterfaceTable.register_ne_added_iff h.outputs
  | external v =>
      have htaken := h.externalsByBinding.lookup_isSome_iff (v.set, v.binding)
      simp only [Option.some.injEq, Prod.mk.injEq] at htaken
      rw [Registration.Taken, ← htaken, register]
      rcases addExternal_cases t v with ⟨hfree, hrun⟩ | ⟨other, hother, hrun⟩
      · rw [hrun, hfree]
        simp
      · rw [hrun, hother]
        simp
  | struct d =>
      have htaken := h.structsByName.lookup_isSome_iff d.name
      simp only [Option.some.injEq] at htaken
      rw [Registration.Taken, ← htaken, register]
      rcases addStruct_cases t d with ⟨hfree, hrun⟩ | ⟨other, hother, hrun⟩
      · rw [hrun, hfree]
        simp
      · rw [hrun, hother]
        simp

/-- A refused call changes nothing. -/
theorem register_unchanged {call : Registration} (hrefused : (t.register call).1 ≠ .added) :
    (t.register call).2 = t := by
  cases call with
  | input v =>
      exact congrArg (fun inputs => { t with inputs }) (InterfaceTable.register_unchanged hrefused)
  | output v =>
      exact congrArg (fun outputs => { t with outputs })
        (InterfaceTable.register_unchanged hrefused)
  | external v =>
      rcases addExternal_cases t v with ⟨-, hrun⟩ | ⟨_, -, hrun⟩
      · exact absurd (congrArg Prod.fst hrun) hrefused
      · exact congrArg Prod.snd hrun
  | struct d =>
      rcases addStruct_cases t d with ⟨-, hrun⟩ | ⟨_, -, hrun⟩
      · exact absurd (congrArg Prod.fst hrun) hrefused
      · exact congrArg Prod.snd hrun

theorem externalAt?_eq (h : t.Indexed) (set binding : Nat) :
    t.externalAt? set binding = t.reflection.externalAt? set binding := by
  have hfind := h.externalsByBinding.eq_find? (set, binding)
  simp only [Option.some.injEq, Prod.mk.injEq, Bool.decide_and] at hfind
  exact hfind

theorem struct?_eq (h : t.Indexed) (name : String) :
    t.struct? name = t.reflection.struct? name := by
  have hfind := h.structsByName.eq_find? name
  simp only [Option.some.injEq] at hfind
  exact hfind

theorem external?_eq (h : t.Indexed) (name : String) :
    t.external? name = t.reflection.external? name := by
  have hget := h.externalsByName.get name
  simp only [Option.some.injEq] at hget
  exact hget

/-- The lists alone answer as the tables do. -/
theorem register_reflection (h : t.Indexed) (call : Registration) :
    t.reflection.register call = ((t.register call).1, (t.register call).2.reflection) := by
  cases call with
  | input v => exact InterfaceTable.answered_register h.inputs .input v rfl
  | output v => exact InterfaceTable.answered_register h.outputs .output v rfl
  | external v =>
      have hat := externalAt?_eq h v.set v.binding
      rw [externalAt?] at hat
      rw [Reflection.register, Reflection.addExternal, ← hat, register]
      rcases addExternal_cases t v with ⟨hfree, hrun⟩ | ⟨other, hother, hrun⟩
      · rw [hfree, hrun]
        rfl
      · have hlt := h.externalsByBinding.lt _ other hother
        have hname : t.externalNameAt other = t.externals[other].name := by
          rw [externalNameAt, List.getElem?_eq_getElem hlt]
          rfl
        rw [hother, hrun, Option.bind_some, List.getElem?_eq_getElem hlt, hname]
        rfl
  | struct d =>
      have hstruct := struct?_eq h d.name
      rw [struct?] at hstruct
      rw [Reflection.register, Reflection.addStruct?, ← hstruct, register]
      rcases addStruct_cases t d with ⟨hfree, hrun⟩ | ⟨other, hother, hrun⟩
      · rw [hfree, hrun]
        rfl
      · have hlt := h.structsByName.lt _ other hother
        rw [hother, hrun, Option.bind_some, List.getElem?_eq_getElem hlt]

/-- Each of the seven lookups finds what its list holds, and no map holds a position past the end
of its list. -/
structure Consistent (t : ReflectionTables) : Prop where
  input : Finds (fun e => some e.name) t.inputs.entries t.input?
  output : Finds (fun e => some e.name) t.outputs.entries t.output?
  external : Finds (fun e => some e.name) t.externals t.external?
  struct : FindsOnly (fun d => some d.name) t.structs t.struct?
  inputAt : FindsOnly (fun e => e.location) t.inputs.entries t.inputAt?
  outputAt : FindsOnly (fun e => e.location) t.outputs.entries t.outputAt?
  externalAt : FindsOnly (fun e => some (e.set, e.binding)) t.externals fun place =>
    t.externalAt? place.1 place.2
  inputs_lt : ∀ name i, t.inputs.byName.lookup name = some i → i < t.inputs.entries.length
  outputs_lt : ∀ name i, t.outputs.byName.lookup name = some i → i < t.outputs.entries.length
  externals_lt : ∀ name i, t.externalsByName.lookup name = some i → i < t.externals.length
  structs_lt : ∀ name i, t.structsByName.lookup name = some i → i < t.structs.length
  inputsAt_lt : ∀ n i, t.inputs.byLocation.lookup n = some i → i < t.inputs.entries.length
  outputsAt_lt : ∀ n i, t.outputs.byLocation.lookup n = some i → i < t.outputs.entries.length
  externalsAt_lt : ∀ p i, t.externalsByBinding.lookup p = some i → i < t.externals.length

/-- Tables whose maps are in step answer consistently. -/
theorem Indexed.consistent (h : t.Indexed) : t.Consistent where
  input := h.inputs.byName.finds
  output := h.outputs.byName.finds
  external := h.externalsByName.finds
  struct := h.structsByName.findsOnly
  inputAt := h.inputs.byLocation.findsOnly
  outputAt := h.outputs.byLocation.findsOnly
  externalAt := h.externalsByBinding.findsOnly
  inputs_lt := h.inputs.byName.lt
  outputs_lt := h.outputs.byName.lt
  externals_lt := h.externalsByName.lt
  structs_lt := h.structsByName.lt
  inputsAt_lt := h.inputs.byLocation.lt
  outputsAt_lt := h.outputs.byLocation.lt
  externalsAt_lt := h.externalsByBinding.lt

/-- The tables hold the lists of a reflection and find what it finds in them. -/
structure Represents (t : ReflectionTables) (r : Reflection) : Prop where
  reflection : t.reflection = r
  input : ∀ name, t.input? name = r.input? name
  output : ∀ name, t.output? name = r.output? name
  external : ∀ name, t.external? name = r.external? name
  struct : ∀ name, t.struct? name = r.struct? name
  inputAt : ∀ location, t.inputAt? location = r.inputAt? location
  outputAt : ∀ location, t.outputAt? location = r.outputAt? location
  externalAt : ∀ set binding, t.externalAt? set binding = r.externalAt? set binding

/-- Tables whose maps are in step represent their reflection. -/
theorem Indexed.represents (h : t.Indexed) : t.Represents t.reflection where
  reflection := rfl
  input := InterfaceTable.named?_eq h.inputs
  output := InterfaceTable.named?_eq h.outputs
  external := external?_eq h
  struct := struct?_eq h
  inputAt := InterfaceTable.at?_eq h.inputs
  outputAt := InterfaceTable.at?_eq h.outputs
  externalAt := externalAt?_eq h

/-- A run of registrations keeps the maps in step, and goes as it does on the lists alone. -/
theorem foldl_register (h : t.Indexed) (calls : List Registration) :
    (calls.foldl (fun t call => (t.register call).2) t).Indexed ∧
      (calls.foldl (fun t call => (t.register call).2) t).reflection =
        calls.foldl (fun r call => (r.register call).2) t.reflection := by
  induction calls generalizing t with
  | nil => exact ⟨h, rfl⟩
  | cons call rest ih =>
      obtain ⟨hindexed, hlists⟩ := ih (indexed_register h call)
      rw [List.foldl_cons, List.foldl_cons, register_reflection h call]
      exact ⟨hindexed, hlists⟩

/-- After any mix of registrations the lookups find exactly what the lists hold. The next call is
refused exactly if its place or its name is taken in its own table, and then nothing changes.
The reflection without maps holds the same lists and answers alike. -/
theorem afterAll_consistent (calls : List Registration) :
    (afterAll calls).Consistent ∧
    (afterAll calls).Represents (Reflection.afterAll calls) ∧
    ∀ call, (((afterAll calls).register call).1 ≠ .added ↔ call.Taken (afterAll calls)) ∧
      (((afterAll calls).register call).1 ≠ .added →
        ((afterAll calls).register call).2 = afterAll calls) ∧
      ((Reflection.afterAll calls).register call).1 = ((afterAll calls).register call).1 := by
  obtain ⟨hindexed, hrun⟩ := foldl_register indexed_empty calls
  have hlists : (afterAll calls).reflection = Reflection.afterAll calls := hrun
  have hrepresents : (afterAll calls).Represents (Reflection.afterAll calls) :=
    hlists ▸ Indexed.represents hindexed
  refine ⟨hindexed.consistent, hrepresents, fun call => ⟨?_, register_unchanged, ?_⟩⟩
  · exact register_ne_added_iff hindexed call
  · rw [← hrepresents.reflection]
    exact congrArg Prod.fst (register_reflection hindexed call)

end ReflectionTables

end Shading
