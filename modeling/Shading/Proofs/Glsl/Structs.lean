import Mathlib.Data.List.Induction
import Mathlib.Data.List.Nodup
import Shading.Proofs.Glsl.Topological
import Shading.Proofs.Glsl.WrittenTypes

/-!
# The structs that a text declares

A text declares the structs that its types name and those that the fields of these name in
turn, each once, the structs of its fields before it.
-/

namespace Shading

namespace Glsl

section Names

theorem mem_foldl_firstUses (names seen : List String) (n : String) :
    n ∈ names.foldl (fun seen n => if n ∈ seen then seen else seen ++ [n]) seen ↔
      n ∈ seen ∨ n ∈ names := by
  induction names generalizing seen with
  | nil => simp
  | cons m rest ih =>
      rw [List.foldl_cons, ih]
      split
      · rename_i hseen
        constructor
        · exact Or.imp_right (List.mem_cons_of_mem m)
        · rintro (h | h)
          · exact .inl h
          · rcases List.mem_cons.mp h with rfl | h
            · exact .inl hseen
            · exact .inr h
      · simp [or_assoc]

@[simp] theorem mem_firstUses (names : List String) (n : String) :
    n ∈ firstUses names ↔ n ∈ names := by
  simp [firstUses, mem_foldl_firstUses]

theorem nodup_foldl_firstUses (names : List String) {seen : List String} (h : seen.Nodup) :
    (names.foldl (fun seen n => if n ∈ seen then seen else seen ++ [n]) seen).Nodup := by
  induction names generalizing seen with
  | nil => exact h
  | cons m rest ih =>
      rw [List.foldl_cons]
      split
      · exact ih h
      · rename_i hnew
        apply ih
        rw [List.nodup_append]
        refine ⟨h, by simp, ?_⟩
        rintro n hn m' hm' rfl
        exact hnew (List.mem_singleton.mp hm' ▸ hn)

theorem nodup_firstUses (names : List String) : (firstUses names).Nodup :=
  nodup_foldl_firstUses names List.nodup_nil

end Names

section Closing

variable {p : Program}

/-- The structs that the fields of all structs name. -/
def fieldNames (p : Program) : List String :=
  (p.items.flatMap fun
    | .struct _ s => s.fields
    | _ => []).filterMap (·.type.structName?)

theorem length_fieldNames_le (p : Program) : (fieldNames p).length ≤ p.fieldCount :=
  List.length_filterMap_le _ _

/-- The first declaration of a struct among some items. -/
def firstStruct? (items : List Stmt) (name : String) : Option StructDeclaration :=
  items.findSome? fun
    | .struct _ s => if s.name = name then some s else none
    | _ => none

/-- A structure that is found has the name it was searched by. -/
theorem mem_of_firstStruct? {items : List Stmt} {n : String} {s : StructDeclaration}
    (h : firstStruct? items n = some s) : s.name = n ∧ ∃ b, .struct b s ∈ items := by
  obtain ⟨item, hitem, hs⟩ := List.exists_of_findSome?_eq_some h
  cases item with
  | struct b t =>
      dsimp only at hs
      split at hs
      · rename_i hname
        cases hs
        exact ⟨hname, b, hitem⟩
      · cases hs
  | _ => cases hs

theorem fieldStructs_subset (n : String) : p.fieldStructs n ⊆ fieldNames p := by
  intro m hm
  rw [Program.fieldStructs] at hm
  split at hm
  · rename_i s hs
    obtain ⟨_, b, hitem⟩ := mem_of_firstStruct? hs
    obtain ⟨f, hf, hname⟩ := List.mem_filterMap.mp hm
    exact List.mem_filterMap.mpr ⟨f, List.mem_flatMap.mpr ⟨_, hitem, hf⟩, hname⟩
  · cases hm

/-- A closing in progress. Each name costs one round, and there are never more names than
rounds to begin with. -/
structure Closing (p : Program) (total fuel : Nat) (pending used : List String) : Prop where
  nodup : used.Nodup
  rounds : fuel + used.length = total + pending.length
  bounded : ∀ names : List String, names.Nodup → used ⊆ names →
    (∀ n ∈ names, n ∈ used ∨ n ∈ fieldNames p) → names.length ≤ total
  closed : ∀ n ∈ used, n ∉ pending → p.fieldStructs n ⊆ used

/-- One step of the closure moves the fields of a structure behind the pending names. -/
theorem Closing.step {total fuel : Nat} {name : String} {pending used : List String}
    (h : Closing p total (fuel + 1) (name :: pending) used) :
    Closing p total fuel (pending ++ (firstUses (p.fieldStructs name)).filter (· ∉ used))
      (used ++ (firstUses (p.fieldStructs name)).filter (· ∉ used)) := by
  have hmem (n : String) : n ∈ (firstUses (p.fieldStructs name)).filter (· ∉ used) ↔
      n ∈ p.fieldStructs name ∧ n ∉ used := by simp
  constructor
  · rw [List.nodup_append]
    refine ⟨h.nodup, (nodup_firstUses _).filter _, ?_⟩
    rintro n hn m hm rfl
    exact ((hmem n).mp hm).2 hn
  · have := h.rounds
    simp only [List.length_append, List.length_cons] at this ⊢
    omega
  · intro names hnodup hsub hall
    apply h.bounded names hnodup (fun n hn => hsub (List.mem_append_left _ hn))
    intro n hn
    rcases hall n hn with hused | hfield
    · rcases List.mem_append.mp hused with hused | hnew
      · exact .inl hused
      · exact .inr (fieldStructs_subset name ((hmem n).mp hnew).1)
    · exact .inr hfield
  · intro n hn hpending m hm
    by_cases hused : m ∈ used
    · exact List.mem_append_left _ hused
    · apply List.mem_append_right
      rw [hmem]
      refine ⟨?_, hused⟩
      rcases List.mem_append.mp hn with hold | hnew
      · by_cases hname : n = name
        · exact hname ▸ hm
        · refine absurd (h.closed n hold ?_ hm) hused
          rintro hcons
          rcases List.mem_cons.mp hcons with heq | htail
          · exact hname heq
          · exact hpending (List.mem_append_left _ htail)
      · exact absurd (List.mem_append_right _ hnew) hpending

/-- Closing keeps what is used and ends with the fields of all that is used. -/
theorem Closing.closeStructs {total fuel : Nat} {pending used : List String}
    (h : Closing p total fuel pending used) :
    used ⊆ p.closeStructs fuel pending used ∧
      ∀ n ∈ p.closeStructs fuel pending used,
        p.fieldStructs n ⊆ p.closeStructs fuel pending used := by
  induction fuel generalizing pending used with
  | zero =>
      have hlength := h.bounded used h.nodup (fun _ hn => hn) fun n hn => .inl hn
      have hpending : pending = [] := by
        have := h.rounds
        exact List.length_eq_zero_iff.mp (by omega)
      rw [Program.closeStructs]
      exact ⟨fun _ hn => hn, fun n hn => h.closed n hn (by simp [hpending])⟩
  | succ fuel ih =>
      cases pending with
      | nil =>
          rw [Program.closeStructs]
          · exact ⟨fun _ hn => hn, fun n hn => h.closed n hn (by simp)⟩
          · simp
      | cons name pending =>
          rw [Program.closeStructs]
          obtain ⟨hsub, hclosed⟩ := ih h.step
          exact ⟨fun n hn => hsub (List.mem_append_left _ hn), hclosed⟩

/-- The closure starts with enough fuel for all fields. -/
theorem closing_usedStructs (p : Program) :
    Closing p ((firstUses (p.items.flatMap p.itemStructs)).length + p.fieldCount)
      ((firstUses (p.items.flatMap p.itemStructs)).length + p.fieldCount)
      (firstUses (p.items.flatMap p.itemStructs)) (firstUses (p.items.flatMap p.itemStructs)) := by
  constructor
  · exact nodup_firstUses _
  · rfl
  · intro names hnodup _ hall
    have hsub : names ⊆ firstUses (p.items.flatMap p.itemStructs) ++ fieldNames p :=
      fun n hn => List.mem_append.mpr (hall n hn)
    calc names.length
        ≤ (firstUses (p.items.flatMap p.itemStructs) ++ fieldNames p).length :=
          (List.subperm_of_subset hnodup hsub).length_le
      _ = (firstUses (p.items.flatMap p.itemStructs)).length + (fieldNames p).length :=
          List.length_append
      _ ≤ (firstUses (p.items.flatMap p.itemStructs)).length + p.fieldCount :=
          Nat.add_le_add_left (length_fieldNames_le p) _
  · exact fun n hn hnot => absurd hn hnot

/-- The structs that an item uses are used. -/
theorem mem_usedStructs_of_item {item : Stmt} {n : String} (hitem : item ∈ p.items)
    (hn : n ∈ p.itemStructs item) : n ∈ p.usedStructs := by
  apply (closing_usedStructs p).closeStructs.1
  rw [mem_firstUses]
  exact List.mem_flatMap.mpr ⟨item, hitem, hn⟩

/-- The structs that the fields of a used struct name are used. -/
theorem fieldStructs_subset_usedStructs {n : String} (h : n ∈ p.usedStructs) :
    p.fieldStructs n ⊆ p.usedStructs :=
  (closing_usedStructs p).closeStructs.2 n h

end Closing

section Collecting

/-- Adds the struct of an item if it is used and new. -/
def addStruct (used : List String) (decls : List StructDeclaration) (item : Stmt) :
    List StructDeclaration :=
  match item with
  | .struct _ s => if s.name ∈ used ∧ decls.all (·.name ≠ s.name) then decls ++ [s] else decls
  | _ => decls

variable {p : Program}

theorem firstStruct?_concat (items : List Stmt) (item : Stmt) (n : String) :
    firstStruct? (items ++ [item]) n = (firstStruct? items n).or (firstStruct? [item] n) := by
  rw [firstStruct?, List.findSome?_append]
  rfl

/-- The structs that are collected from some items are the first ones of the used names,
each once. -/
structure Collected (used : List String) (items : List Stmt) (decls : List StructDeclaration) :
    Prop where
  nodup : (decls.map (·.name)).Nodup
  mem_iff : ∀ s, s ∈ decls ↔ s.name ∈ used ∧ firstStruct? items s.name = some s

namespace Collected

variable {used : List String} {items : List Stmt} {decls : List StructDeclaration}

/-- An item that is no struct, or one of a name that is unused or known. -/
theorem skip (h : Collected used items decls) {item : Stmt}
    (hknown : ∀ n ∈ used, (firstStruct? [item] n).isSome → (firstStruct? items n).isSome) :
    Collected used (items ++ [item]) decls := by
  refine ⟨h.nodup, fun s => ?_⟩
  rw [h.mem_iff, firstStruct?_concat]
  refine and_congr_right fun hused => ?_
  cases hfirst : firstStruct? items s.name with
  | some t => rfl
  | none =>
      constructor
      · intro hsome
        cases hsome
      · intro hsome
        have := hknown s.name hused (by simpa using Option.isSome_of_mem hsome)
        simp [hfirst] at this

/-- A struct of a used name that no earlier one has. -/
theorem add (h : Collected used items decls) {b : Span} {t : StructDeclaration}
    (hused : t.name ∈ used) (hfresh : ∀ s ∈ decls, s.name ≠ t.name) :
    Collected used (items ++ [.struct b t]) (decls ++ [t]) := by
  have hnone : firstStruct? items t.name = none := by
    cases hfirst : firstStruct? items t.name with
    | none => rfl
    | some s =>
        have hname := (mem_of_firstStruct? hfirst).1
        refine absurd hname (hfresh s ((h.mem_iff s).mpr ?_))
        rw [hname]
        exact ⟨hused, hfirst⟩
  constructor
  · rw [List.map_append, List.nodup_append]
    refine ⟨h.nodup, by simp, ?_⟩
    rintro n hn m hm rfl
    obtain ⟨s, hs, hname⟩ := List.mem_map.mp hn
    have htn : n = t.name := by simpa using hm
    exact hfresh s hs (hname.trans htn)
  · intro s
    rw [List.mem_append, List.mem_singleton, h.mem_iff, firstStruct?_concat]
    by_cases hname : s.name = t.name
    · have hlast : firstStruct? [.struct b t] t.name = some t := by simp [firstStruct?]
      rw [hname, hnone]
      simp [hlast, hused, eq_comm]
    · have hlast : firstStruct? [.struct b t] s.name = none := by
        simp [firstStruct?, Ne.symm hname]
      have hne : s ≠ t := fun heq => hname (congrArg _ heq)
      simp [hlast, hne]

theorem step (h : Collected used items decls) (item : Stmt) :
    Collected used (items ++ [item]) (addStruct used decls item) := by
  cases item with
  | struct b t =>
      rw [addStruct]
      split
      · rename_i hnew
        exact h.add hnew.1 (by simpa using hnew.2)
      · rename_i hold
        refine h.skip fun n hused hsome => ?_
        have hname : t.name = n := by simpa [firstStruct?] using hsome
        subst hname
        obtain ⟨s, hs, hname⟩ : ∃ s ∈ decls, s.name = t.name := by
          by_contra hnot
          exact hold ⟨hused, by simpa using hnot⟩
        rw [← hname, ((h.mem_iff s).mp hs).2]
        rfl
  | _ => exact h.skip fun n _ hsome => by simp [firstStruct?] at hsome

end Collected

/-- The structures are collected in the order of the items. -/
theorem collected_foldl (used : List String) (items : List Stmt) :
    Collected used items (items.foldl (addStruct used) []) := by
  induction items using List.reverseRecOn with
  | nil => exact ⟨List.nodup_nil, by simp [firstStruct?]⟩
  | append_singleton items item ih =>
      rw [List.foldl_append]
      exact ih.step item

theorem nodup_usedDeclarations (p : Program) : (p.usedDeclarations.map (·.name)).Nodup :=
  (collected_foldl p.usedStructs p.items).nodup

theorem mem_usedDeclarations_iff (s : StructDeclaration) :
    s ∈ p.usedDeclarations ↔ s.name ∈ p.usedStructs ∧ p.struct? s.name = some s :=
  (collected_foldl p.usedStructs p.items).mem_iff s

theorem orderedStructs_perm (p : Program) : p.orderedStructs.Perm p.usedDeclarations :=
  ordered_perm _ _

theorem mem_orderedStructs_iff (s : StructDeclaration) :
    s ∈ p.orderedStructs ↔ s.name ∈ p.usedStructs ∧ p.struct? s.name = some s := by
  rw [(orderedStructs_perm p).mem_iff, mem_usedDeclarations_iff]

/-- A used struct that the tree declares is declared once, as the tree declares it first. -/
theorem filter_orderedStructs {n : String} {s : StructDeclaration} (hused : n ∈ p.usedStructs)
    (hs : p.struct? n = some s) : p.orderedStructs.filter (·.name = n) = [s] := by
  have hname : s.name = n := (mem_of_firstStruct? hs).1
  have hmem : s ∈ p.orderedStructs.filter (·.name = n) := by
    rw [List.mem_filter, mem_orderedStructs_iff]
    simp [hname, hused, hs]
  have hnodup : ((p.orderedStructs.filter (·.name = n)).map (·.name)).Nodup := by
    apply List.Nodup.sublist (List.filter_sublist.map _)
    exact ((orderedStructs_perm p).map _).nodup_iff.mpr (nodup_usedDeclarations p)
  have hall (t : StructDeclaration) (ht : t ∈ p.orderedStructs.filter (·.name = n)) :
      t.name = n := by simpa using (List.mem_filter.mp ht).2
  generalize p.orderedStructs.filter (·.name = n) = found at hmem hnodup hall
  match found with
  | [] => cases hmem
  | [t] => rw [List.mem_singleton.mp hmem]
  | t :: u :: rest =>
      have htu : t.name = u.name := (hall t (by simp)).trans (hall u (by simp)).symm
      simp [htu] at hnodup

end Collecting

section Order

variable {p : Program}

/-- A struct has a field whose type names another one. -/
def HasField (s t : StructDeclaration) : Prop :=
  ∃ f ∈ s.fields, f.type.structName? = some t.name

theorem findIdx?_name_eq_some_iff {decls : List StructDeclaration}
    (hnodup : (decls.map (·.name)).Nodup) (n : String) (j : Nat) :
    decls.findIdx? (·.name = n) = some j ↔ ∃ t, decls[j]? = some t ∧ t.name = n := by
  rw [List.findIdx?_eq_some_iff_getElem]
  constructor
  · rintro ⟨hlt, hname, _⟩
    exact ⟨decls[j], List.getElem?_eq_getElem hlt, by simpa using hname⟩
  · rintro ⟨t, ht, hname⟩
    obtain ⟨hlt, rfl⟩ := List.getElem?_eq_some_iff.mp ht
    refine ⟨hlt, by simpa using hname, fun i hij => ?_⟩
    intro hi
    have hlti : i < (decls.map (·.name)).length := by simpa using Nat.lt_trans hij hlt
    have hltj : j < (decls.map (·.name)).length := by simpa using hlt
    have hsame : (decls.map (·.name))[i] = (decls.map (·.name))[j] := by simpa [hname] using hi
    exact absurd ((List.Nodup.getElem_inj_iff hnodup).mp hsame) (Nat.ne_of_lt hij)

/-- The structs of its fields come before a struct, unless it is among their fields in turn. -/
theorem precedes_orderedStructs {s t : StructDeclaration} (hs : s ∈ p.orderedStructs)
    (ht : t ∈ p.orderedStructs) (hfield : HasField s t)
    (hback : ¬Relation.ReflTransGen (fun x y => HasField x y ∧ y ∈ p.orderedStructs) t s) :
    Precedes p.orderedStructs t s := by
  simp only [(orderedStructs_perm p).mem_iff] at hs ht hback
  refine precedes_ordered (fun i j a hi => ?_) hs ht hfield hback
  rw [Depends, hi]
  constructor
  · rintro ⟨hmem, _⟩
    obtain ⟨n, hn, hj⟩ := List.mem_filterMap.mp hmem
    obtain ⟨f, hf, hname⟩ := List.mem_filterMap.mp hn
    obtain ⟨b, hb, rfl⟩ := (findIdx?_name_eq_some_iff (nodup_usedDeclarations p) n j).mp hj
    exact ⟨b, hb, f, hf, hname⟩
  · rintro ⟨b, hb, f, hf, hname⟩
    refine ⟨List.mem_filterMap.mpr ⟨b.name, List.mem_filterMap.mpr ⟨f, hf, hname⟩, ?_⟩,
      (List.getElem?_eq_some_iff.mp hb).1⟩
    exact (findIdx?_name_eq_some_iff (nodup_usedDeclarations p) _ j).mpr ⟨b, hb, rfl⟩

end Order

end Glsl

end Shading
