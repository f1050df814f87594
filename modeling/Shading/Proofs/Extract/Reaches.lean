import Mathlib.Data.List.Perm.Subperm
import Mathlib.Logic.Relation
import Shading.Extract.Reachable
import Shading.Proofs.Except
import Shading.Proofs.Extract.Index

/-!
# Reachability between declarations

A declaration reaches every function, every struct and every value whose name it uses.
Following keys on a stack computes exactly the keys of the reached declarations: each
key enters the stack once, so the number of declarations bounds the steps, and the
search fails only at a reached declaration with an undeclared name.
-/

namespace Shading

/-- The names that are looked up among the declarations of a category. -/
def Dependencies.namesOf (d : Dependencies) : Category → List String
  | .function => d.functions.names
  | .struct => d.structs.names
  | _ => d.values.names ++ d.externals.names

/-- Every name that is used has a declaration of its kind among the sites. -/
structure Dependencies.Resolves (d : Dependencies) (sites : List Site) : Prop where
  functions : ∀ n ∈ d.functions.names, ∃ t ∈ sites, t.category = .function ∧ t.name = n
  structs : ∀ n ∈ d.structs.names, ∃ t ∈ sites, t.category = .struct ∧ t.name = n
  values : ∀ n ∈ d.values.names ++ d.externals.names,
    ∃ t ∈ sites, t.category.isValue = true ∧ t.name = n

namespace DeclarationIndex

/-- One declaration uses the name of another one. -/
def Refers (items : List Stmt) (s t : Site) : Prop :=
  t ∈ allSites items ∧ t.name ∈ (siteUses items s).namesOf t.category

/-- The declarations that a declaration refers to in any number of steps. -/
abbrev Reaches (items : List Stmt) : Site → Site → Prop :=
  Relation.ReflTransGen (Refers items)

/-- The references of the declaration of a key. -/
def usesAt (index : DeclarationIndex) (k : Key) : Dependencies :=
  ((index.get? k).map (·.uses)).getD Dependencies.empty

/-- One step of the search. -/
def Next (index : DeclarationIndex) (k k' : Key) : Prop :=
  ∃ ks, index.successors (index.usesAt k) = .ok ks ∧ k' ∈ ks

/-- Sorting what is used loses no name. -/
theorem names_inOrder (uses : Uses) (n : String) : n ∈ uses.inOrder.names ↔ n ∈ uses.names := by
  have hperm : uses.inOrder.names.Perm uses.names :=
    (List.mergeSort_perm uses Uses.before).map _
  exact hperm.mem_iff

/-- Names resolve where each of them is declared. -/
theorem resolve_eq_ok_iff (named : String → List Key)
    (undefined : String → Span → ExtractError) (uses : Uses) (ks : List Key) :
    resolve named undefined uses = .ok ks ↔
      (∀ n ∈ uses.names, named n ≠ []) ∧ ks = uses.names.flatMap named := by
  induction uses generalizing ks with
  | nil => simp [resolve, Uses.names, eq_comm]
  | cons use rest ih =>
      obtain ⟨name, span⟩ := use
      cases hn : named name with
      | nil => simp [resolve, hn, Uses.names]
      | cons k more =>
          simp only [resolve, hn, Except.bind_eq_ok_iff, ih]
          simp only [Uses.names, List.map_cons, List.forall_mem_cons, List.flatMap_cons, hn]
          constructor
          · rintro ⟨rest', ⟨hall, rfl⟩, hks⟩
            cases hks
            exact ⟨⟨by simp, hall⟩, rfl⟩
          · rintro ⟨⟨_, hall⟩, rfl⟩
            exact ⟨_, ⟨hall, rfl⟩, rfl⟩

/-- A key is new where it was not seen. -/
theorem mem_newKeys_iff (seen ks : List Key) (k : Key) :
    k ∈ newKeys seen ks ↔ k ∈ ks ∧ k ∉ seen := by
  induction ks generalizing seen with
  | nil => simp [newKeys]
  | cons k' rest ih =>
      by_cases hseen : k' ∈ seen
      · simp only [newKeys, hseen, if_true, ih, List.mem_cons]
        grind
      · simp only [newKeys, hseen, if_false, List.mem_cons, ih]
        grind

theorem nodup_newKeys (seen ks : List Key) : (newKeys seen ks).Nodup := by
  induction ks generalizing seen with
  | nil => exact List.nodup_nil
  | cons k rest ih =>
      by_cases hseen : k ∈ seen
      · simpa [newKeys, hseen] using ih seen
      · simp only [newKeys, hseen, if_false, List.nodup_cons]
        exact ⟨fun h => by simp [mem_newKeys_iff] at h, ih _⟩

section Built

variable {items : List Stmt} {index : DeclarationIndex}

/-- A name has keys where a declaration has that name. -/
theorem named_ne_nil_iff (h : build items = .ok index) (wanted : Category → Bool)
    (name : String) :
    index.named wanted name ≠ [] ↔
      ∃ t ∈ allSites items, wanted t.category = true ∧ t.name = name := by
  constructor
  · intro hne
    obtain ⟨k, hk⟩ := List.exists_mem_of_ne_nil _ hne
    obtain ⟨s, hs, hn, hw⟩ := (mem_named_iff h wanted name k).mp hk
    exact ⟨s, mem_allSites_of_mem_keyedSites hs, hw, hn⟩
  · rintro ⟨t, ht, hw, hn⟩
    obtain ⟨k, hk⟩ := exists_key_of_mem_allSites ht
    exact List.ne_nil_of_mem ((mem_named_iff h wanted name k).mpr ⟨t, hk, hn, hw⟩)

theorem names_append (a b : Uses) : Uses.names (a ++ b) = a.names ++ b.names :=
  List.map_append

/-- The direct references of a declaration are the keys of all sites that it refers to;
they are found exactly when every name is declared. -/
theorem successors_eq_ok_iff (h : build items = .ok index) (d : Dependencies) :
    (∃ ks, index.successors d = .ok ks) ↔ d.Resolves (allSites items) := by
  simp only [successors, Except.bind_eq_ok_iff, resolve_eq_ok_iff, functionsNamed,
    structsNamed, valuesNamed, named_ne_nil_iff h, names_inOrder, names_append,
    List.mem_append, decide_eq_true_eq]
  constructor
  · rintro ⟨_, _, ⟨hf, _⟩, _, ⟨hs, _⟩, _, ⟨hv, _⟩, _⟩
    exact ⟨hf, hs, by simpa using hv⟩
  · rintro ⟨hf, hs, hv⟩
    exact ⟨_, _, ⟨hf, rfl⟩, _, ⟨hs, rfl⟩, _, ⟨by simpa using hv, rfl⟩, rfl⟩

/-- The successors of a declaration are the declarations that it refers to. -/
theorem mem_successors_iff (h : build items = .ok index) {d : Dependencies} {ks : List Key}
    (hks : index.successors d = .ok ks) (k : Key) :
    k ∈ ks ↔ ∃ s, (s, k) ∈ keyedSites items ∧ s.name ∈ d.namesOf s.category := by
  simp only [successors, Except.bind_eq_ok_iff, resolve_eq_ok_iff] at hks
  obtain ⟨_, ⟨_, rfl⟩, _, ⟨_, rfl⟩, _, ⟨_, rfl⟩, hks⟩ := hks
  cases hks
  simp only [List.mem_append, List.mem_flatMap, functionsNamed, structsNamed, valuesNamed,
    mem_named_iff h, names_inOrder, names_append]
  constructor
  · rintro ((⟨n, hn, s, hs, rfl, hc⟩ | ⟨n, hn, s, hs, rfl, hc⟩) | ⟨n, hn, s, hs, rfl, hc⟩)
    · refine ⟨s, hs, ?_⟩
      rw [of_decide_eq_true hc]
      exact hn
    · refine ⟨s, hs, ?_⟩
      rw [of_decide_eq_true hc]
      exact hn
    · refine ⟨s, hs, ?_⟩
      cases hcat : s.category <;> simp_all [Category.isValue, Dependencies.namesOf]
  · rintro ⟨s, hs, hn⟩
    cases hcat : s.category with
    | function =>
        rw [hcat] at hn
        exact .inl (.inl ⟨s.name, hn, s, hs, rfl, by simp [hcat]⟩)
    | struct =>
        rw [hcat] at hn
        exact .inl (.inr ⟨s.name, hn, s, hs, rfl, by simp [hcat]⟩)
    | _ =>
        rw [hcat] at hn
        exact .inr ⟨s.name, by simpa [Dependencies.namesOf] using hn, s, hs, rfl,
          by simp [hcat, Category.isValue]⟩

theorem usesAt_of_mem_keyedSites (h : build items = .ok index) {s : Site} {k : Key}
    (hs : (s, k) ∈ keyedSites items) : index.usesAt k = siteUses items s := by
  simp [usesAt, get?_of_mem_keyedSites h hs, declarationOf]

/-- One key follows another where the sites refer to each other and all names resolve. -/
theorem next_iff (h : build items = .ok index) {s : Site} {k k' : Key}
    (hs : (s, k) ∈ keyedSites items) :
    index.Next k k' ↔
      (siteUses items s).Resolves (allSites items) ∧
        ∃ t, (t, k') ∈ keyedSites items ∧ Refers items s t := by
  rw [Next, usesAt_of_mem_keyedSites h hs, ← successors_eq_ok_iff h]
  constructor
  · rintro ⟨ks, hks, hk'⟩
    obtain ⟨t, ht, hn⟩ := (mem_successors_iff h hks k').mp hk'
    exact ⟨⟨ks, hks⟩, t, ht, mem_allSites_of_mem_keyedSites ht, hn⟩
  · rintro ⟨⟨ks, hks⟩, t, ht, _, hn⟩
    exact ⟨ks, hks, (mem_successors_iff h hks k').mpr ⟨t, ht, hn⟩⟩

end Built

/-- The state of the search: what has been reached follows from the start, and what has
left the stack has had all its references added. The last field counts the steps left. -/
structure Following (index : DeclarationIndex) (start : Key) (fuel : Nat)
    (stack reached : List Key) : Prop where
  start_mem : start ∈ reached
  nodup : reached.Nodup
  known : reached ⊆ index.declarations.map (·.key)
  sound : ∀ k ∈ reached, Relation.ReflTransGen index.Next start k
  stack_mem : stack ⊆ reached
  closed : ∀ k ∈ reached, k ∉ stack →
    ∃ ks, index.successors (index.usesAt k) = .ok ks ∧ ks ⊆ reached
  steps : index.declarations.length + 1 + stack.length ≤ fuel + reached.length

namespace Following

variable {index : DeclarationIndex} {start key : Key} {fuel : Nat}
variable {stack reached : List Key}

/-- Only declared keys are followed. -/
theorem successors_known {d : Dependencies} {ks : List Key}
    (h : index.successors d = .ok ks) : ks ⊆ index.declarations.map (·.key) := by
  simp only [successors, Except.bind_eq_ok_iff, resolve_eq_ok_iff] at h
  obtain ⟨_, ⟨_, rfl⟩, _, ⟨_, rfl⟩, _, ⟨_, rfl⟩, hks⟩ := h
  cases hks
  intro k hk
  simp only [List.mem_append, List.mem_flatMap, functionsNamed, structsNamed, valuesNamed,
    named, List.mem_map, List.mem_filter] at hk
  rw [List.mem_map]
  rcases hk with (⟨_, _, d, ⟨hd, _⟩, rfl⟩ | ⟨_, _, d, ⟨hd, _⟩, rfl⟩) | ⟨_, _, d, ⟨hd, _⟩, rfl⟩ <;>
    exact ⟨d, hd, rfl⟩

/-- No more keys are reached than there are declarations. -/
theorem length_le (inv : Following index start fuel stack reached) :
    reached.length ≤ index.declarations.length := by
  have h := (List.subperm_of_subset inv.nodup inv.known).length_le
  rwa [List.length_map] at h

/-- The fuel outlasts the search, as every round reaches a new key. -/
theorem fuel_ne_zero (inv : Following index start fuel stack reached) : fuel ≠ 0 := by
  have hlen := inv.length_le
  have hsteps := inv.steps
  omega

/-- A step takes one key off the stack and adds its references that are new. -/
theorem step (inv : Following index start (fuel + 1) (key :: stack) reached) {ks : List Key}
    (hks : index.successors (index.usesAt key) = .ok ks) :
    Following index start fuel ((newKeys reached ks).reverse ++ stack)
      (reached ++ newKeys reached ks) := by
  have hkey : key ∈ reached := inv.stack_mem List.mem_cons_self
  have hnew : ∀ k ∈ newKeys reached ks, k ∈ ks ∧ k ∉ reached := fun k hk =>
    (mem_newKeys_iff reached ks k).mp hk
  have hsub : ks ⊆ reached ++ newKeys reached ks := by
    intro k hk
    by_cases hr : k ∈ reached
    · exact List.mem_append_left _ hr
    · exact List.mem_append_right _ ((mem_newKeys_iff reached ks k).mpr ⟨hk, hr⟩)
  refine ⟨?_, ?_, ?_, ?_, ?_, ?_, ?_⟩
  · exact List.mem_append_left _ inv.start_mem
  · exact List.nodup_append.mpr ⟨inv.nodup, nodup_newKeys _ _, fun a ha b hb hab =>
      (hnew b hb).2 (hab ▸ ha)⟩
  · intro k hk
    rcases List.mem_append.mp hk with hk | hk
    · exact inv.known hk
    · exact successors_known hks (hnew k hk).1
  · intro k hk
    rcases List.mem_append.mp hk with hk | hk
    · exact inv.sound k hk
    · exact (inv.sound key hkey).tail ⟨ks, hks, (hnew k hk).1⟩
  · intro k hk
    rcases List.mem_append.mp hk with hk | hk
    · exact List.mem_append_right _ (List.mem_reverse.mp hk)
    · exact List.mem_append_left _ (inv.stack_mem (List.mem_cons_of_mem _ hk))
  · intro k hk hstack
    rw [List.mem_append, List.mem_reverse, not_or] at hstack
    have hr : k ∈ reached := (List.mem_append.mp hk).resolve_right hstack.1
    by_cases hkk : k = key
    · subst hkk
      exact ⟨ks, hks, hsub⟩
    · have hout : k ∉ key :: stack := by
        simp only [List.mem_cons, not_or]
        exact ⟨hkk, hstack.2⟩
      obtain ⟨more, hmore, hin⟩ := inv.closed k hr hout
      exact ⟨more, hmore, fun a ha => List.mem_append_left _ (hin ha)⟩
  · have hsteps := inv.steps
    simp only [List.length_append, List.length_reverse, List.length_cons] at hsteps ⊢
    omega

/-- With an empty stack the reached keys are closed under references. -/
theorem mem_iff_of_nil (inv : Following index start fuel [] reached) (k : Key) :
    k ∈ reached ↔ Relation.ReflTransGen index.Next start k := by
  refine ⟨inv.sound k, fun h => ?_⟩
  induction h with
  | refl => exact inv.start_mem
  | tail _ hnext ih =>
      obtain ⟨ks, hks, hmem⟩ := hnext
      obtain ⟨ks', hks', hsub⟩ := inv.closed _ ih (by simp)
      rw [hks] at hks'
      cases hks'
      exact hsub hmem

/-- The search ends with all keys that follow from the start, or at one of them that
uses an undeclared name. -/
theorem follow (inv : Following index start fuel stack reached) :
    (∃ out, index.follow fuel stack reached = .ok out ∧ out.Nodup ∧
        (∀ k, k ∈ out ↔ Relation.ReflTransGen index.Next start k) ∧
        ∀ k ∈ out, ∃ ks, index.successors (index.usesAt k) = .ok ks) ∨
      ∃ e k, index.follow fuel stack reached = .error e ∧
        Relation.ReflTransGen index.Next start k ∧
        index.successors (index.usesAt k) = .error e := by
  induction fuel generalizing stack reached with
  | zero => exact absurd rfl inv.fuel_ne_zero
  | succ fuel ih =>
      cases stack with
      | nil =>
          refine .inl ⟨reached, rfl, inv.nodup, inv.mem_iff_of_nil, fun k hk => ?_⟩
          obtain ⟨ks, hks, _⟩ := inv.closed k hk (by simp)
          exact ⟨ks, hks⟩
      | cons key stack =>
          have hunfold : index.follow (fuel + 1) (key :: stack) reached =
              (do
                let new := newKeys reached (← index.successors (index.usesAt key))
                index.follow fuel (new.reverse ++ stack) (reached ++ new)) := rfl
          rw [hunfold]
          cases hks : index.successors (index.usesAt key) with
          | error e =>
              exact .inr ⟨e, key, rfl, inv.sound key (inv.stack_mem List.mem_cons_self), hks⟩
          | ok ks => exact ih (inv.step hks)

end Following

end DeclarationIndex

end Shading
