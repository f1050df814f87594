import Shading.Proofs.Glsl.Topological

/-!
# The search behind the declaration order

A depth-first search gives every node one of three marks. No bound is set to its recursion: it
ends because no node is new again once it was entered. The declaration order is the order in
which it marks the nodes done.
-/

namespace Shading

namespace Glsl

open Relation

/-- What a search knows of a node: it was not met, it is being visited, or all that it depends
on was visited as well. -/
inductive Mark where
  | new | visiting | done
deriving DecidableEq

/-- The state of a search: the mark of each node, and the nodes that are done in their order. -/
structure Search where
  marks : List Mark
  order : List Nat

namespace Search

/-- Before a search every node is new. -/
def start (count : Nat) : Search := ⟨List.replicate count .new, []⟩

/-- Begins with a node. -/
def enter (s : Search) (node : Nat) : Search := { s with marks := s.marks.set node .visiting }

/-- Ends a node, which comes behind all that it depends on. -/
def leave (s : Search) (node : Nat) : Search := ⟨s.marks.set node .done, s.order ++ [node]⟩

/-- A search visits the nodes of a list one after another. A node that is not new, or is none,
is passed over; a new one is entered, and left when all that it depends on was visited. -/
inductive Visits (deps : Nat → List Nat) : Search → List Nat → Search → Prop
  | nil {s : Search} : Visits deps s [] s
  | skip {s t : Search} {node : Nat} {rest : List Nat} (h : s.marks[node]? ≠ some .new)
      (hrest : Visits deps s rest t) : Visits deps s (node :: rest) t
  | visit {s t u : Search} {node : Nat} {rest : List Nat} (h : s.marks[node]? = some .new)
      (hdeps : Visits deps (s.enter node) (deps node) t)
      (hrest : Visits deps (t.leave node) rest u) : Visits deps s (node :: rest) u

variable {count : Nat} {deps : Nat → List Nat}

/-- A search ends in one state only. -/
theorem Visits.unique {s t u : Search} {nodes : List Nat} (ht : Visits deps s nodes t)
    (hu : Visits deps s nodes u) : t = u := by
  induction ht generalizing u with
  | nil =>
      cases hu
      rfl
  | skip h hrest ih =>
      cases hu with
      | skip _ hrest' => exact ih hrest'
      | visit h' => exact absurd h' h
  | visit h hdeps hrest ihdeps ihrest =>
      cases hu with
      | skip h' => exact absurd h h'
      | visit _ hdeps' hrest' =>
          obtain rfl := ihdeps hdeps'
          exact ihrest hrest'

/-- The mark of a node that a visit gives it so far. -/
def markOf (v : Visit) (node : Nat) : Mark :=
  if node ∈ v.left then .done else if node ∈ v.entered then .visiting else .new

/-- A node is new where it was not entered. -/
theorem markOf_eq_new_iff {pending : List Nat} {v : Visit} (h : v.Balanced count pending)
    (node : Nat) : markOf v node = .new ↔ node ∉ v.entered := by
  have hleft : node ∈ v.left → node ∈ v.entered := fun hmem =>
    h.perm.mem_iff.mpr (List.mem_append_right _ hmem)
  unfold markOf
  split
  · exact iff_of_false (by simp) (not_not_intro (hleft ‹_›))
  · split <;> simp_all

/-- A visit under way as a search. -/
def ofVisit (count : Nat) (v : Visit) : Search :=
  ⟨(List.range count).map (markOf v), v.left.reverse⟩

/-- The marks of a visit are those of its nodes. -/
theorem getElem?_marks_ofVisit (v : Visit) (node : Nat) :
    (ofVisit count v).marks[node]? = if node < count then some (markOf v node) else none := by
  rw [ofVisit, List.getElem?_map]
  split
  · rw [List.getElem?_range ‹_›, Option.map_some]
  · rename_i hle
    rw [List.getElem?_eq_none (by simpa using hle), Option.map_none]

theorem ofVisit_start : ofVisit count ⟨[], []⟩ = start count := by
  have hmarks : (List.range count).map (markOf ⟨[], []⟩) = List.replicate count .new := by
    refine List.eq_replicate_iff.mpr ⟨by simp, fun m hm => ?_⟩
    obtain ⟨n, -, rfl⟩ := List.mem_map.mp hm
    rfl
  exact congrArg (Search.mk · []) hmarks

/-- Two visits that differ in the mark of one node differ by marking it. -/
theorem set_marks_ofVisit (count : Nat) (v w : Visit) (node : Nat)
    (h : ∀ n, n ≠ node → markOf w n = markOf v n) :
    (ofVisit count v).marks.set node (markOf w node) = (ofVisit count w).marks := by
  apply List.ext_getElem?
  intro n
  have hlength : (ofVisit count v).marks.length = count := by simp [ofVisit]
  rw [List.getElem?_set, getElem?_marks_ofVisit, getElem?_marks_ofVisit, hlength]
  by_cases hn : node = n
  · rw [if_pos hn, hn]
  · rw [if_neg hn, h n (Ne.symm hn)]

/-- Entering a node marks it as entered. -/
theorem enter_ofVisit {v : Visit} {node : Nat} (h : node ∉ v.left) :
    (ofVisit count v).enter node = ofVisit count ⟨node :: v.entered, v.left⟩ := by
  have hmark : markOf ⟨node :: v.entered, v.left⟩ node = .visiting := by simp [markOf, h]
  have hset := set_marks_ofVisit count v ⟨node :: v.entered, v.left⟩ node
    fun n hn => by simp [markOf, hn]
  rw [hmark] at hset
  exact congrArg (Search.mk · v.left.reverse) hset

theorem leave_ofVisit (v : Visit) (node : Nat) :
    (ofVisit count v).leave node = ofVisit count { v with left := node :: v.left } := by
  have hmark : markOf { v with left := node :: v.left } node = .done := by simp [markOf]
  have hset := set_marks_ofVisit count v { v with left := node :: v.left } node
    fun n hn => by simp [markOf, hn]
  rw [hmark] at hset
  rw [leave, hset]
  exact congrArg (Search.mk _) (List.reverse_cons ..).symm

/-- A visit with levels of recursion to spare is a search without a bound. -/
theorem visits_ofVisit (deps : Nat → List Nat) (fuel : Nat) {pending : List Nat} {v : Visit}
    (hbalanced : v.Balanced count pending) (hfuel : count < pending.length + fuel)
    (nodes : List Nat) :
    Visits deps (ofVisit count v) nodes
      (ofVisit count (nodes.foldl (visit count deps fuel) v)) := by
  induction fuel generalizing pending v nodes with
  | zero =>
      have hle := hbalanced.length_pending_le
      omega
  | succ fuel ih =>
      induction nodes generalizing v with
      | nil => exact .nil
      | cons node rest ihrest =>
          have hafter : (visit count deps (fuel + 1) v node).Balanced count pending :=
            balanced_visit (fuel + 1) hbalanced node
          have htail := ihrest hafter
          rw [List.foldl_cons]
          by_cases hnew : node < count ∧ node ∉ v.entered
          · have hmark : (ofVisit count v).marks[node]? = some .new := by
              rw [getElem?_marks_ofVisit, if_pos hnew.1,
                (markOf_eq_new_iff hbalanced node).mpr hnew.2]
            have hleft : node ∉ v.left := fun hmem =>
              hnew.2 (hbalanced.perm.mem_iff.mpr (List.mem_append_right _ hmem))
            have hopen : (⟨node :: v.entered, v.left⟩ : Visit).Balanced count (node :: pending) :=
              ⟨hbalanced.perm.cons node, List.nodup_cons.mpr ⟨hnew.2, hbalanced.nodup⟩,
                List.forall_mem_cons.mpr ⟨hnew.1, hbalanced.lt⟩⟩
            have hdeps := ih hopen (by rw [List.length_cons]; omega) (deps node)
            rw [← enter_ofVisit hleft] at hdeps
            refine .visit hmark hdeps ?_
            rw [leave_ofVisit]
            rw [visit, if_pos hnew] at htail ⊢
            exact htail
          · have hmark : (ofVisit count v).marks[node]? ≠ some .new := by
              rw [getElem?_marks_ofVisit]
              split
              · rename_i hlt
                rw [Ne, Option.some.injEq, markOf_eq_new_iff hbalanced]
                exact fun hmem => hnew ⟨hlt, hmem⟩
              · simp
            rw [visit, if_neg hnew] at htail ⊢
            exact .skip hmark htail

/-- The search in the given order visits every node and gives the order of dependencies. -/
theorem visits_dependencyOrder (count : Nat) (deps : Nat → List Nat) :
    ∃ t, Visits deps (start count) (List.range count) t ∧ t.order = dependencyOrder count deps := by
  have hstart : (⟨[], []⟩ : Visit).Balanced count [] := ⟨.refl _, List.nodup_nil, by simp⟩
  have hrun := visits_ofVisit deps (count + 1) hstart (by simp) (List.range count)
  rw [ofVisit_start] at hrun
  exact ⟨_, hrun, rfl⟩

end Search

section Visiting

variable {count : Nat} {deps : Nat → List Nat}

/-- A node of which all dependencies were entered is left at once. -/
theorem visit_of_entered {fuel node : Nat} {v : Visit} (hlt : node < count)
    (hnew : node ∉ v.entered) (hdeps : ∀ d ∈ deps node, d < count → d ∈ v.entered) :
    visit count deps (fuel + 1) v node = ⟨node :: v.entered, node :: v.left⟩ := by
  have hbelow : (deps node).foldl (visit count deps fuel) ⟨node :: v.entered, v.left⟩ =
      ⟨node :: v.entered, v.left⟩ := by
    apply foldl_visit_induction (· = ⟨node :: v.entered, v.left⟩)
    · rintro d hd u rfl
      cases fuel with
      | zero => rfl
      | succ fuel =>
          rw [visit, if_neg]
          rintro ⟨hdlt, hdnew⟩
          exact hdnew (List.mem_cons_of_mem node (hdeps d hd hdlt))
    · rfl
  rw [visit, if_pos ⟨hlt, hnew⟩, hbelow]

/-- Nodes that depend on smaller ones only keep their order. -/
theorem foldl_visit_range (hdeps : ∀ u < count, ∀ v ∈ deps u, v < count → v < u) {n : Nat}
    (hn : n ≤ count) :
    (List.range n).foldl (visit count deps (count + 1)) ⟨[], []⟩ =
      ⟨(List.range n).reverse, (List.range n).reverse⟩ := by
  induction n with
  | zero => rfl
  | succ n ih =>
      have hmem (d : Nat) : d ∈ (List.range n).reverse ↔ d < n := by simp
      rw [List.range_succ, List.foldl_append, ih (by omega), List.foldl_cons, List.foldl_nil,
        visit_of_entered (by omega) (by simp) fun d hd hlt =>
          (hmem d).mpr (hdeps n (by omega) d hd hlt)]
      simp

/-- Where every node depends on smaller ones only, the order is the given one. -/
theorem dependencyOrder_of_smaller
    (hdeps : ∀ u < count, ∀ v ∈ deps u, v < count → v < u) :
    dependencyOrder count deps = List.range count := by
  rw [dependencyOrder, foldl_visit_range hdeps (Nat.le_refl count), List.reverse_reverse]

/-- A dependency that is no cycle comes before what depends on it. -/
theorem precedes_of_depends {u v : Nat} (hu : u < count) (hdepends : Depends count deps u v)
    (hback : ¬ReflTransGen (Depends count deps) v u) :
    Precedes (dependencyOrder count deps) v u := by
  have hmem : u ∈ dependencyOrder count deps :=
    (dependencyOrder_perm count deps).mem_iff.mpr (List.mem_range.mpr hu)
  obtain ⟨before, after, hsplit⟩ := List.append_of_mem hmem
  have hbefore : v ∈ before := mem_before_of_depends hsplit hdepends hback
  have hnodup : (before ++ u :: after).Nodup := hsplit ▸ nodup_dependencyOrder count deps
  obtain ⟨-, -, hdisjoint⟩ := List.nodup_append.mp hnodup
  rw [hsplit]
  apply Precedes.of_append hbefore
  · exact fun hafter => hdisjoint v hbefore v hafter rfl
  · exact fun hin => hdisjoint u hin u List.mem_cons_self rfl

end Visiting

/-- For any dependencies, cyclic, repeated or of nodes that there are not, the search ends, in
one state only, and its order is a topological one: every node comes once, after each node that
it depends on and that does not depend on it in turn. Nodes that depend on smaller ones alone
come in the order of their numbers. -/
theorem dependencyOrder_topological (count : Nat) (deps : Nat → List Nat) :
    (∃ t, Search.Visits deps (.start count) (List.range count) t ∧
      t.order = dependencyOrder count deps ∧
      ∀ u, Search.Visits deps (.start count) (List.range count) u → u = t) ∧
    (dependencyOrder count deps).Perm (List.range count) ∧
    (∀ u v, u < count → v ∈ deps u → v < count →
      ¬ReflTransGen (Depends count deps) v u → Precedes (dependencyOrder count deps) v u) ∧
    ((∀ u < count, ∀ v ∈ deps u, v < count → v < u) →
      dependencyOrder count deps = List.range count) := by
  obtain ⟨t, hrun, horder⟩ := Search.visits_dependencyOrder count deps
  refine ⟨⟨t, hrun, horder, fun u hu => hu.unique hrun⟩, ?_, ?_, ?_⟩
  · exact dependencyOrder_perm count deps
  · intro u v hu hdep hv hback
    exact precedes_of_depends hu ⟨hdep, hv⟩ hback
  · exact dependencyOrder_of_smaller

/-- A cycle is cut where it closes: the node that is met first comes last. -/
example : dependencyOrder 3 (fun n => [(n + 1) % 3, 7]) = [2, 1, 0] := by decide

end Glsl

end Shading
