import Mathlib.Data.List.Perm.Basic
import Shading.Glsl.Program

/-!
# The declaration order is a permutation

A depth-first visit leaves every node exactly once, whatever the nodes depend on. The text
of a program therefore holds each of its functions once.
-/

namespace Shading

namespace Glsl

namespace Visit

/-- The nodes entered so far are those left and those that are still open, without
repetition. -/
structure Balanced (count : Nat) (pending : List Nat) (v : Visit) : Prop where
  perm : v.entered.Perm (pending ++ v.left)
  nodup : v.entered.Nodup
  lt : ∀ n ∈ v.entered, n < count

end Visit

section Visiting

variable {count : Nat} {deps : Nat → List Nat}

/-- Visiting more nodes keeps the visit balanced where visiting one does. -/
theorem balanced_foldl {f : Visit → Nat → Visit} {pending : List Nat}
    (hf : ∀ v n, v.Balanced count pending → (f v n).Balanced count pending)
    {v : Visit} (h : v.Balanced count pending) (nodes : List Nat) :
    (nodes.foldl f v).Balanced count pending := by
  induction nodes generalizing v with
  | nil => exact h
  | cons n rest ih => exact ih (hf v n h)

/-- A visit closes what it opens. -/
theorem balanced_visit (fuel : Nat) {pending : List Nat} {v : Visit}
    (h : v.Balanced count pending) (node : Nat) :
    (visit count deps fuel v node).Balanced count pending := by
  induction fuel generalizing pending v node with
  | zero => exact h
  | succ fuel ih =>
      rw [visit]
      split
      · rename_i hnew
        have hopen : (⟨node :: v.entered, v.left⟩ : Visit).Balanced count (node :: pending) :=
          ⟨h.perm.cons node, List.nodup_cons.mpr ⟨hnew.2, h.nodup⟩,
            List.forall_mem_cons.mpr ⟨hnew.1, h.lt⟩⟩
        have hbelow := balanced_foldl (fun v n hv => ih hv n) hopen (deps node)
        exact ⟨hbelow.perm.trans List.perm_middle.symm, hbelow.nodup, hbelow.lt⟩
      · exact h

theorem entered_foldl {f : Visit → Nat → Visit} {n : Nat}
    (hf : ∀ v m, n ∈ v.entered → n ∈ (f v m).entered) {v : Visit} (h : n ∈ v.entered)
    (nodes : List Nat) : n ∈ (nodes.foldl f v).entered := by
  induction nodes generalizing v with
  | nil => exact h
  | cons m rest ih => exact ih (hf v m h)

/-- A node that was entered stays so. -/
theorem entered_visit (fuel : Nat) {v : Visit} {n : Nat} (h : n ∈ v.entered) (node : Nat) :
    n ∈ (visit count deps fuel v node).entered := by
  induction fuel generalizing v node with
  | zero => exact h
  | succ fuel ih =>
      rw [visit]
      split
      · exact entered_foldl (fun v m hv => ih hv m) (List.mem_cons_of_mem node h) (deps node)
      · exact h

/-- A node is entered when it is visited. -/
theorem mem_entered_visit (fuel : Nat) (v : Visit) {node : Nat} (h : node < count) :
    node ∈ (visit count deps (fuel + 1) v node).entered := by
  rw [visit]
  split
  · exact entered_foldl (fun v m hv => entered_visit fuel hv m) List.mem_cons_self (deps node)
  · rename_i hnot
    by_contra hmem
    exact hnot ⟨h, hmem⟩

theorem mem_entered_foldl_visit (fuel : Nat) {v : Visit} {nodes : List Nat} {n : Nat}
    (hn : n ∈ nodes) (h : n < count) :
    n ∈ (nodes.foldl (visit count deps (fuel + 1)) v).entered := by
  induction nodes generalizing v with
  | nil => cases hn
  | cons m rest ih =>
      rcases List.mem_cons.mp hn with rfl | hn
      · exact entered_foldl (fun v m hv => entered_visit (fuel + 1) hv m)
          (mem_entered_visit fuel v h) rest
      · exact ih hn

/-- The order holds every node once. -/
theorem dependencyOrder_perm (count : Nat) (deps : Nat → List Nat) :
    (dependencyOrder count deps).Perm (List.range count) := by
  have hstart : (⟨[], []⟩ : Visit).Balanced count [] := ⟨.refl _, List.nodup_nil, by simp⟩
  have hend :
      ((List.range count).foldl (visit count deps (count + 1)) ⟨[], []⟩).Balanced count [] :=
    balanced_foldl (fun v n hv => balanced_visit (count + 1) hv n) hstart _
  refine (List.reverse_perm _).trans (hend.perm.symm.trans ?_)
  refine (List.perm_ext_iff_of_nodup hend.nodup List.nodup_range).mpr fun n => ?_
  rw [List.mem_range]
  exact ⟨hend.lt n, fun hn => mem_entered_foldl_visit count (List.mem_range.mpr hn) hn⟩

end Visiting

theorem filterMap_getElem?_range {α : Type} (l : List α) :
    (List.range l.length).filterMap (l[·]?) = l := by
  have hmap : (List.range l.length).map (l[·]?) = l.map some := by
    refine List.ext_getElem? fun i => ?_
    rw [List.getElem?_map, List.getElem?_map]
    rcases Nat.lt_or_ge i l.length with hi | hi
    · rw [List.getElem?_range hi, Option.map_some, List.getElem?_eq_getElem hi, Option.map_some]
    · rw [List.getElem?_eq_none (by simpa using hi), List.getElem?_eq_none hi]
      rfl
  have hid := congrArg (List.filterMap id) hmap
  rw [List.filterMap_map, List.filterMap_map] at hid
  simpa using hid

/-- The elements of a list, those first on which others depend. -/
def ordered {α : Type} (l : List α) (deps : Nat → List Nat) : List α :=
  (dependencyOrder l.length deps).filterMap (l[·]?)

theorem ordered_perm {α : Type} (l : List α) (deps : Nat → List Nat) :
    (ordered l deps).Perm l :=
  ((dependencyOrder_perm _ _).filterMap _).trans (.of_eq (filterMap_getElem?_range l))

/-- The text holds the functions of the program, each once. -/
theorem Program.orderedFunctions_perm (p : Program) : p.orderedFunctions.Perm p.functions :=
  ordered_perm _ _

end Glsl

end Shading
