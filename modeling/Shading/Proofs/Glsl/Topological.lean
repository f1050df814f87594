import Mathlib.Logic.Relation
import Shading.Proofs.Glsl.Order

/-!
# The declaration order is topological

What a node depends on comes before it, unless it depends on the node in turn. While a node
is visited every node that is still open reaches it, so a dependency that is not left by then
closes a cycle.
-/

namespace Shading

namespace Glsl

open Relation

section Visiting

variable {count : Nat} {deps : Nat → List Nat}

/-- A dependency among the nodes below `count`. -/
def Depends (count : Nat) (deps : Nat → List Nat) (u v : Nat) : Prop := v ∈ deps u ∧ v < count

/-- What a node depends on was left before it or depends on it in turn. The node that was left
last comes first. -/
def Settled (count : Nat) (deps : Nat → List Nat) : List Nat → Prop
  | [] => True
  | u :: before =>
    (∀ v, Depends count deps u v → v ∈ before ∨ ReflTransGen (Depends count deps) v u) ∧
      Settled count deps before

theorem Settled.of_append {after before : List Nat} (h : Settled count deps (after ++ before)) :
    Settled count deps before := by
  induction after with
  | nil => exact h
  | cons u after ih => exact ih h.2

theorem Visit.Balanced.length_pending_le {pending : List Nat} {v : Visit}
    (h : v.Balanced count pending) : pending.length ≤ count := by
  have hnodup : (pending ++ v.left).Nodup := h.perm.nodup_iff.mp h.nodup
  have hsub : pending ⊆ List.range count := fun n hn =>
    List.mem_range.mpr (h.lt n (h.perm.mem_iff.mpr (List.mem_append_left _ hn)))
  calc pending.length ≤ (List.range count).length :=
        (List.subperm_of_subset (List.nodup_append.mp hnodup).1 hsub).length_le
    _ = count := List.length_range

/-- A property of visits that each visit of a list keeps. -/
theorem foldl_visit_induction (P : Visit → Prop) (f : Visit → Nat → Visit) (nodes : List Nat)
    (hf : ∀ n ∈ nodes, ∀ v, P v → P (f v n)) {v : Visit} (h : P v) : P (nodes.foldl f v) := by
  induction nodes generalizing v with
  | nil => exact h
  | cons n rest ih =>
      apply ih (fun m hm => hf m (List.mem_cons_of_mem n hm))
      exact hf n List.mem_cons_self v h

/-- A visit leaves nodes settled, if the open nodes reach the one that is visited. -/
theorem settled_visit (fuel : Nat) {pending : List Nat} {v : Visit} {node : Nat}
    (hbalanced : v.Balanced count pending) (hsettled : Settled count deps v.left)
    (hopen : node < count → ∀ t ∈ pending, ReflTransGen (Depends count deps) t node)
    (hfuel : count < pending.length + fuel) :
    Settled count deps (visit count deps fuel v node).left := by
  induction fuel generalizing pending v node with
  | zero => exact hsettled
  | succ fuel ih =>
      rw [visit]
      split
      · rename_i hnew
        have hstart : (⟨node :: v.entered, v.left⟩ : Visit).Balanced count (node :: pending) :=
          ⟨hbalanced.perm.cons node, List.nodup_cons.mpr ⟨hnew.2, hbalanced.nodup⟩,
            List.forall_mem_cons.mpr ⟨hnew.1, hbalanced.lt⟩⟩
        have hreach (d : Nat) (hd : d ∈ deps node) (hlt : d < count) :
            ∀ t ∈ node :: pending, ReflTransGen (Depends count deps) t d := by
          intro t ht
          apply ReflTransGen.tail _ ⟨hd, hlt⟩
          rcases List.mem_cons.mp ht with rfl | ht
          · exact .refl
          · exact hopen hnew.1 t ht
        obtain ⟨hbelow, hleft⟩ := foldl_visit_induction
          (fun u => u.Balanced count (node :: pending) ∧ Settled count deps u.left)
          (visit count deps fuel) (deps node)
          (fun d hd u hu => ⟨balanced_visit fuel hu.1 d,
            ih hu.1 hu.2 (hreach d hd) (by rw [List.length_cons]; omega)⟩)
          ⟨hstart, hsettled⟩
        refine ⟨fun d hd => ?_, hleft⟩
        -- a level deeper one more node is open, so there is fuel left to enter the dependency
        obtain ⟨fuel, rfl⟩ : ∃ k, fuel = k + 1 := by
          have hle := hstart.length_pending_le
          rw [List.length_cons] at hle
          exact ⟨fuel - 1, by omega⟩
        have hentered : d ∈ ((deps node).foldl (visit count deps (fuel + 1))
            ⟨node :: v.entered, v.left⟩).entered := mem_entered_foldl_visit fuel hd.1 hd.2
        rcases List.mem_append.mp (hbelow.perm.mem_iff.mp hentered) with hopened | hdone
        · right
          rcases List.mem_cons.mp hopened with rfl | hpending
          · exact .refl
          · exact hopen hnew.1 d hpending
        · exact .inl hdone
      · exact hsettled

/-- The order of dependencies is settled from its end. -/
theorem settled_dependencyOrder (count : Nat) (deps : Nat → List Nat) :
    Settled count deps (dependencyOrder count deps).reverse := by
  have hstart : (⟨[], []⟩ : Visit).Balanced count [] := ⟨.refl _, List.nodup_nil, by simp⟩
  have hrun := foldl_visit_induction
    (fun u => u.Balanced count [] ∧ Settled count deps u.left)
    (visit count deps (count + 1)) (List.range count)
    (fun n _ u hu => ⟨balanced_visit (count + 1) hu.1 n,
      settled_visit (count + 1) hu.1 hu.2 (fun _ t ht => by cases ht) (by simp)⟩)
    ⟨hstart, trivial⟩
  rw [dependencyOrder, List.reverse_reverse]
  exact hrun.2

theorem nodup_dependencyOrder (count : Nat) (deps : Nat → List Nat) :
    (dependencyOrder count deps).Nodup :=
  (dependencyOrder_perm count deps).nodup_iff.mpr List.nodup_range

/-- What a node depends on comes before it, unless it depends on the node in turn. -/
theorem mem_before_of_depends {before after : List Nat} {u v : Nat}
    (h : dependencyOrder count deps = before ++ u :: after) (hdepends : Depends count deps u v)
    (hback : ¬ReflTransGen (Depends count deps) v u) : v ∈ before := by
  have hsettled := settled_dependencyOrder count deps
  have hsplit : (dependencyOrder count deps).reverse =
      after.reverse ++ u :: before.reverse := by
    rw [h, List.reverse_append, List.reverse_cons, List.append_assoc, List.singleton_append]
  rw [hsplit] at hsettled
  rcases hsettled.of_append.1 v hdepends with hmem | hreach
  · exact List.mem_reverse.mp hmem
  · exact absurd hreach hback

end Visiting

/-- The list has an `a`, and every copy of it stands before every copy of `b`. -/
def Precedes {α : Type} (l : List α) (a b : α) : Prop :=
  ∃ before after, l = before ++ after ∧ a ∈ before ∧ a ∉ after ∧ b ∉ before

namespace Precedes

variable {α β : Type} {l before after : List α} {a b : α}

theorem of_append (hmem : a ∈ before) (ha : a ∉ after) (hb : b ∉ before) :
    Precedes (before ++ after) a b := ⟨before, after, rfl, hmem, ha, hb⟩

theorem append (h : Precedes l a b) (hbefore : b ∉ before) (hafter : a ∉ after) :
    Precedes (before ++ (l ++ after)) a b := by
  obtain ⟨xs, ys, rfl, hmem, ha, hb⟩ := h
  refine ⟨before ++ xs, ys ++ after, by simp, ?_, ?_, ?_⟩
  · exact List.mem_append_right _ hmem
  · exact fun h => (List.mem_append.mp h).elim ha hafter
  · exact fun h => (List.mem_append.mp h).elim hbefore hb

theorem map {f : α → β} (hf : Function.Injective f) (h : Precedes l a b) :
    Precedes (l.map f) (f a) (f b) := by
  obtain ⟨xs, ys, rfl, hmem, ha, hb⟩ := h
  refine ⟨xs.map f, ys.map f, List.map_append, List.mem_map_of_mem hmem, ?_, ?_⟩
  · exact fun h => ha ((List.mem_map_of_injective hf).mp h)
  · exact fun h => hb ((List.mem_map_of_injective hf).mp h)

theorem filterMap {f : α → Option β} {a' b' : β} (ha : ∀ x, f x = some a' ↔ x = a)
    (hb : ∀ x, f x = some b' ↔ x = b) (h : Precedes l a b) : Precedes (l.filterMap f) a' b' := by
  obtain ⟨xs, ys, rfl, hmem, hafter, hbefore⟩ := h
  refine ⟨xs.filterMap f, ys.filterMap f, List.filterMap_append, ?_, ?_, ?_⟩
  · exact List.mem_filterMap.mpr ⟨a, hmem, (ha a).mpr rfl⟩
  · intro hin
    obtain ⟨x, hx, heq⟩ := List.mem_filterMap.mp hin
    exact hafter ((ha x).mp heq ▸ hx)
  · intro hin
    obtain ⟨x, hx, heq⟩ := List.mem_filterMap.mp hin
    exact hbefore ((hb x).mp heq ▸ hx)

/-- What is missing from the first part precedes nothing of it. -/
theorem not_of_append (ha : a ∉ before) (hb : b ∈ before) : ¬Precedes (before ++ after) a b := by
  rintro ⟨xs, ys, heq, hmem, -, hnotin⟩
  rcases List.append_eq_append_iff.mp heq with ⟨zs, rfl, -⟩ | ⟨zs, rfl, -⟩
  · exact hnotin (List.mem_append_left zs hb)
  · exact ha (List.mem_append_left zs hmem)

end Precedes

section Elements

variable {α : Type} {l : List α} {deps : Nat → List Nat} {R : α → α → Prop}

/-- A path of dependencies is a path between the elements. -/
theorem reflTransGen_of_depends
    (hdeps : ∀ i j a, l[i]? = some a → Depends l.length deps i j → ∃ b, l[j]? = some b ∧ R a b)
    {i j : Nat} {a b : α} (hi : l[i]? = some a) (hj : l[j]? = some b)
    (h : ReflTransGen (Depends l.length deps) i j) :
    ReflTransGen (fun x y => R x y ∧ y ∈ l) a b := by
  induction h generalizing b with
  | refl =>
      obtain rfl := Option.some.inj (hi.symm.trans hj)
      exact .refl
  | @tail k m hpath hstep ih =>
      have hk : k < l.length := by
        rcases hpath.cases_tail with rfl | ⟨_, _, hlast⟩
        · exact (List.getElem?_eq_some_iff.mp hi).1
        · exact hlast.2
      have hget : l[k]? = some l[k] := List.getElem?_eq_getElem hk
      obtain ⟨c, hc, hR⟩ := hdeps k m l[k] hget hstep
      obtain rfl := Option.some.inj (hc.symm.trans hj)
      exact (ih hget).tail ⟨hR, List.mem_of_getElem? hj⟩

/-- What an element needs comes before it, unless it needs the element in turn. -/
theorem precedes_ordered
    (hdeps : ∀ i j a, l[i]? = some a →
      (Depends l.length deps i j ↔ ∃ b, l[j]? = some b ∧ R a b))
    {a b : α} (ha : a ∈ l) (hb : b ∈ l) (hR : R a b)
    (hback : ¬ReflTransGen (fun x y => R x y ∧ y ∈ l) b a) : Precedes (ordered l deps) b a := by
  obtain ⟨before, after, hfirst, hnotin⟩ :=
    List.eq_append_cons_of_mem ((ordered_perm l deps).mem_iff.mpr ha)
  obtain ⟨is, rest, horder, hbefore, hrest⟩ := List.filterMap_eq_append_iff.mp hfirst
  obtain ⟨skipped, i, js, rfl, hnone, hi, hafter⟩ := List.filterMap_eq_cons_iff.mp hrest
  have hsplit : dependencyOrder l.length deps = (is ++ skipped) ++ i :: js := by
    rw [horder, List.append_assoc]
  -- every position of `b` comes before the first position of `a`
  have hbefore_of (j : Nat) (hj : l[j]? = some b) : j ∈ is ++ skipped := by
    apply mem_before_of_depends hsplit
    · exact (hdeps i j a hi).mpr ⟨b, hj, hR⟩
    · intro hreach
      exact hback (reflTransGen_of_depends (fun i j a hi => (hdeps i j a hi).mp) hj hi hreach)
  refine ⟨before, a :: after, hfirst, ?_, ?_, hnotin⟩
  · obtain ⟨j, hj⟩ := List.mem_iff_getElem?.mp hb
    rw [← hbefore, List.mem_filterMap]
    rcases List.mem_append.mp (hbefore_of j hj) with hmem | hmem
    · exact ⟨j, hmem, hj⟩
    · exact absurd (hj.symm.trans (hnone j hmem)) (by simp)
  · intro hmem
    rcases List.mem_cons.mp hmem with rfl | hmem
    · exact hback .refl
    · rw [← hafter] at hmem
      obtain ⟨j, hj, hget⟩ := List.mem_filterMap.mp hmem
      have hnodup := nodup_dependencyOrder l.length deps
      rw [hsplit] at hnodup
      exact (List.nodup_append.mp hnodup).2.2 j (hbefore_of j hget) j
        (List.mem_cons_of_mem i hj) rfl

end Elements

end Glsl

end Shading
