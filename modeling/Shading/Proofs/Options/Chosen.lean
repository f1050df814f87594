import Mathlib.Data.List.Forall2
import Shading.Extract.Stage
import Shading.Proofs.Options.Mentions

/-!
# The file items of a permutation

A permutation first decides which items a file has: those that stand in no optional block
or in a selected branch. Each of them is then specialized on its own, without any scope.
-/

namespace Shading

namespace Stmt

mutual

/-- The conditions of all optional blocks at file level, in both of their branches. -/
def fileConditions : Stmt → List Expr
  | .block _ items => fileConditionsList items
  | .optional _ condition body otherwise =>
    condition :: (body.fileConditions ++ fileConditionsOption otherwise)
  | _ => []

/-- The conditions in a list that choose what stands in the file. -/
def fileConditionsList : List Stmt → List Expr
  | [] => []
  | s :: ss => s.fileConditions ++ fileConditionsList ss

def fileConditionsOption : Option Stmt → List Expr
  | none => []
  | some s => s.fileConditions

end

/-- What a specialized statement has in common with its source. -/
structure Outline (s t : Stmt) : Prop where
  span : t.span = s.span
  sites : ∀ i, DeclarationIndex.sites i t = DeclarationIndex.sites i s
  signature : t.signature? = s.signature?
  library : t.isLibrary = s.isLibrary
  optional : t.isOptional = false
  block : t.isBlock = (s.isBlock || s.isOptional)
  table : t.isTable = s.isTable

end Stmt

/-- Only a block is flattened into more than itself. -/
theorem Extractor.flatten_of_not_block {s : Stmt} (h : s.isBlock = false) : flatten s = [s] := by
  cases s with
  | block _ _ => cases h
  | _ => rfl

namespace Permutation

variable {p q : Permutation}

mutual

/-- The items at file level that a permutation selects, as they are in the source. -/
def chosen (p : Permutation) : Stmt → List Stmt
  | .block _ items => p.chosenList items
  | .optional _ condition body otherwise =>
    match condition.evaluateCondition p.lookup with
    | .ok true => if p.drops body then [] else p.chosen body
    | .ok false => p.chosenOption otherwise
    | .error _ => []
  | s => [s]

/-- What is chosen of a list; a declaration of options that is not kept is dropped. -/
def chosenList (p : Permutation) : List Stmt → List Stmt
  | [] => []
  | s :: ss => (if p.drops s then [] else p.chosen s) ++ p.chosenList ss

def chosenOption (p : Permutation) : Option Stmt → List Stmt
  | none => []
  | some s => if p.drops s then [] else p.chosen s

end

mutual

/-- The selection depends on the options that conditions at file level mention only. -/
theorem chosen_congr (hkeep : p.config.keepOptions = q.config.keepOptions) (s : Stmt)
    (h : ∀ c ∈ s.fileConditions, p.AgreesOn q c.nodes) : p.chosen s = q.chosen s := by
  cases s with
  | block b items => exact chosenList_congr hkeep items h
  | optional b condition body otherwise =>
      simp only [Stmt.fileConditions, List.forall_mem_cons, List.forall_mem_append] at h
      simp only [chosen, condition.evaluateCondition_congr h.1, drops_congr hkeep,
        chosen_congr hkeep body h.2.1, chosenOption_congr hkeep otherwise h.2.2]
  | _ => simp only [chosen]

theorem chosenList_congr (hkeep : p.config.keepOptions = q.config.keepOptions)
    (ss : List Stmt) (h : ∀ c ∈ Stmt.fileConditionsList ss, p.AgreesOn q c.nodes) :
    p.chosenList ss = q.chosenList ss := by
  cases ss with
  | nil => rfl
  | cons s rest =>
      simp only [Stmt.fileConditionsList, List.forall_mem_append] at h
      simp only [chosenList, drops_congr hkeep, chosen_congr hkeep s h.1,
        chosenList_congr hkeep rest h.2]

theorem chosenOption_congr (hkeep : p.config.keepOptions = q.config.keepOptions)
    (s : Option Stmt) (h : ∀ c ∈ Stmt.fileConditionsOption s, p.AgreesOn q c.nodes) :
    p.chosenOption s = q.chosenOption s := by
  cases s with
  | none => rfl
  | some s => simp only [chosenOption, drops_congr hkeep, chosen_congr hkeep s h]

end

section Depth

variable {scopes scopes' : Scopes}

/-- Leaving a scope restores how many scopes are open. -/
theorem length_leave {after : Scopes} (h : after.length = scopes.enter.length) :
    (scopes.leave after).length = scopes.length := by
  cases scopes with
  | nil => exact h
  | cons scope rest => simpa [Scopes.enter, Scopes.leave] using h

theorem length_declare (scopes : Scopes) (n : String) :
    (scopes.declare n).length = scopes.length := by
  cases scopes <;> rfl

theorem length_mapM {α β : Type} {f : α → Scoped β}
    (hf : ∀ {a b scopes scopes'}, f a scopes = .ok (b, scopes') → scopes' = scopes)
    {as : List α} {bs : List β} (h : as.mapM f scopes = .ok (bs, scopes')) :
    scopes' = scopes := by
  induction as generalizing scopes bs with
  | nil =>
      cases h
      rfl
  | cons a rest ih =>
      obtain ⟨b, mid, bs', ha, hrest, rfl⟩ := of_mapM_cons h
      rw [ih hrest, hf ha]

mutual

/-- After a statement as many scopes are open as before it. -/
theorem length_of_stmt (s : Stmt) {t : Stmt} {scopes scopes' : Scopes}
    (h : p.stmt s scopes = .ok (t, scopes')) : scopes'.length = scopes.length := by
  cases s with
  | branch b arms otherwise =>
      obtain ⟨arms', mid, otherwise', harms, hother, rfl⟩ := of_stmt_branch h
      exact (length_of_optionStmt otherwise hother).trans (length_of_arms arms harms)
  | forLoop b init condition step body =>
      obtain ⟨init', mid, condition', step', body', after, hinit, _, _, hbody, rfl, rfl⟩ :=
        of_stmt_forLoop h
      exact length_leave ((length_of_stmt body hbody).trans (length_of_optionStmt init hinit))
  | whileLoop b condition body =>
      obtain ⟨condition', body', _, hbody, rfl⟩ := of_stmt_whileLoop h
      exact length_of_stmt body hbody
  | doWhile b body condition =>
      obtain ⟨body', condition', hbody, _, rfl⟩ := of_stmt_doWhile h
      exact length_of_stmt body hbody
  | var b d =>
      obtain ⟨initializer, _, rfl, rfl⟩ := of_stmt_var h
      exact length_declare scopes d.name
  | options b ds =>
      obtain ⟨ds', hds, rfl⟩ := of_stmt_options h
      rw [length_mapM (fun hd => (of_optionDeclaration hd).choose_spec.2.1) hds]
  | consts b ds =>
      obtain ⟨ds', hds, rfl⟩ := of_stmt_consts h
      rw [length_mapM (fun hd => (of_constDeclaration hd).choose_spec.2.1) hds]
  | function b f body =>
      obtain ⟨body', after, hbody, rfl, rfl⟩ := of_stmt_function h
      rw [List.length_tail, length_of_stmts body hbody, List.length_cons, Nat.add_sub_cancel]
  | expr b e =>
      obtain ⟨e', _, rfl, rfl⟩ := of_stmt_expr h
      rfl
  | ret b value =>
      obtain ⟨value', _, rfl, rfl⟩ := of_stmt_ret h
      rfl
  | block b items =>
      obtain ⟨items', after, hitems, rfl, rfl⟩ := of_stmt_block h
      exact length_leave (length_of_stmts items hitems)
  | optional b condition body otherwise =>
      obtain ⟨taken, items, _, rfl, hitems⟩ := of_stmt_optional h
      cases taken with
      | true => exact length_of_branchStmts body hitems
      | false =>
          cases otherwise with
          | none =>
              cases hitems
              rfl
          | some s =>
              rw [alternative_some] at hitems
              exact length_of_branchStmts s hitems
  | _ =>
      cases h
      rfl
termination_by 4 * sizeOf s
decreasing_by
  all_goals subst_vars; simp +arith

/-- The branch of an optional block leaves as many scopes open as it found. -/
theorem length_of_branchStmts (s : Stmt) {items : List Stmt} {scopes scopes' : Scopes}
    (h : p.branchStmts s scopes = .ok (items, scopes')) : scopes'.length = scopes.length := by
  by_cases hblock : ∃ b inner, s = .block b inner
  · obtain ⟨b, inner, rfl⟩ := hblock
    exact length_of_stmts inner h
  · rcases of_branchStmts (fun b inner hb => hblock ⟨b, inner, hb⟩) h with
      ⟨_, _, rfl⟩ | ⟨_, t, ht, _⟩
    · rfl
    · exact length_of_stmt s ht
termination_by 4 * sizeOf s + 1
decreasing_by
  all_goals subst_vars; simp +arith

theorem length_of_stmts (ss : List Stmt) {out : List Stmt} {scopes scopes' : Scopes}
    (h : p.stmts ss scopes = .ok (out, scopes')) : scopes'.length = scopes.length := by
  cases ss with
  | nil =>
      cases h
      rfl
  | cons s rest =>
      rcases of_stmts_cons h with ⟨_, hrest⟩ | ⟨_, t, mid, out', ht, hrest, rfl⟩
      · exact length_of_stmts rest hrest
      · exact (length_of_stmts rest hrest).trans (length_of_stmt s ht)
termination_by 4 * sizeOf ss
decreasing_by
  all_goals subst_vars; simp +arith

theorem length_of_arms (as : List (Expr × Stmt)) {out : List (Expr × Stmt)}
    {scopes scopes' : Scopes} (h : p.arms as scopes = .ok (out, scopes')) :
    scopes'.length = scopes.length := by
  match as with
  | [] =>
      cases h
      rfl
  | (c, s) :: rest =>
      obtain ⟨c', s', mid, rest', _, hs, hrest, rfl⟩ := of_arms_cons h
      exact (length_of_arms rest hrest).trans (length_of_stmt s hs)
termination_by 4 * sizeOf as
decreasing_by
  all_goals subst_vars; simp +arith

theorem length_of_optionStmt (s : Option Stmt) {out : Option Stmt} {scopes scopes' : Scopes}
    (h : p.optionStmt s scopes = .ok (out, scopes')) : scopes'.length = scopes.length := by
  cases s with
  | none =>
      cases h
      rfl
  | some s =>
      obtain ⟨t, ht, rfl⟩ := of_optionStmt_some h
      exact length_of_stmt s ht
termination_by 4 * sizeOf s
decreasing_by
  all_goals subst_vars; simp +arith

end

end Depth

section File

/-- The sites of a block of entries stay where a run keeps the names and spans of the entries. -/
theorem blockSites_of_mapM {α : Type} {f : α → Scoped α} {c : Category} {i : Nat}
    {name : α → String} {span : α → Span}
    (hf : ∀ {a b scopes scopes'}, f a scopes = .ok (b, scopes') →
      name b = name a ∧ span b = span a)
    {scopes scopes' : Scopes} {as bs : List α} (h : as.mapM f scopes = .ok (bs, scopes')) :
    DeclarationIndex.blockSites c i name span bs =
      DeclarationIndex.blockSites c i name span as := by
  have hfrom (n : Nat) :
      (bs.zipIdx n).map (fun x => Site.mk c (name x.1) i (some x.2) (span x.1)) =
        (as.zipIdx n).map (fun x => Site.mk c (name x.1) i (some x.2) (span x.1)) := by
    induction as generalizing scopes bs n with
    | nil =>
        cases h
        rfl
    | cons a rest ih =>
        obtain ⟨b, mid, bs', ha, hrest, rfl⟩ := of_mapM_cons h
        obtain ⟨hname, hspan⟩ := hf ha
        simp only [List.zipIdx_cons, List.map_cons, hname, hspan, ih hrest]
  exact hfrom 0

/-- What a statement is specialized to has its outline: the names and spans by which items are told
apart. -/
theorem outline_of_stmt {s t : Stmt} {scopes scopes' : Scopes}
    (h : p.stmt s scopes = .ok (t, scopes')) : s.Outline t := by
  cases s with
  | branch b arms otherwise =>
      obtain ⟨_, _, _, _, _, rfl⟩ := of_stmt_branch h
      exact ⟨rfl, fun _ => rfl, rfl, rfl, rfl, rfl, rfl⟩
  | forLoop b init condition step body =>
      obtain ⟨_, _, _, _, _, _, _, _, _, _, _, rfl⟩ := of_stmt_forLoop h
      exact ⟨rfl, fun _ => rfl, rfl, rfl, rfl, rfl, rfl⟩
  | whileLoop b condition body =>
      obtain ⟨_, _, _, _, rfl⟩ := of_stmt_whileLoop h
      exact ⟨rfl, fun _ => rfl, rfl, rfl, rfl, rfl, rfl⟩
  | doWhile b body condition =>
      obtain ⟨_, _, _, _, rfl⟩ := of_stmt_doWhile h
      exact ⟨rfl, fun _ => rfl, rfl, rfl, rfl, rfl, rfl⟩
  | var b d =>
      obtain ⟨_, _, _, rfl⟩ := of_stmt_var h
      exact ⟨rfl, fun _ => rfl, rfl, rfl, rfl, rfl, rfl⟩
  | options b ds =>
      obtain ⟨ds', hds, rfl⟩ := of_stmt_options h
      refine ⟨rfl, fun i => blockSites_of_mapM (fun hd => ?_) hds, rfl, rfl, rfl, rfl, rfl⟩
      obtain ⟨_, _, _, rfl⟩ := of_optionDeclaration hd
      exact ⟨rfl, rfl⟩
  | consts b ds =>
      obtain ⟨ds', hds, rfl⟩ := of_stmt_consts h
      refine ⟨rfl, fun i => blockSites_of_mapM (fun hd => ?_) hds, rfl, rfl, rfl, rfl, rfl⟩
      obtain ⟨_, _, _, rfl⟩ := of_constDeclaration hd
      exact ⟨rfl, rfl⟩
  | function b f body =>
      obtain ⟨_, _, _, _, rfl⟩ := of_stmt_function h
      exact ⟨rfl, fun _ => rfl, rfl, rfl, rfl, rfl, rfl⟩
  | expr b e =>
      obtain ⟨_, _, _, rfl⟩ := of_stmt_expr h
      exact ⟨rfl, fun _ => rfl, rfl, rfl, rfl, rfl, rfl⟩
  | ret b value =>
      obtain ⟨_, _, _, rfl⟩ := of_stmt_ret h
      exact ⟨rfl, fun _ => rfl, rfl, rfl, rfl, rfl, rfl⟩
  | block b items =>
      obtain ⟨_, _, _, _, rfl⟩ := of_stmt_block h
      exact ⟨rfl, fun _ => rfl, rfl, rfl, rfl, rfl, rfl⟩
  | optional b condition body otherwise =>
      obtain ⟨_, _, _, rfl, _⟩ := of_stmt_optional h
      exact ⟨rfl, fun _ => rfl, rfl, rfl, rfl, rfl, rfl⟩
  | _ =>
      cases h
      exact ⟨rfl, fun _ => rfl, rfl, rfl, rfl, rfl, rfl⟩

/-- An item is specialized on its own at file level, where no scope is open. -/
def ItemRun (p : Permutation) (s t : Stmt) : Prop := p.stmt s [] = .ok (t, [])

theorem flattenList_append (ss ts : List Stmt) :
    Extractor.flattenList (ss ++ ts) = Extractor.flattenList ss ++ Extractor.flattenList ts := by
  induction ss with
  | nil => rfl
  | cons s rest ih => simp [Extractor.flattenList, ih]

theorem flattenList_contribution (s t : Stmt) :
    Extractor.flattenList (contribution s t) = Extractor.flatten t := by
  have hsingle : Extractor.flattenList [t] = Extractor.flatten t := by
    simp [Extractor.flattenList]
  cases s with
  | optional _ _ _ _ =>
      cases t with
      | block _ items => rfl
      | _ => exact hsingle
  | _ => exact hsingle

mutual

/-- The items of a specialized file are the selected items, each specialized on its own. -/
theorem items_of_stmt (s : Stmt) {t : Stmt} (h : p.ItemRun s t) :
    List.Forall₂ p.ItemRun (p.chosen s) (Extractor.flatten t) := by
  cases s with
  | block b items =>
      obtain ⟨items', after, hitems, hafter, rfl⟩ := of_stmt_block h
      cases hafter
      exact items_of_stmts items hitems
  | optional b condition body otherwise =>
      obtain ⟨taken, items, hcondition, rfl, hitems⟩ := of_stmt_optional h
      rw [chosen, hcondition]
      cases taken with
      | true => exact items_of_branchStmts body hitems
      | false =>
          cases otherwise with
          | none =>
              cases hitems
              exact .nil
          | some s =>
              rw [alternative_some] at hitems
              exact items_of_branchStmts s hitems
  | _ =>
      rw [Extractor.flatten_of_not_block (outline_of_stmt h).block]
      exact .cons h .nil
termination_by 4 * sizeOf s
decreasing_by
  all_goals subst_vars; simp +arith

/-- A selected branch flattens to the statements chosen from it, each specialized on its own. -/
theorem items_of_branchStmts (s : Stmt) {items : List Stmt}
    (h : p.branchStmts s [] = .ok (items, [])) :
    List.Forall₂ p.ItemRun (if p.drops s then [] else p.chosen s)
      (Extractor.flattenList items) := by
  by_cases hblock : ∃ b inner, s = .block b inner
  · obtain ⟨b, inner, rfl⟩ := hblock
    exact items_of_stmts inner h
  · rcases of_branchStmts (fun b inner hb => hblock ⟨b, inner, hb⟩) h with
      ⟨hdrops, rfl, _⟩ | ⟨hdrops, t, ht, rfl⟩
    · rw [hdrops]
      exact .nil
    · rw [hdrops, flattenList_contribution]
      exact items_of_stmt s ht
termination_by 4 * sizeOf s + 1
decreasing_by
  all_goals subst_vars; simp +arith

theorem items_of_stmts (ss : List Stmt) {out : List Stmt}
    (h : p.stmts ss [] = .ok (out, [])) :
    List.Forall₂ p.ItemRun (p.chosenList ss) (Extractor.flattenList out) := by
  cases ss with
  | nil =>
      cases h
      exact .nil
  | cons s rest =>
      rcases of_stmts_cons h with ⟨hdrops, hrest⟩ | ⟨hdrops, t, mid, out', ht, hrest, rfl⟩
      · rw [chosenList, hdrops]
        exact items_of_stmts rest hrest
      · obtain rfl : mid = [] := List.eq_nil_of_length_eq_zero (length_of_stmt s ht)
        rw [chosenList, hdrops, flattenList_append, flattenList_contribution]
        exact List.rel_append (items_of_stmt s ht) (items_of_stmts rest hrest)
termination_by 4 * sizeOf ss
decreasing_by
  all_goals subst_vars; simp +arith

end

/-- A run at file level leaves no scope open. -/
theorem itemRun_of_stmt {s t : Stmt} {scopes : Scopes} (h : p.stmt s [] = .ok (t, scopes)) :
    p.ItemRun s t := by
  obtain rfl : scopes = [] := List.eq_nil_of_length_eq_zero (length_of_stmt s h)
  exact h

end File

end Permutation

end Shading
