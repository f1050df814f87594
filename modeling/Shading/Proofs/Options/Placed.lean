import Shading.Proofs.Options.Survivors

/-!
# Everything stays in its place

What a permutation makes of a tree stands where the parts of the tree stood, and no optional
block stands among it.
-/

namespace Shading

open Stmt (Placed Place)

namespace Permutation

variable {p : Permutation} {place : Place} {scopes scopes' : Scopes}

/-- What becomes of a statement, as it stands or as the branch of an optional block, stands in
its place. -/
structure Keeps (p : Permutation) (place : Place) (s : Stmt) : Prop where
  stmt : ∀ {scopes scopes' : Scopes} {t : Stmt}, p.stmt s scopes = .ok (t, scopes') →
    t.Placed true place
  branch : ∀ {scopes scopes' : Scopes} {items : List Stmt},
    p.branchStmts s scopes = .ok (items, scopes') → ∀ t ∈ items, t.Placed true place

/-- What a statement contributes to a list stands where statements of that list may. -/
theorem placed_contribution (s : Stmt) {t : Stmt} (h : t.Placed true place) :
    ∀ u ∈ contribution s t, u.Placed true place := by
  have hsingle : ∀ u ∈ [t], u.Placed true place := by simpa using h
  cases s with
  | optional _ _ _ _ =>
      cases h with
      | block hitems => exact hitems
      | _ => exact hsingle
  | _ => exact hsingle

/-- A statement that is no block keeps its place in a list where it does so by itself. -/
theorem keeps_of_stmt {s : Stmt} (hblock : s.isBlock = false)
    (h : ∀ {scopes scopes' : Scopes} {t : Stmt}, p.stmt s scopes = .ok (t, scopes') →
      t.Placed true place) : Keeps p place s where
  stmt := h
  branch {_ _ items} hitems := by
    have hne (b : Span) (ss : List Stmt) : s ≠ .block b ss := by
      rintro rfl
      cases hblock
    rcases of_branchStmts hne hitems with ⟨_, rfl, _⟩ | ⟨_, t, ht, rfl⟩
    · simp
    · exact placed_contribution s (h ht)

theorem placed_stmts {ss out : List Stmt} (hss : ∀ s ∈ ss, Keeps p place s)
    (h : p.stmts ss scopes = .ok (out, scopes')) : ∀ t ∈ out, t.Placed true place := by
  induction ss generalizing scopes out with
  | nil =>
      cases h
      simp
  | cons s rest ih =>
      have hrest : ∀ t ∈ rest, Keeps p place t := fun t ht => hss t (List.mem_cons_of_mem _ ht)
      rcases of_stmts_cons h with ⟨_, hout⟩ | ⟨_, t, mid, out', ht, hout, rfl⟩
      · exact ih hrest hout
      · intro u hu
        rcases List.mem_append.mp hu with hu | hu
        · exact placed_contribution s ((hss s List.mem_cons_self).stmt ht) u hu
        · exact ih hrest hout u hu

theorem placed_arms {arms out : List (Expr × Stmt)} (harms : ∀ a ∈ arms, Keeps p place a.2)
    (h : p.arms arms scopes = .ok (out, scopes')) : ∀ a ∈ out, a.2.Placed true place := by
  induction arms generalizing scopes out with
  | nil =>
      cases h
      simp
  | cons a rest ih =>
      obtain ⟨c', s', mid, rest', _, hstmt, hrest, rfl⟩ := of_arms_cons h
      have htail := ih (fun b hb => harms b (List.mem_cons_of_mem _ hb)) hrest
      intro b hb
      rcases List.mem_cons.mp hb with rfl | hb
      · exact (harms a List.mem_cons_self).stmt hstmt
      · exact htail b hb

theorem placed_optionStmt {s out : Option Stmt} (hs : ∀ t ∈ s, Keeps p place t)
    (h : p.optionStmt s scopes = .ok (out, scopes')) : ∀ t ∈ out, t.Placed true place := by
  cases s with
  | none =>
      cases h
      simp
  | some s =>
      obtain ⟨t, ht, rfl⟩ := of_optionStmt_some h
      simpa using (hs s rfl).stmt ht

/-- Statements in their places are kept there, one case for each place that a statement has. -/
theorem keeps_of_placed {s : Stmt} (hs : s.Placed false place) : Keeps p place s := by
  induction hs with
  | block _ ih =>
      refine ⟨fun h => ?_, fun h => placed_stmts ih h⟩
      obtain ⟨items', after, hitems, _, rfl⟩ := of_stmt_block h
      exact .block (placed_stmts ih hitems)
  | @optional _ _ _ _ otherwise _ _ _ _ _ ihbody ihother =>
      refine keeps_of_stmt rfl fun h => ?_
      obtain ⟨taken, items, _, rfl, hitems⟩ := of_stmt_optional h
      cases taken with
      | true => exact .block (ihbody.branch hitems)
      | false =>
          cases otherwise with
          | none =>
              cases hitems
              exact .block (by simp)
          | some s =>
              rw [alternative_some] at hitems
              exact .block ((ihother s rfl).branch hitems)
  | branch _ _ iharms ihother =>
      refine keeps_of_stmt rfl fun h => ?_
      obtain ⟨arms', mid, otherwise', harms, hother, rfl⟩ := of_stmt_branch h
      exact .branch (placed_arms iharms harms) (placed_optionStmt ihother hother)
  | forLoop _ _ ihinit ihbody =>
      refine keeps_of_stmt rfl fun h => ?_
      obtain ⟨init', mid, condition', step', body', after, hinit, _, _, hbody, _, rfl⟩ :=
        of_stmt_forLoop h
      exact .forLoop (placed_optionStmt ihinit hinit) (ihbody.stmt hbody)
  | whileLoop _ ih =>
      refine keeps_of_stmt rfl fun h => ?_
      obtain ⟨condition', body', _, hbody, rfl⟩ := of_stmt_whileLoop h
      exact .whileLoop (ih.stmt hbody)
  | doWhile _ ih =>
      refine keeps_of_stmt rfl fun h => ?_
      obtain ⟨body', condition', hbody, _, rfl⟩ := of_stmt_doWhile h
      exact .doWhile (ih.stmt hbody)
  | function _ ih =>
      refine keeps_of_stmt rfl fun h => ?_
      obtain ⟨body', after, hbody, _, rfl⟩ := of_stmt_function h
      exact .function (placed_stmts ih hbody)
  | var =>
      refine keeps_of_stmt rfl fun h => ?_
      obtain ⟨_, _, _, rfl⟩ := of_stmt_var h
      exact .var
  | expr =>
      refine keeps_of_stmt rfl fun h => ?_
      obtain ⟨_, _, _, rfl⟩ := of_stmt_expr h
      exact .expr
  | ret =>
      refine keeps_of_stmt rfl fun h => ?_
      obtain ⟨_, _, _, rfl⟩ := of_stmt_ret h
      exact .ret
  | options =>
      refine keeps_of_stmt rfl fun h => ?_
      obtain ⟨_, _, rfl⟩ := of_stmt_options h
      exact .options
  | consts =>
      refine keeps_of_stmt rfl fun h => ?_
      obtain ⟨_, _, rfl⟩ := of_stmt_consts h
      exact .consts
  | leaveLoop | nextRound | discard | struct | inputs | outputs | externals | library =>
      refine keeps_of_stmt rfl fun h => ?_
      cases h
      constructor

end Permutation

/-- What a permutation makes of a file has everything in its place. -/
theorem Specializer.placed_process {file tree : Stmt} {z : Specializer}
    (hfile : file.Placed false .file) (hprocess : z.process file = .ok tree) :
    tree.Placed true .file := by
  obtain ⟨p, scopes, _, _, hrun⟩ := of_process hprocess
  exact (Permutation.keeps_of_placed hfile).stmt hrun

end Shading
