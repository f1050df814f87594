import Shading.Proofs.Options.Runs

/-!
# No option survives in the tree

A specialized tree has no optional block at any depth. It has no option block either,
unless these are kept, as long as option blocks stand in lists of the source, where they
are dropped.
-/

namespace Shading

namespace Stmt

/-- Whether the statement is a declaration of options. -/
def isOptions : Stmt → Bool
  | .options .. => true
  | _ => false

mutual

/-- Option blocks stand in lists only: the statement is none, and neither is any part that
has to be a single statement. -/
def OptionsListed : Stmt → Prop
  | .options .. => False
  | .branch _ arms otherwise => armsListed arms ∧ optionListed otherwise
  | .forLoop _ init _ _ body => optionListed init ∧ body.OptionsListed
  | .whileLoop _ _ body | .doWhile _ body _ => body.OptionsListed
  | .function _ _ items | .block _ items => listListed items
  | .optional _ _ body otherwise => body.OptionsListed ∧ optionListed otherwise
  | _ => True

def listListed : List Stmt → Prop
  | [] => True
  | s :: ss => (s.isOptions = true ∨ s.OptionsListed) ∧ listListed ss

def armsListed : List (Expr × Stmt) → Prop
  | [] => True
  | (_, s) :: rest => s.OptionsListed ∧ armsListed rest

def optionListed : Option Stmt → Prop
  | none => True
  | some s => s.OptionsListed

end

end Stmt

namespace Expr

mutual

/-- No statement is a node of an expression. -/
theorem stmt_notMem_nodes (s : Stmt) (e : Expr) : Node.stmt s ∉ e.nodes := by
  cases e with
  | constant _ _ => simp [nodes]
  | ref _ _ => simp [nodes]
  | index _ base place => simp [nodes, stmt_notMem_nodes s base, stmt_notMem_nodes s place]
  | field _ base _ => simp [nodes, stmt_notMem_nodes s base]
  | swizzle _ base _ => simp [nodes, stmt_notMem_nodes s base]
  | assign _ _ target value =>
      simp [nodes, stmt_notMem_nodes s target, stmt_notMem_nodes s value]
  | unary _ _ operand => simp [nodes, stmt_notMem_nodes s operand]
  | binary _ _ left right =>
      simp [nodes, stmt_notMem_nodes s left, stmt_notMem_nodes s right]
  | call _ _ args => simp [nodes, stmt_notMem_nodesList s args]
  | builtin _ _ args => simp [nodes, stmt_notMem_nodesList s args]
  | cast _ _ args => simp [nodes, stmt_notMem_nodesList s args]
  | ternary _ c t f =>
      simp [nodes, stmt_notMem_nodes s c, stmt_notMem_nodes s t, stmt_notMem_nodes s f]

theorem stmt_notMem_nodesList (s : Stmt) (es : List Expr) :
    Node.stmt s ∉ nodesList es := by
  cases es with
  | nil => simp [nodesList]
  | cons e rest => simp [nodesList, stmt_notMem_nodes s e, stmt_notMem_nodesList s rest]

end

theorem stmt_notMem_nodesOption (s : Stmt) (e : Option Expr) :
    Node.stmt s ∉ nodesOption e := by
  cases e with
  | none => simp [nodesOption]
  | some e => exact stmt_notMem_nodes s e

end Expr

namespace Permutation

/-- A statement that must not be left: an optional block, or an option block that is not
kept. -/
def Leftover (p : Permutation) : Stmt → Prop
  | .optional .. => True
  | .options .. => p.config.keepOptions = false
  | _ => False

/-- None of the nodes is a statement that must not be left. -/
def NoneLeft (p : Permutation) (ns : List Node) : Prop :=
  ∀ s, Node.stmt s ∈ ns → ¬p.Leftover s

variable {p : Permutation}

@[simp] theorem noneLeft_nil : p.NoneLeft [] := fun s h => by cases h

@[simp] theorem noneLeft_cons (n : Node) (ns : List Node) :
    p.NoneLeft (n :: ns) ↔ (∀ s, n = .stmt s → ¬p.Leftover s) ∧ p.NoneLeft ns := by
  simp only [NoneLeft, List.mem_cons]
  constructor
  · intro h
    exact ⟨fun s hs => h s (.inl hs.symm), fun s hs => h s (.inr hs)⟩
  · rintro ⟨hhead, htail⟩ s (hs | hs)
    · exact hhead s hs.symm
    · exact htail s hs

@[simp] theorem noneLeft_append (ns ms : List Node) :
    p.NoneLeft (ns ++ ms) ↔ p.NoneLeft ns ∧ p.NoneLeft ms := by
  simp only [NoneLeft, List.mem_append]
  constructor
  · intro h
    exact ⟨fun s hs => h s (.inl hs), fun s hs => h s (.inr hs)⟩
  · rintro ⟨hfirst, hsecond⟩ s (hs | hs)
    · exact hfirst s hs
    · exact hsecond s hs

theorem noneLeft_of_no_stmt {ns : List Node} (h : ∀ s, Node.stmt s ∉ ns) : p.NoneLeft ns :=
  fun s hs => absurd hs (h s)

@[simp] theorem noneLeft_expr (e : Expr) : p.NoneLeft e.nodes :=
  noneLeft_of_no_stmt fun s => e.stmt_notMem_nodes s

@[simp] theorem noneLeft_optionExpr (e : Option Expr) : p.NoneLeft (Expr.nodesOption e) :=
  noneLeft_of_no_stmt fun s => Expr.stmt_notMem_nodesOption s e

@[simp] theorem noneLeft_types {α : Type} (as : List α) (f : α → Ty) :
    p.NoneLeft (as.map fun a => .type (f a)) :=
  noneLeft_of_no_stmt (by simp)

theorem noneLeft_flatMap {α : Type} (as : List α) {f : α → List Node}
    (h : ∀ a, p.NoneLeft (f a)) : p.NoneLeft (as.flatMap f) := by
  intro s hs
  obtain ⟨a, _, hs⟩ := List.mem_flatMap.mp hs
  exact h a s hs

theorem nodesList_append (ss ts : List Stmt) :
    Stmt.nodesList (ss ++ ts) = Stmt.nodesList ss ++ Stmt.nodesList ts := by
  induction ss with
  | nil => rfl
  | cons s rest ih => simp [Stmt.nodesList, ih]

/-- What a statement contributes to a list is left over of it, as far as nodes go. -/
theorem noneLeft_contribution {s t : Stmt} (h : p.NoneLeft t.nodes) :
    p.NoneLeft (Stmt.nodesList (contribution s t)) := by
  have hsingle : p.NoneLeft (Stmt.nodesList [t]) := by simpa [Stmt.nodesList] using h
  cases s with
  | optional _ _ _ _ =>
      cases t with
      | block _ items =>
          simp only [Stmt.nodes, noneLeft_cons] at h
          exact h.2
      | _ => exact hsingle
  | _ => exact hsingle

/-- Where option blocks are dropped, a statement that is kept is none. -/
theorem isOptions_of_not_drops {s : Stmt} (hkeep : p.config.keepOptions = false)
    (hdrops : p.drops s = false) : s.isOptions = false := by
  cases s with
  | options _ _ => simp [drops, hkeep] at hdrops
  | _ => rfl

mutual

/-- A run leaves no optional block in its result, and no option block that is to be dropped. -/
theorem noneLeft_stmt (s : Stmt) {scopes scopes' : Scopes} {t : Stmt}
    (hs : p.config.keepOptions = false → s.OptionsListed)
    (h : p.stmt s scopes = .ok (t, scopes')) : p.NoneLeft t.nodes := by
  cases s with
  | branch b arms otherwise =>
      obtain ⟨arms', mid, otherwise', harms, hother, rfl⟩ := of_stmt_branch h
      have hleft := noneLeft_arms arms (fun hk => (hs hk).1) harms
      have hright := noneLeft_optionStmt otherwise (fun hk => (hs hk).2) hother
      simp [Stmt.nodes, Leftover, hleft, hright]
  | forLoop b init condition step body =>
      obtain ⟨init', mid, condition', step', body', after, hinit, _, _, hbody, _, rfl⟩ :=
        of_stmt_forLoop h
      have hleft := noneLeft_optionStmt init (fun hk => (hs hk).1) hinit
      have hright := noneLeft_stmt body (fun hk => (hs hk).2) hbody
      simp [Stmt.nodes, Leftover, hleft, hright]
  | whileLoop b condition body =>
      obtain ⟨condition', body', _, hbody, rfl⟩ := of_stmt_whileLoop h
      have hinner := noneLeft_stmt body hs hbody
      simp [Stmt.nodes, Leftover, hinner]
  | doWhile b body condition =>
      obtain ⟨body', condition', hbody, _, rfl⟩ := of_stmt_doWhile h
      have hinner := noneLeft_stmt body hs hbody
      simp [Stmt.nodes, Leftover, hinner]
  | var b d =>
      obtain ⟨initializer, _, _, rfl⟩ := of_stmt_var h
      simp [Stmt.nodes, Leftover]
  | options b ds =>
      obtain ⟨ds', _, rfl⟩ := of_stmt_options h
      rw [Stmt.nodes, noneLeft_cons]
      refine ⟨?_, noneLeft_flatMap ds' fun d => by simp⟩
      rintro _ ⟨rfl⟩ hkeep
      exact hs hkeep
  | consts b ds =>
      obtain ⟨ds', _, rfl⟩ := of_stmt_consts h
      rw [Stmt.nodes, noneLeft_cons]
      exact ⟨by simp [Leftover], noneLeft_flatMap ds' fun d => by simp⟩
  | function b f body =>
      obtain ⟨body', after, hbody, _, rfl⟩ := of_stmt_function h
      have hinner := noneLeft_stmts body hs hbody
      simp [Stmt.nodes, Leftover, hinner]
  | expr b e =>
      obtain ⟨e', _, _, rfl⟩ := of_stmt_expr h
      simp [Stmt.nodes, Leftover]
  | ret b value =>
      obtain ⟨value', _, _, rfl⟩ := of_stmt_ret h
      simp [Stmt.nodes, Leftover]
  | block b items =>
      obtain ⟨items', after, hitems, _, rfl⟩ := of_stmt_block h
      have hinner := noneLeft_stmts items hs hitems
      simp [Stmt.nodes, Leftover, hinner]
  | optional b condition body otherwise =>
      obtain ⟨taken, items, _, rfl, hitems⟩ := of_stmt_optional h
      have hinner : p.NoneLeft (Stmt.nodesList items) := by
        cases taken with
        | true => exact noneLeft_branchStmts body (fun hk => (hs hk).1) hitems
        | false =>
            cases otherwise with
            | none =>
                cases hitems
                simp [Stmt.nodesList]
            | some s =>
                rw [alternative_some] at hitems
                exact noneLeft_branchStmts s (fun hk => (hs hk).2) hitems
      simp [Stmt.nodes, Leftover, hinner]
  | struct b d =>
      cases h
      simp [Stmt.nodes, Leftover]
  | inputs b entries =>
      cases h
      simp [Stmt.nodes, Leftover]
  | outputs b entries =>
      cases h
      simp [Stmt.nodes, Leftover]
  | externals b entries =>
      cases h
      simp [Stmt.nodes, Leftover]
  | _ =>
      cases h
      simp [Stmt.nodes, Leftover]

/-- The statements of a selected branch, which is a block in a list or one statement. -/
theorem noneLeft_branchStmts (s : Stmt) {scopes scopes' : Scopes} {items : List Stmt}
    (hs : p.config.keepOptions = false → s.OptionsListed)
    (h : p.branchStmts s scopes = .ok (items, scopes')) :
    p.NoneLeft (Stmt.nodesList items) := by
  by_cases hblock : ∃ b inner, s = .block b inner
  · obtain ⟨b, inner, rfl⟩ := hblock
    exact noneLeft_stmts inner hs h
  · rcases of_branchStmts (fun b inner hb => hblock ⟨b, inner, hb⟩) h with
      ⟨_, rfl, _⟩ | ⟨_, t, ht, rfl⟩
    · simp [Stmt.nodesList]
    · exact noneLeft_contribution (noneLeft_stmt s hs ht)

theorem noneLeft_stmts (ss : List Stmt) {scopes scopes' : Scopes} {out : List Stmt}
    (hs : p.config.keepOptions = false → Stmt.listListed ss)
    (h : p.stmts ss scopes = .ok (out, scopes')) : p.NoneLeft (Stmt.nodesList out) := by
  cases ss with
  | nil =>
      cases h
      simp [Stmt.nodesList]
  | cons s rest =>
      rcases of_stmts_cons h with ⟨_, hrest⟩ | ⟨hdrops, t, mid, out', ht, hrest, rfl⟩
      · exact noneLeft_stmts rest (fun hk => (hs hk).2) hrest
      · have hhead : p.config.keepOptions = false → s.OptionsListed := by
          intro hk
          have hnot := isOptions_of_not_drops hk hdrops
          exact (hs hk).1.resolve_left (by rw [hnot]; simp)
        rw [nodesList_append, noneLeft_append]
        exact ⟨noneLeft_contribution (noneLeft_stmt s hhead ht),
          noneLeft_stmts rest (fun hk => (hs hk).2) hrest⟩

theorem noneLeft_arms (arms : List (Expr × Stmt)) {scopes scopes' : Scopes}
    {out : List (Expr × Stmt)} (hs : p.config.keepOptions = false → Stmt.armsListed arms)
    (h : p.arms arms scopes = .ok (out, scopes')) : p.NoneLeft (Stmt.nodesArms out) := by
  match arms with
  | [] =>
      cases h
      simp [Stmt.nodesArms]
  | (c, s) :: rest =>
      obtain ⟨c', s', mid, rest', _, hstmt, hrest, rfl⟩ := of_arms_cons h
      have hhead := noneLeft_stmt s (fun hk => (hs hk).1) hstmt
      have htail := noneLeft_arms rest (fun hk => (hs hk).2) hrest
      simp [Stmt.nodesArms, hhead, htail]

theorem noneLeft_optionStmt (s : Option Stmt) {scopes scopes' : Scopes} {out : Option Stmt}
    (hs : p.config.keepOptions = false → Stmt.optionListed s)
    (h : p.optionStmt s scopes = .ok (out, scopes')) :
    p.NoneLeft (Stmt.nodesOption out) := by
  cases s with
  | none =>
      cases h
      simp [Stmt.nodesOption]
  | some s =>
      obtain ⟨t, ht, rfl⟩ := of_optionStmt_some h
      exact noneLeft_stmt s hs ht

end

end Permutation

end Shading
