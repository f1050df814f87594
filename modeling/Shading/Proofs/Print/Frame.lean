import Shading.Proofs.Print.LineEnds

/-!
# What a writer adds

A writer looks at the text before it only where it leaves a blank line. So a statement is
written as the same characters after any text, and it leaves the indentation as it was. Whole
lines leave the writer where the next ones begin.
-/

namespace Shading

/-- The last character is no line feed. -/
def Inked (s : String) : Prop := ∃ cs c, s.toList = cs ++ [c] ∧ c ≠ '\n'

/-- What follows is written behind something that is no line end. -/
theorem Inked.append {t : String} (h : Inked t) (s : String) : Inked (s ++ t) := by
  obtain ⟨cs, c, ht, hc⟩ := h
  exact ⟨s.toList ++ cs, c, by rw [String.toList_append, ht, List.append_assoc], hc⟩

/-- A word ends in no line end. -/
theorem inked_of_isWord {s : String} (h : isWord s = true) : Inked s := by
  obtain ⟨hinline, hne⟩ : isInline s = true ∧ s ≠ "" := by simpa [isWord] using h
  have hchars : s.toList ≠ [] := fun hnil => hne (String.toList_eq_nil_iff.mp hnil)
  refine ⟨s.toList.dropLast, s.toList.getLast hchars, ?_, ?_⟩
  · exact (List.dropLast_append_getLast hchars).symm
  · exact (isInline_iff.mp hinline _ (List.getLast_mem hchars)).2

namespace Writer

/-- The same writer with other text in front of its own, the last character first. -/
def onto (w : Writer) (before : List Char) : Writer :=
  { w with reversed := w.reversed ++ before }

variable (w : Writer) (before : List Char)

theorem text_onto : (w.onto before).text = String.ofList before.reverse ++ w.text := by
  simp [text, onto, String.ofList_append]

@[simp] theorem onto_depth : (w.onto before).depth = w.depth := rfl

@[simp] theorem onto_isOpen : (w.onto before).isOpen = w.isOpen := rfl

@[simp] theorem append_onto (s : String) :
    (w.onto before).append s = (w.append s).onto before := by
  simp [append, onto]

@[simp] theorem push_onto (s : String) : (w.onto before).push s = (w.push s).onto before := by
  cases hopen : w.isOpen <;> simp [push, append, onto, hopen]

@[simp] theorem close_onto : (w.onto before).close = w.close.onto before := by
  cases hopen : w.isOpen <;> simp [close, onto, hopen]

@[simp] theorem line_onto (s : String) : (w.onto before).line s = (w.line s).onto before := by
  simp [line]

@[simp] theorem indent_onto : (w.onto before).indent = w.indent.onto before := rfl

@[simp] theorem dedent_onto : (w.onto before).dedent = w.dedent.onto before := rfl

@[simp] theorem follow_onto (s : String) : (w.onto before).follow s = (w.follow s).onto before := by
  cases hopen : w.isOpen <;> simp [follow, hopen]

/-- Lines are written the same way behind any text. -/
@[simp] theorem lines_onto (lines : List String) :
    lines.foldl Writer.line (w.onto before) = (lines.foldl Writer.line w).onto before := by
  induction lines generalizing w with
  | nil => rfl
  | cons l rest ih => rw [List.foldl_cons, line_onto, ih, List.foldl_cons]

@[simp] theorem nested_onto (lines : List String) :
    (w.onto before).nested lines = (w.nested lines).onto before := by
  simp [nested]

theorem text_push_empty (s : String) : (empty.push s).text = s := by
  simp [push, empty, text]

/-- The rest of a line that is open. -/
theorem text_line_of_isOpen {w : Writer} (h : w.isOpen = true) (s : String) :
    (w.line s).text = w.text ++ (s ++ "\n") := by
  simp [line, push, append, close, h, text, String.ofList_append]

/-- A line of its own, indented as the writer says. -/
theorem text_line {w : Writer} (h : w.isOpen = false) (s : String) : (w.line s).text =
    w.text ++ (String.ofList (List.replicate (4 * w.depth) ' ') ++ s ++ "\n") := by
  simp [line, push, close, h, text, String.ofList_append, String.append_assoc]

theorem isOpen_line (w : Writer) (s : String) : (w.line s).isOpen = false := by
  cases hopen : w.isOpen <;> simp [line, push, append, close, hopen]

theorem isOpen_close (w : Writer) : w.close.isOpen = false := by
  cases hopen : w.isOpen <;> simp [close, hopen]

@[simp] theorem depth_append (w : Writer) (s : String) : (w.append s).depth = w.depth := rfl

@[simp] theorem depth_push (w : Writer) (s : String) : (w.push s).depth = w.depth := by
  cases hopen : w.isOpen <;> simp [push, hopen]

@[simp] theorem depth_close (w : Writer) : w.close.depth = w.depth := by
  cases hopen : w.isOpen <;> simp [close, hopen]

@[simp] theorem depth_follow (w : Writer) (s : String) : (w.follow s).depth = w.depth := by
  cases hopen : w.isOpen <;> simp [follow, hopen]

@[simp] theorem depth_indent (w : Writer) : w.indent.depth = w.depth + 1 := rfl

@[simp] theorem depth_dedent (w : Writer) : w.dedent.depth = w.depth - 1 := rfl

@[simp] theorem depth_line (w : Writer) (s : String) : (w.line s).depth = w.depth := by
  simp [line]

/-- Each line is written behind the spaces of its level and ended. -/
theorem text_lines {w : Writer} (h : w.isOpen = false) (lines : List String) :
    (lines.foldl Writer.line w).text = w.text ++ String.join (lines.map fun l =>
      String.ofList (List.replicate (4 * w.depth) ' ') ++ l ++ "\n") ∧
      (lines.foldl Writer.line w).isOpen = false ∧
      (lines.foldl Writer.line w).depth = w.depth := by
  induction lines generalizing w with
  | nil => simp [h]
  | cons l rest ih =>
      obtain ⟨htext, hclosed, hdepth⟩ := ih (isOpen_line w l)
      rw [List.foldl_cons, htext, hclosed, hdepth, text_line h, depth_line]
      simp [String.append_assoc]

/-- Lines one level deeper, from the outermost one. -/
theorem text_nested {w : Writer} (hdepth : w.depth = 0) (h : w.isOpen = false)
    (lines : List String) : (w.nested lines).text =
      w.text ++ String.join (lines.map fun l => "    " ++ l ++ "\n") ∧
      (w.nested lines).isOpen = false ∧ (w.nested lines).depth = 0 := by
  obtain ⟨htext, hclosed, hlevel⟩ := text_lines (w := w.indent) h lines
  rw [depth_indent, hdepth] at htext hlevel
  exact ⟨htext, hclosed, by simp [nested, hlevel]⟩

/-- The writer is at the start of a line, outside of everything, and the line before it is
there and not blank. -/
structure Resting (w : Writer) : Prop where
  depth : w.depth = 0
  closed : w.isOpen = false
  inked : ∃ c cs, w.reversed = '\n' :: c :: cs ∧ c ≠ '\n'

namespace Resting

variable {w : Writer}

/-- Nothing but the text before it is known of a resting writer. -/
theorem eq_onto (h : w.Resting) : w = empty.onto w.reversed := by
  obtain ⟨reversed, depth, isOpen⟩ := w
  obtain rfl : depth = 0 := h.depth
  obtain rfl : isOpen = false := h.closed
  rfl

/-- A blank line is left, since there is none yet. -/
theorem blankLine_eq (h : w.Resting) : w.blankLine = empty.onto ('\n' :: w.reversed) := by
  obtain ⟨c, cs, hreversed, hc⟩ := h.inked
  have hclose : w.close = w := by simp [close, h.closed]
  have hfresh : ∀ rest, w.reversed ≠ '\n' :: '\n' :: rest := by
    intro rest heq
    rw [hreversed] at heq
    simp only [List.cons.injEq, true_and] at heq
    exact hc heq.1
  have hne : w.reversed ≠ [] := by simp [hreversed]
  unfold Writer.blankLine
  dsimp only
  rw [hclose]
  split
  · next hnil => exact absurd hnil hne
  · next heq => exact absurd heq (hfresh _)
  · obtain ⟨reversed, depth, isOpen⟩ := w
    obtain rfl : depth = 0 := h.depth
    obtain rfl : isOpen = false := h.closed
    rfl

/-- A writer rests behind any text. -/
theorem onto (h : w.Resting) (before : List Char) : (w.onto before).Resting := by
  obtain ⟨c, cs, hreversed, hc⟩ := h.inked
  exact ⟨h.depth, h.closed, c, cs ++ before, by simp [Writer.onto, hreversed], hc⟩

/-- A line that ends in ink is a line to rest after. -/
theorem line {s : String} (hdepth : w.depth = 0) (hs : Inked s) : (w.line s).Resting := by
  obtain ⟨cs, c, hchars, hc⟩ := hs
  refine ⟨(depth_line w s).trans hdepth, isOpen_line w s, c, cs.reverse ++ w.reversed, ?_, hc⟩
  cases hopen : w.isOpen <;> simp [Writer.line, push, append, close, hopen, hdepth, hchars]

end Resting

end Writer

namespace Dialect

open Writer

variable (d : Dialect) (before : List Char)

theorem expr_onto (e : Expr) (w : Writer) :
    d.expr e (w.onto before) = (·.onto before) <$> d.expr e w := by
  simp [expr]

theorem exprAfter_onto (lead : String) (e : Option Expr) (w : Writer) :
    d.exprAfter lead e (w.onto before) = (·.onto before) <$> d.exprAfter lead e w := by
  cases e with
  | none => rfl
  | some e => rw [exprAfter, push_onto, expr_onto, exprAfter]

theorem variableDeclaration_onto (v : VariableDeclaration) (w : Writer) :
    d.variableDeclaration v (w.onto before) = (·.onto before) <$> d.variableDeclaration v w := by
  cases hconst : v.isConst <;> simp [variableDeclaration, exprAfter_onto, hconst]

/-- The entries of an option block are written the same way behind any text. -/
theorem optionEntries_onto (os : List OptionDeclaration) (w : Writer) :
    d.optionEntries os (w.onto before) = (·.onto before) <$> d.optionEntries os w := by
  induction os generalizing w with
  | nil => rfl
  | cons o rest ih => simp [optionEntries, exprAfter_onto, ih]

/-- The entries of a block of constants are written the same way behind any text. -/
theorem constEntries_onto (cs : List ConstDeclaration) (w : Writer) :
    d.constEntries cs (w.onto before) = (·.onto before) <$> d.constEntries cs w := by
  induction cs generalizing w with
  | nil => rfl
  | cons c rest ih => simp [constEntries, expr_onto, ih]

theorem bracedLines_onto (header : String) (lines : List String) (w : Writer) :
    bracedLines header lines (w.onto before) = (bracedLines header lines w).onto before := by
  simp [bracedLines]

theorem openBody_onto (body : Stmt) (w : Writer) :
    openBody body (w.onto before) = (openBody body w).onto before := by
  cases body <;> simp [openBody]

theorem closeBody_onto (body : Stmt) (w : Writer) :
    closeBody body (w.onto before) = (closeBody body w).onto before := by
  cases body <;> simp [closeBody]

mutual

/-- A statement is written alike after any text. -/
theorem openStmt_onto (s : Stmt) (w : Writer) :
    d.openStmt s (w.onto before) = (·.onto before) <$> d.openStmt s w := by
  match s with
  | .branch p arms otherwise => simp [openStmt, arms_onto arms, alternative_onto otherwise]
  | .forLoop p init condition step body =>
      simp [openStmt, clause_onto init, exprAfter_onto, openBody_onto, closeBody_onto,
        openStmt_onto body]
  | .whileLoop p condition body =>
      simp [openStmt, expr_onto, openBody_onto, closeBody_onto, openStmt_onto body]
  | .doWhile p body condition =>
      simp [openStmt, expr_onto, openBody_onto, closeBody_onto, openStmt_onto body]
  | .var p v => simp [openStmt, variableDeclaration_onto]
  | .expr p e => simp [openStmt, expr_onto]
  | .leaveLoop p | .nextRound p | .discard p | .ret p none => simp [openStmt]
  | .ret p (some e) => simp [openStmt, expr_onto]
  | .block p items => simp [openStmt, stmts_onto items]
  | .struct p s => simp [openStmt, bracedLines_onto]
  | .inputs p vs | .outputs p vs | .externals p vs => simp [openStmt, bracedLines_onto]
  | .options p os => simp [openStmt, optionEntries_onto]
  | .consts p cs => simp [openStmt, constEntries_onto]
  | .function p f items => cases hentry : f.entry <;> simp [openStmt, stmts_onto items, hentry]
  | .optional p condition body otherwise =>
      simp [openStmt, expr_onto, openBody_onto, closeBody_onto, openStmt_onto body,
        optionalAlternative_onto otherwise]
  | .library p path => simp [openStmt]

/-- Statements are written the same way behind any text. -/
theorem stmts_onto (ss : List Stmt) (w : Writer) :
    d.stmts ss (w.onto before) = (·.onto before) <$> d.stmts ss w := by
  match ss with
  | [] => rfl
  | s :: rest => simp [stmts, openStmt_onto s, stmts_onto rest]

theorem arms_onto (arms : List (Expr × Stmt)) (w : Writer) (lead : String) :
    d.arms lead arms (w.onto before) = (·.onto before) <$> d.arms lead arms w := by
  match arms with
  | [] => rfl
  | (c, s) :: rest =>
      simp [Dialect.arms, expr_onto, openBody_onto, closeBody_onto, openStmt_onto s, arms_onto rest]

theorem alternative_onto (s : Option Stmt) (w : Writer) :
    d.alternative s (w.onto before) = (·.onto before) <$> d.alternative s w := by
  match s with
  | none => rfl
  | some s => simp [alternative, openBody_onto, closeBody_onto, openStmt_onto s]

theorem optionalAlternative_onto (s : Option Stmt) (w : Writer) :
    d.optionalAlternative s (w.onto before) = (·.onto before) <$> d.optionalAlternative s w := by
  match s with
  | none => rfl
  | some s =>
      have hbody : ∀ w, d.openStmt s (w.onto before) = (·.onto before) <$> d.openStmt s w :=
        openStmt_onto s
      cases s <;> simp [optionalAlternative, openBody_onto, closeBody_onto, hbody]

theorem clause_onto (s : Option Stmt) (w : Writer) :
    d.clause s (w.onto before) = (·.onto before) <$> d.clause s w := by
  match s with
  | none => rfl
  | some s =>
      have hbody : ∀ w, d.openStmt s (w.onto before) = (·.onto before) <$> d.openStmt s w :=
        openStmt_onto s
      cases s <;> simp [clause, variableDeclaration_onto, expr_onto, hbody]

end

section Depth

variable {d} {n : Nat} {w : Writer}

/-- What a run leaves is indented `n` levels. -/
abbrev Level (n : Nat) (x : Except CodegenError Writer) : Prop := Except.Gives (·.depth = n) x

theorem level_expr (e : Expr) (h : w.depth = n) : Level n (d.expr e w) :=
  (Except.gives_any _).andThen fun _ => .ok ((depth_push ..).trans h)

theorem level_exprAfter (lead : String) (e : Option Expr) (h : w.depth = n) :
    Level n (d.exprAfter lead e w) := by
  cases e with
  | none => exact .ok h
  | some e => exact level_expr e ((depth_push ..).trans h)

theorem level_variableDeclaration (v : VariableDeclaration) (h : w.depth = n) :
    Level n (d.variableDeclaration v w) := by
  cases hconst : v.isConst with
  | true => exact level_exprAfter _ _ (by simp [hconst, h])
  | false => exact level_exprAfter _ _ (by simp [hconst, h])

/-- The entries of an option block are lines, which keep the level. -/
theorem level_optionEntries (os : List OptionDeclaration) (h : w.depth = n) :
    Level n (d.optionEntries os w) := by
  induction os generalizing w with
  | nil => exact .ok h
  | cons o rest ih =>
      refine (level_exprAfter _ _ ((depth_push ..).trans h)).bind fun _ hv => ?_
      exact ih ((depth_line ..).trans hv)

/-- The entries of a block of constants are lines, which keep the level. -/
theorem level_constEntries (cs : List ConstDeclaration) (h : w.depth = n) :
    Level n (d.constEntries cs w) := by
  induction cs generalizing w with
  | nil => exact .ok h
  | cons c rest ih =>
      refine (level_expr _ ((depth_push ..).trans h)).bind fun _ hv => ?_
      exact ih ((depth_line ..).trans hv)

/-- What is between the braces is one level deeper, and after them the level is as before. -/
theorem depth_bracedLines (header : String) (lines : List String) (w : Writer) :
    (bracedLines header lines w).depth = w.depth := by
  have hlines (w : Writer) : (lines.foldl Writer.line w).depth = w.depth := by
    induction lines generalizing w with
    | nil => rfl
    | cons l rest ih => rw [List.foldl_cons, ih, depth_line]
  simp [bracedLines, nested, hlines]

/-- A body is written on its own level, or one deeper, and the level is taken back after it. -/
theorem level_body {body : Stmt} (hbody : ∀ w : Writer, Level w.depth (d.openStmt body w))
    (h : w.depth = n) :
    Except.Gives (fun v => (closeBody body v).depth = n) (d.openStmt body (openBody body w)) := by
  refine (hbody _).imp (fun _ he => he) fun v hv => ?_
  cases body with
  | block p items => exact hv.trans h
  | _ =>
      have hdeep : v.depth = n + 1 := by simpa [openBody, h] using hv
      simp [closeBody, hdeep]

mutual

/-- A statement leaves the indentation as it was. -/
theorem level_openStmt (s : Stmt) (w : Writer) : Level w.depth (d.openStmt s w) := by
  match s with
  | .branch p arms otherwise =>
      rw [openStmt]
      exact (level_arms arms "if (" rfl).bind fun _ hv => level_alternative otherwise hv
  | .forLoop p init condition step body =>
      rw [openStmt]
      refine (level_clause init (depth_push ..)).bind fun _ hv => ?_
      refine (level_exprAfter _ _ ((depth_push ..).trans hv)).bind fun _ hv => ?_
      refine (level_exprAfter _ _ ((depth_push ..).trans hv)).bind fun _ hv => ?_
      exact (level_body (level_openStmt body) ((depth_push ..).trans hv)).bind fun _ hv => .ok hv
  | .whileLoop p condition body =>
      rw [openStmt]
      refine (level_expr _ (depth_push ..)).bind fun _ hv => ?_
      exact (level_body (level_openStmt body) ((depth_push ..).trans hv)).bind fun _ hv => .ok hv
  | .doWhile p body condition =>
      rw [openStmt]
      refine (level_body (level_openStmt body) (depth_push ..)).bind fun _ hv => ?_
      refine (level_expr _ ((depth_follow ..).trans hv)).bind fun _ hv => ?_
      exact .ok ((depth_push ..).trans hv)
  | .var p v =>
      rw [openStmt]
      exact (level_variableDeclaration v rfl).bind fun _ hv => .ok ((depth_push ..).trans hv)
  | .expr p e =>
      rw [openStmt]
      exact (level_expr e rfl).bind fun _ hv => .ok ((depth_push ..).trans hv)
  | .leaveLoop p | .nextRound p | .discard p | .ret p none => exact .ok (depth_push ..)
  | .ret p (some e) =>
      exact (level_expr e (depth_push ..)).bind fun _ hv => .ok ((depth_push ..).trans hv)
  | .block p items =>
      rw [openStmt]
      refine (level_stmts items (n := w.depth + 1) (by simp)).bind fun _ hv => .ok ?_
      simp [hv]
  | .struct p s =>
      exact (Except.gives_any _).andThen fun _ => .ok (depth_bracedLines ..)
  | .inputs p vs | .outputs p vs | .externals p vs =>
      exact (Except.gives_any _).andThen fun _ => .ok (depth_bracedLines ..)
  | .options p os =>
      refine (Except.gives_any _).andThen fun _ => ?_
      refine (level_optionEntries os (n := w.depth + 1) (by simp)).bind fun _ hv => .ok ?_
      simp [hv]
  | .consts p cs =>
      refine (Except.gives_any _).andThen fun _ => ?_
      refine (level_constEntries cs (n := w.depth + 1) (by simp)).bind fun _ hv => .ok ?_
      simp [hv]
  | .function p f items =>
      rw [openStmt]
      refine (Except.gives_any _).andThen fun _ => ?_
      refine (level_stmts items (n := w.depth + 1) ?_).bind fun _ hv => .ok ?_
      · cases f.entry <;> simp
      · simp [hv]
  | .optional p condition body otherwise =>
      rw [openStmt]
      refine (Except.gives_any _).andThen fun _ => ?_
      refine (level_expr _ (depth_follow ..)).bind fun _ hv => ?_
      refine (level_body (level_openStmt body) ((depth_push ..).trans hv)).bind fun _ hv => ?_
      exact level_optionalAlternative otherwise hv
  | .library p path => exact (Except.gives_any _).andThen fun _ => .ok (depth_push ..)

theorem level_stmts (ss : List Stmt) {n : Nat} {w : Writer} (h : w.depth = n) :
    Level n (d.stmts ss w) := by
  match ss with
  | [] => exact .ok h
  | s :: rest =>
      rw [stmts]
      refine (level_openStmt s w).bind fun _ hv => ?_
      exact level_stmts rest ((depth_close _).trans (hv.trans h))

theorem level_arms (arms : List (Expr × Stmt)) (lead : String) {n : Nat} {w : Writer}
    (h : w.depth = n) : Level n (d.arms lead arms w) := by
  match arms with
  | [] => exact .ok h
  | (c, s) :: rest =>
      rw [Dialect.arms]
      refine (level_expr _ ((depth_follow ..).trans h)).bind fun _ hv => ?_
      refine (level_body (level_openStmt s) ((depth_push ..).trans hv)).bind fun _ hv => ?_
      exact level_arms rest _ hv

theorem level_alternative (s : Option Stmt) {n : Nat} {w : Writer} (h : w.depth = n) :
    Level n (d.alternative s w) := by
  match s with
  | none => exact .ok h
  | some s =>
      exact (level_body (level_openStmt s) ((depth_follow ..).trans h)).bind fun _ hv => .ok hv

theorem level_optionalAlternative (s : Option Stmt) {n : Nat} {w : Writer} (h : w.depth = n) :
    Level n (d.optionalAlternative s w) := by
  match s with
  | none => exact .ok h
  | some s =>
      have hstmt : ∀ w : Writer, Level w.depth (d.openStmt s w) := level_openStmt s
      have hfollow : (w.follow "else").depth = n := (depth_follow ..).trans h
      cases s with
      | optional p condition body otherwise => exact hfollow ▸ hstmt _
      | _ => exact (level_body hstmt hfollow).bind fun _ hv => .ok hv

theorem level_clause (s : Option Stmt) {n : Nat} {w : Writer} (h : w.depth = n) :
    Level n (d.clause s w) := by
  match s with
  | none => exact .ok h
  | some s =>
      have hstmt : Level n (d.openStmt s w) := h ▸ level_openStmt s w
      cases s with
      | var p v => exact level_variableDeclaration v h
      | expr p e => exact level_expr e h
      | _ => exact hstmt.bind fun _ hv => .ok ((depth_close _).trans hv)

end

/-- Statements end on a line of their own. -/
theorem isOpen_stmts (ss : List Stmt) (h : w.isOpen = false) :
    Except.Gives (·.isOpen = false) (d.stmts ss w) := by
  induction ss generalizing w with
  | nil => exact .ok h
  | cons s rest ih =>
      rw [stmts]
      exact (Except.gives_any _).andThen fun v => ih (isOpen_close v)

end Depth

end Dialect

end Shading
