import Shading.Print.Stmt
import Shading.Proofs.Parallel
import Shading.Proofs.Syntax.Erased

/-!
# Printing wherever the parts stand

What is printed comes from the form of a tree. Places reach a dialect's refusals alone, and
two dialects that refuse the same write a tree as they write it without its places.
-/

namespace Shading

namespace Expr

theorem needsParens_erased (e : Expr) (min : Precedence) (strict : Bool) :
    e.erased.needsParens min strict = e.needsParens min strict := by
  cases e <;> rfl

theorem needsParensAfterSign_erased (e : Expr) :
    e.erased.needsParensAfterSign = e.needsParensAfterSign := by
  cases e <;> rfl

end Expr

/-- Dialects that spell alike and refuse the same items, wherever these stand. -/
structure Dialect.Alike (d d' : Dialect) : Prop where
  builtin (f : BuiltinFunction) (s s' : Span) : Except.Parallel Eq (d.builtin f s) (d'.builtin f s')
  reference : d'.reference = d.reference
  declarator : d'.declarator = d.declarator
  refusal (s : Stmt) : (d'.refusal s.eraseSpans).isSome = (d.refusal s).isSome

variable {d d' : Dialect}

namespace Expr

mutual

/-- The text of an expression depends on no span. -/
theorem parallel_text (h : d.Alike d') (e : Expr) :
    Except.Parallel Eq (e.text d) (e.erased.text d') := by
  cases e with
  | constant s v => exact .ok rfl
  | ref s n => exact .ok (congrFun h.reference n).symm
  | index s base place =>
      rw [erased_index, text, text, needsParens_erased]
      exact (parallel_text h base).bindEq fun _ => (parallel_text h place).bindEq fun _ => .ok rfl
  | field s base n =>
      rw [erased_field, text, text, needsParens_erased]
      exact (parallel_text h base).bindEq fun _ => .ok rfl
  | swizzle s base w =>
      rw [erased_swizzle, text, text, needsParens_erased]
      exact (parallel_text h base).bindEq fun _ => .ok rfl
  | assign s op target value =>
      rw [erased_assign, text, text, needsParens_erased]
      exact (parallel_text h target).bindEq fun _ => (parallel_text h value).bindEq fun _ => .ok rfl
  | unary s op operand =>
      rw [erased_unary, text, text, needsParensAfterSign_erased]
      exact (parallel_text h operand).bindEq fun _ => .ok rfl
  | binary s op left right =>
      rw [erased_binary, text, text, needsParens_erased, needsParens_erased]
      exact (parallel_text h left).bindEq fun _ => (parallel_text h right).bindEq fun _ => .ok rfl
  | call s n args =>
      rw [erased_call, text, text]
      exact (parallel_textList h args).bindEq fun _ => .ok rfl
  | builtin s f args =>
      rw [erased_builtin, text, text]
      exact (h.builtin f s .dummy).bindEq fun _ => (parallel_textList h args).bindEq fun _ =>
        .ok rfl
  | cast s t args =>
      rw [erased_cast, text, text]
      exact (parallel_textList h args).bindEq fun _ => .ok rfl
  | ternary s c t f =>
      rw [erased_ternary, text, text, needsParens_erased, needsParens_erased]
      exact (parallel_text h c).bindEq fun _ => (parallel_text h t).bindEq fun _ =>
        (parallel_text h f).bindEq fun _ => .ok rfl

theorem parallel_textList (h : d.Alike d') (es : List Expr) :
    Except.Parallel Eq (textList d es) (textList d' (es.map erased)) := by
  cases es with
  | nil => exact .ok rfl
  | cons e rest =>
      rw [List.map_cons, textList, textList]
      exact (parallel_text h e).bindEq fun _ => (parallel_textList h rest).bindEq fun _ => .ok rfl

end

end Expr

namespace Dialect

theorem parallel_expr (h : d.Alike d') (e : Expr) (w : Writer) :
    Except.Parallel Eq (d.expr e w) (d'.expr e.erased w) :=
  (e.parallel_text h).bindEq fun _ => .ok rfl

theorem parallel_exprAfter (h : d.Alike d') (lead : String) (e : Option Expr) (w : Writer) :
    Except.Parallel Eq (d.exprAfter lead e w) (d'.exprAfter lead (e.map Expr.erased) w) := by
  cases e with
  | none => exact .ok rfl
  | some e => exact parallel_expr h e _

/-- A declaration is written alike, without its spans. -/
theorem parallel_variableDeclaration (h : d.Alike d') (v : VariableDeclaration) (w : Writer) :
    Except.Parallel Eq (d.variableDeclaration v w) (d'.variableDeclaration v.erased w) := by
  rw [variableDeclaration, variableDeclaration, h.declarator]
  exact parallel_exprAfter h _ v.initializer _

theorem parallel_optionEntries (h : d.Alike d') (os : List OptionDeclaration) (w : Writer) :
    Except.Parallel Eq (d.optionEntries os w)
      (d'.optionEntries (os.map OptionDeclaration.erased) w) := by
  induction os generalizing w with
  | nil => exact .ok rfl
  | cons o rest ih => exact (parallel_exprAfter h _ o.default _).bindEq fun _ => ih _

theorem parallel_constEntries (h : d.Alike d') (cs : List ConstDeclaration) (w : Writer) :
    Except.Parallel Eq (d.constEntries cs w)
      (d'.constEntries (cs.map ConstDeclaration.erased) w) := by
  induction cs generalizing w with
  | nil => exact .ok rfl
  | cons c rest ih => exact (parallel_expr h c.value _).bindEq fun _ => ih _

/-- A statement is admitted alike, without its spans. -/
theorem parallel_admits (h : d.Alike d') {s s' : Stmt} (hs : s.eraseSpans = s') :
    Except.Parallel Eq (d.admits s) (d'.admits s') := by
  have hrefusal := h.refusal s
  rw [hs] at hrefusal
  rw [admits, admits]
  cases hd : d.refusal s with
  | none =>
      rw [hd, Option.isSome_none, Option.isSome_eq_false_iff, Option.isNone_iff_eq_none] at hrefusal
      rw [hrefusal]
      exact .ok rfl
  | some e =>
      rw [hd, Option.isSome_some] at hrefusal
      obtain ⟨e', he'⟩ := Option.isSome_iff_exists.mp hrefusal
      rw [he']
      exact .error

theorem openBody_eraseSpans (s : Stmt) (w : Writer) : openBody s.eraseSpans w = openBody s w := by
  cases s <;> simp [openBody]

theorem closeBody_eraseSpans (s : Stmt) (w : Writer) :
    closeBody s.eraseSpans w = closeBody s w := by
  cases s <;> simp [closeBody]

mutual

/-- A statement is written as it is without its places. -/
theorem parallel_openStmt (h : d.Alike d') (s : Stmt) (w : Writer) :
    Except.Parallel Eq (d.openStmt s w) (d'.openStmt s.eraseSpans w) := by
  match s with
  | .branch p arms otherwise =>
      rw [Stmt.erased_branch, openStmt, openStmt]
      exact (parallel_arms h _ arms w).bindEq fun w => parallel_alternative h otherwise w
  | .forLoop p init condition step body =>
      simp only [Stmt.erased_forLoop, openStmt, openBody_eraseSpans, closeBody_eraseSpans]
      exact (parallel_clause h init _).bindEq fun _ =>
        (parallel_exprAfter h _ condition _).bindEq fun _ =>
          (parallel_exprAfter h _ step _).bindEq fun _ =>
            (parallel_openStmt h body _).bindEq fun _ => .ok rfl
  | .whileLoop p condition body =>
      simp only [Stmt.erased_whileLoop, openStmt, openBody_eraseSpans, closeBody_eraseSpans]
      exact (parallel_expr h condition _).bindEq fun _ =>
        (parallel_openStmt h body _).bindEq fun _ => .ok rfl
  | .doWhile p body condition =>
      simp only [Stmt.erased_doWhile, openStmt, openBody_eraseSpans, closeBody_eraseSpans]
      exact (parallel_openStmt h body _).bindEq fun _ =>
        (parallel_expr h condition _).bindEq fun _ => .ok rfl
  | .var p v =>
      rw [Stmt.erased_var, openStmt, openStmt]
      exact (parallel_variableDeclaration h v w).bindEq fun _ => .ok rfl
  | .expr p e => exact (parallel_expr h e w).bindEq fun _ => .ok rfl
  | .leaveLoop p => exact .ok rfl
  | .nextRound p => exact .ok rfl
  | .discard p => exact .ok rfl
  | .ret p none => exact .ok rfl
  | .ret p (some e) => exact (parallel_expr h e _).bindEq fun _ => .ok rfl
  | .block p items =>
      rw [Stmt.erased_block, openStmt, openStmt]
      exact (parallel_stmts h items _).bindEq fun _ => .ok rfl
  | .struct p s =>
      rw [Stmt.erased_struct, openStmt, openStmt]
      exact (parallel_admits h (Stmt.erased_struct p s)).bindEq fun _ => .ok rfl
  | .inputs p vs =>
      rw [Stmt.erased_inputs, openStmt, openStmt, List.map_map]
      exact (parallel_admits h (Stmt.erased_inputs p vs)).bindEq fun _ => .ok rfl
  | .outputs p vs =>
      rw [Stmt.erased_outputs, openStmt, openStmt, List.map_map]
      exact (parallel_admits h (Stmt.erased_outputs p vs)).bindEq fun _ => .ok rfl
  | .externals p vs =>
      rw [Stmt.erased_externals, openStmt, openStmt, List.map_map]
      exact (parallel_admits h (Stmt.erased_externals p vs)).bindEq fun _ => .ok rfl
  | .options p os =>
      rw [Stmt.erased_options, openStmt, openStmt]
      exact (parallel_admits h (Stmt.erased_options p os)).bindEq fun _ =>
        (parallel_optionEntries h os _).bindEq fun _ => .ok rfl
  | .consts p cs =>
      rw [Stmt.erased_consts, openStmt, openStmt]
      exact (parallel_admits h (Stmt.erased_consts p cs)).bindEq fun _ =>
        (parallel_constEntries h cs _).bindEq fun _ => .ok rfl
  | .function p f items =>
      have hheader : f.erased.header = f.header := by
        rw [Signature.header, Signature.header, Signature.erased, List.map_map]
        rfl
      rw [Stmt.erased_function, openStmt, openStmt, hheader]
      exact (parallel_admits h (Stmt.erased_function p f items)).bindEq fun _ =>
        (parallel_stmts h items _).bindEq fun _ => .ok rfl
  | .optional p condition body otherwise =>
      simp only [Stmt.erased_optional, openStmt, openBody_eraseSpans, closeBody_eraseSpans]
      exact (parallel_admits h (Stmt.erased_optional p condition body otherwise)).bindEq fun _ =>
        (parallel_expr h condition _).bindEq fun _ => (parallel_openStmt h body _).bindEq fun _ =>
          parallel_optionalAlternative h otherwise _
  | .library p path =>
      exact (parallel_admits h (Stmt.erased_library p path)).bindEq fun _ => .ok rfl

theorem parallel_stmts (h : d.Alike d') (ss : List Stmt) (w : Writer) :
    Except.Parallel Eq (d.stmts ss w) (d'.stmts (ss.map Stmt.eraseSpans) w) := by
  match ss with
  | [] => exact .ok rfl
  | s :: rest =>
      rw [List.map_cons, stmts, stmts]
      exact (parallel_openStmt h s w).bindEq fun _ => parallel_stmts h rest _

theorem parallel_arms (h : d.Alike d') (lead : String) (as : List (Expr × Stmt)) (w : Writer) :
    Except.Parallel Eq (d.arms lead as w) (d'.arms lead (as.map Stmt.erasedArm) w) := by
  match as with
  | [] => exact .ok rfl
  | (c, s) :: rest =>
      simp only [List.map_cons, Stmt.erasedArm, arms, openBody_eraseSpans, closeBody_eraseSpans]
      exact (parallel_expr h c _).bindEq fun _ => (parallel_openStmt h s _).bindEq fun _ =>
        parallel_arms h _ rest _

theorem parallel_alternative (h : d.Alike d') (s : Option Stmt) (w : Writer) :
    Except.Parallel Eq (d.alternative s w) (d'.alternative (s.map Stmt.eraseSpans) w) := by
  match s with
  | none => exact .ok rfl
  | some s =>
      simp only [Option.map_some, alternative, openBody_eraseSpans, closeBody_eraseSpans]
      exact (parallel_openStmt h s _).bindEq fun _ => .ok rfl

theorem parallel_optionalAlternative (h : d.Alike d') (s : Option Stmt) (w : Writer) :
    Except.Parallel Eq (d.optionalAlternative s w)
      (d'.optionalAlternative (s.map Stmt.eraseSpans) w) := by
  match s with
  | none => exact .ok rfl
  | some s =>
      have hopen := parallel_openStmt h s
      rw [Option.map_some]
      cases s with
      | optional p c b o =>
          rw [Stmt.erased_optional] at hopen ⊢
          exact hopen _
      | _ => exact (hopen _).bindEq fun _ => .ok rfl

theorem parallel_clause (h : d.Alike d') (s : Option Stmt) (w : Writer) :
    Except.Parallel Eq (d.clause s w) (d'.clause (s.map Stmt.eraseSpans) w) := by
  match s with
  | none => exact .ok rfl
  | some s =>
      have hopen := parallel_openStmt h s
      rw [Option.map_some]
      cases s with
      | var p v =>
          rw [Stmt.erased_var]
          exact parallel_variableDeclaration h v w
      | expr p e => exact parallel_expr h e w
      | _ => exact (hopen w).bindEq fun _ => .ok rfl

end

end Dialect

end Shading
