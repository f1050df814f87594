import Shading.Proofs.Options.Runs
import Shading.Proofs.Print.Pieces

/-!
# Values in the place of references

The pieces of what a permutation makes of a tree are some of the pieces of the tree, in their
order, but for braces around the statements of an optional block. A piece is kept as it is, or it
is a reference to an option and the value of the option stands in its place.
-/

namespace Shading

open Piece (symbol keyword tokens enclosed enclosedIf arguments inBraces)

namespace Stmt

/-- The pieces of a file are those of its tree, apart from braces around it. -/
theorem filePieces_sublist (s : Stmt) : s.filePieces.Sublist s.pieces := by
  cases s with
  | block _ items =>
      rw [pieces]
      exact (List.sublist_append_left _ _).trans (List.sublist_cons_self _ _)
  | _ => simp [filePieces, items, piecesList]

end Stmt

namespace Permutation

/-- What becomes of a piece: itself, or the value of the option that it refers to. -/
inductive Becomes (p : Permutation) : Piece → Piece → Prop
  | same (a : Piece) : Becomes p a a
  | chosen {s : Span} {n : String} {v : Constant} (h : p.value? n = .ok (some v)) :
      Becomes p (.reference s n) (.value s v)

/-- Pieces out of others: each becomes something or is left out, and braces may be added. -/
inductive Chooses (p : Permutation) : List Piece → List Piece → Prop
  | nil : Chooses p [] []
  | keep {a b : Piece} {ps qs : List Piece} (h : p.Becomes a b) (hrest : Chooses p ps qs) :
      Chooses p (a :: ps) (b :: qs)
  | leave {a : Piece} {ps qs : List Piece} (hrest : Chooses p ps qs) : Chooses p (a :: ps) qs
  | brace {b : Piece} {ps qs : List Piece} (hb : b = symbol .lbrace ∨ b = symbol .rbrace)
      (hrest : Chooses p ps qs) : Chooses p ps (b :: qs)

namespace Chooses

variable {p : Permutation} {ps qs ps' qs' : List Piece}

theorem refl (ps : List Piece) : p.Chooses ps ps := by
  induction ps with
  | nil => exact .nil
  | cons a ps ih => exact .keep (.same a) ih

theorem append (h : p.Chooses ps qs) (h' : p.Chooses ps' qs') :
    p.Chooses (ps ++ ps') (qs ++ qs') := by
  induction h with
  | nil => exact h'
  | keep ha _ ih => exact .keep ha ih
  | leave _ ih => exact .leave ih
  | brace hb _ ih => exact .brace hb ih

theorem cons (a : Piece) (h : p.Chooses ps qs) : p.Chooses (a :: ps) (a :: qs) :=
  .keep (.same a) h

theorem none (ps : List Piece) : p.Chooses ps [] := by
  induction ps with
  | nil => exact .nil
  | cons a ps ih => exact .leave ih

/-- More pieces before the ones chosen from. -/
theorem after (front : List Piece) (h : p.Chooses ps qs) : p.Chooses (front ++ ps) qs :=
  (none front).append h

/-- More pieces behind the ones chosen from. -/
theorem before (rest : List Piece) (h : p.Chooses ps qs) : p.Chooses (ps ++ rest) qs := by
  simpa using h.append (none rest)

/-- What is chosen may be thinned out further. -/
theorem sublist (h : p.Chooses ps qs) (hsub : qs'.Sublist qs) : p.Chooses ps qs' := by
  induction h generalizing qs' with
  | nil =>
      cases hsub
      exact .nil
  | keep ha _ ih =>
      cases hsub with
      | cons _ hsub => exact .leave (ih hsub)
      | cons_cons _ hsub => exact .keep ha (ih hsub)
  | leave _ ih => exact .leave (ih hsub)
  | brace hb _ ih =>
      cases hsub with
      | cons _ hsub => exact ih hsub
      | cons_cons _ hsub => exact .brace hb (ih hsub)

theorem enclosed (h : p.Chooses ps qs) : p.Chooses (enclosed ps) (Piece.enclosed qs) :=
  .cons _ (h.append (.refl _))

/-- Parentheses that are chosen or not are chosen together. -/
theorem enclosedIf (parens : Bool) (h : p.Chooses ps qs) :
    p.Chooses (enclosedIf parens ps) (Piece.enclosedIf parens qs) := by
  cases parens with
  | false => exact h
  | true => exact h.enclosed

theorem inBraces (h : p.Chooses ps qs) : p.Chooses (inBraces ps) (Piece.inBraces qs) :=
  .cons _ (h.append (.refl _))

/-- Braces may be put around what is chosen, -/
theorem putBraces (h : p.Chooses ps qs) : p.Chooses ps (Piece.inBraces qs) := by
  have hend : p.Chooses (ps ++ []) (qs ++ [symbol .rbrace]) :=
    h.append (.brace (.inr rfl) .nil)
  rw [List.append_nil] at hend
  exact .brace (.inl rfl) hend

/-- or left out. -/
theorem leaveBraces (h : p.Chooses ps qs) : p.Chooses (Piece.inBraces ps) qs :=
  .leave (h.before _)

/-- The arguments of a call are chosen between the commas they had. -/
theorem arguments {parts parts' : List (List Piece)} (h : List.Forall₂ p.Chooses parts parts') :
    p.Chooses (arguments parts) (Piece.arguments parts') := by
  refine enclosed ?_
  induction h with
  | nil => exact .nil
  | @cons x y xs ys hxy hrest ih =>
      cases hrest with
      | nil => simpa [List.intercalate] using hxy
      | cons hnext htail =>
          have hcomma := hxy.append (ih.cons (symbol .comma))
          simpa [List.intercalate] using hcomma

end Chooses

variable {p : Permutation} {scopes scopes' : Scopes}

section Expressions

/-- A reference stays or becomes the literal of its option. -/
theorem specialize_ref {s : Span} {n : String} {e' : Expr}
    (h : Expr.specialize p scopes (.ref s n) = .ok e') :
    e' = .ref s n ∨ ∃ v, p.value? n = .ok (some v) ∧ e' = .constant s v := by
  rw [Expr.specialize] at h
  split at h
  · cases h
    exact .inl rfl
  · obtain ⟨v?, hv, h⟩ := Except.bind_eq_ok_iff.mp h
    cases v? with
    | none =>
        cases h
        exact .inl rfl
    | some v =>
        cases h
        exact .inr ⟨v, hv, rfl⟩

/-- What an expression is specialized to has pieces of the expression and stands in parentheses
where the expression does. -/
structure Resembles (p : Permutation) (e e' : Expr) : Prop where
  pieces : p.Chooses e.pieces e'.pieces
  parens : ∀ {min}, min ≠ .primary → ∀ strict, e'.needsParens min strict = e.needsParens min strict
  afterSign : e'.needsParensAfterSign = e.needsParensAfterSign

namespace Resembles

variable {e e' : Expr}

/-- An operand needs parentheses after specialization where it needed them before. -/
theorem operand (h : p.Resembles e e') (min : Precedence) (hmin : min ≠ .primary)
    (strict : Bool) : p.Chooses (enclosedIf (e.needsParens min strict) e.pieces)
      (enclosedIf (e'.needsParens min strict) e'.pieces) := by
  rw [h.parens hmin]
  exact h.pieces.enclosedIf _

/-- The form decides about parentheses, unless it is a literal. -/
theorem of_pieces (h : p.Chooses e.pieces e'.pieces)
    (hparens : ∀ min strict, e'.needsParens min strict = e.needsParens min strict)
    (hsign : e'.needsParensAfterSign = e.needsParensAfterSign) : p.Resembles e e' :=
  ⟨h, fun _ => hparens _, hsign⟩

/-- Neither a reference nor a literal needs parentheses; a negative literal has its own. -/
theorem chosen {s : Span} {n : String} {v : Constant} (h : p.value? n = .ok (some v)) :
    p.Resembles (.ref s n) (.constant s v) := by
  have hparens {min : Precedence} (hmin : min ≠ .primary) (strict : Bool) :
      Expr.needsParens (.constant s v) min strict = Expr.needsParens (.ref s n) min strict := by
    have hle : ¬Precedence.primary < min := by
      cases min <;> decide
    cases hsign : v.isNegative <;>
      simp [Expr.needsParens, Expr.precedence, hsign, hle, Ne.symm hmin]
  exact ⟨.keep (.chosen h) .nil, hparens, hparens (by simp) false⟩

end Resembles

mutual

/-- A specialized expression has the pieces of the expression, with literals for options. -/
theorem resembles_specialize (e : Expr) {e' : Expr} (h : e.specialize p scopes = .ok e') :
    p.Resembles e e' := by
  cases e with
  | constant _ _ =>
      cases h
      exact .of_pieces (.refl _) (fun _ _ => rfl) rfl
  | ref s n =>
      rcases specialize_ref h with rfl | ⟨v, hv, rfl⟩
      · exact .of_pieces (.refl _) (fun _ _ => rfl) rfl
      · exact .chosen hv
  | index _ base place =>
      obtain ⟨base', hbase, h⟩ := Except.bind_eq_ok_iff.mp h
      obtain ⟨place', hplace, h⟩ := Except.bind_eq_ok_iff.mp h
      cases h
      refine .of_pieces ?_ (fun _ _ => rfl) rfl
      have hoperand := (resembles_specialize base hbase).operand .postfixed (by simp) false
      exact hoperand.append (((resembles_specialize place hplace).pieces.append (.refl _)).cons _)
  | field _ base _ | swizzle _ base _ =>
      obtain ⟨base', hbase, h⟩ := Except.bind_eq_ok_iff.mp h
      cases h
      refine .of_pieces ?_ (fun _ _ => rfl) rfl
      have hoperand := (resembles_specialize base hbase).operand .postfixed (by simp) false
      exact hoperand.append (.refl _)
  | assign _ op target value =>
      obtain ⟨target', htarget, h⟩ := Except.bind_eq_ok_iff.mp h
      obtain ⟨value', hvalue, h⟩ := Except.bind_eq_ok_iff.mp h
      cases h
      refine .of_pieces ?_ (fun _ _ => rfl) rfl
      have htarget := resembles_specialize target htarget
      have hoperand := htarget.operand .ternary (by simp) false
      exact hoperand.append ((resembles_specialize value hvalue).pieces.cons _)
  | unary _ op operand =>
      obtain ⟨operand', hoperand, h⟩ := Except.bind_eq_ok_iff.mp h
      cases h
      refine .of_pieces ?_ (fun _ _ => rfl) rfl
      have hresembles := resembles_specialize operand hoperand
      rw [Expr.pieces, Expr.pieces, hresembles.afterSign]
      exact (hresembles.pieces.enclosedIf _).cons _
  | binary _ op left right =>
      obtain ⟨left', hleft, h⟩ := Except.bind_eq_ok_iff.mp h
      obtain ⟨right', hright, h⟩ := Except.bind_eq_ok_iff.mp h
      cases h
      refine .of_pieces ?_ (fun _ _ => rfl) rfl
      have hop : op.precedence ≠ .primary := by
        cases op <;> simp [BinaryOp.precedence]
      exact ((resembles_specialize left hleft).operand _ hop false).append
        (((resembles_specialize right hright).operand _ hop true).cons _)
  | call _ _ args | builtin _ _ args =>
      obtain ⟨args', hargs, h⟩ := Except.bind_eq_ok_iff.mp h
      cases h
      refine .of_pieces ?_ (fun _ _ => rfl) rfl
      exact (Chooses.arguments (resembles_specializeList args hargs)).cons _
  | cast _ target args =>
      obtain ⟨args', hargs, h⟩ := Except.bind_eq_ok_iff.mp h
      cases h
      refine .of_pieces ?_ (fun _ _ => rfl) rfl
      exact (Chooses.refl _).append (.arguments (resembles_specializeList args hargs))
  | ternary _ c t f =>
      obtain ⟨c', hc, h⟩ := Except.bind_eq_ok_iff.mp h
      obtain ⟨t', ht, h⟩ := Except.bind_eq_ok_iff.mp h
      obtain ⟨f', hf, h⟩ := Except.bind_eq_ok_iff.mp h
      cases h
      refine .of_pieces ?_ (fun _ _ => rfl) rfl
      have hcondition := (resembles_specialize c hc).operand .ternary (by simp) true
      have hfalse := (resembles_specialize f hf).operand .ternary (by simp) false
      exact hcondition.append
        (((resembles_specialize t ht).pieces.append (hfalse.cons _)).cons _)

theorem resembles_specializeList (es : List Expr) {es' : List Expr}
    (h : Expr.specializeList p scopes es = .ok es') :
    List.Forall₂ p.Chooses (Expr.piecesList es) (Expr.piecesList es') := by
  cases es with
  | nil =>
      cases h
      exact .nil
  | cons e rest =>
      obtain ⟨e', he, h⟩ := Except.bind_eq_ok_iff.mp h
      obtain ⟨rest', hrest, h⟩ := Except.bind_eq_ok_iff.mp h
      cases h
      exact .cons (resembles_specialize e he).pieces (resembles_specializeList rest hrest)

end

theorem chooses_optionExpr {e e' : Option Expr} (lead : List Kind)
    (h : p.optionExpr e scopes = .ok (e', scopes')) :
    p.Chooses (Expr.piecesAfter lead e) (Expr.piecesAfter lead e') := by
  rcases (of_optionExpr h).1 with ⟨rfl, rfl⟩ | ⟨a, a', rfl, rfl, ha⟩
  · exact .nil
  · exact (Chooses.refl _).append (resembles_specialize a ha).pieces

end Expressions

section Statements

/-- The entries of a block are chosen one by one. -/
theorem chooses_mapM {α : Type} {f : α → Scoped α} {g : α → List Piece}
    (hf : ∀ a b scopes scopes', f a scopes = .ok (b, scopes') → p.Chooses (g a) (g b))
    {as bs : List α} (h : as.mapM f scopes = .ok (bs, scopes')) :
    p.Chooses (as.flatMap g) (bs.flatMap g) := by
  induction as generalizing scopes bs with
  | nil =>
      cases h
      exact .nil
  | cons a rest ih =>
      obtain ⟨b, mid, bs', ha, hrest, rfl⟩ := of_mapM_cons h
      exact (hf _ _ _ _ ha).append (ih hrest)

theorem chooses_optionDeclaration {d d' : OptionDeclaration}
    (h : p.optionDeclaration d scopes = .ok (d', scopes')) : p.Chooses d.pieces d'.pieces := by
  obtain ⟨default, hdefault, -, rfl⟩ := of_optionDeclaration h
  exact (Chooses.refl _).append ((chooses_optionExpr _ hdefault).append (.refl _))

theorem chooses_constDeclaration {d d' : ConstDeclaration}
    (h : p.constDeclaration d scopes = .ok (d', scopes')) : p.Chooses d.pieces d'.pieces := by
  obtain ⟨value, hvalue, -, rfl⟩ := of_constDeclaration h
  exact (Chooses.refl _).append ((resembles_specialize _ hvalue).pieces.append (.refl _))

/-- What a statement is specialized to has pieces of the statement, and its semicolon is that of
a first clause where the one of the statement is. -/
structure Follows (p : Permutation) (s t : Stmt) : Prop where
  pieces : p.Chooses s.pieces t.pieces
  clause : t.endsClause = s.endsClause

theorem Follows.refl (s : Stmt) : p.Follows s s := ⟨.refl _, rfl⟩

/-- An alternative that stays or is dropped is chosen with its keyword. -/
theorem chooses_else {o o' : Option Stmt} (h : Option.Rel p.Follows o o') :
    p.Chooses (Stmt.piecesElse o) (Stmt.piecesElse o') := by
  cases h with
  | none => exact .nil
  | some h => exact h.pieces.cons _

theorem chooses_init {o o' : Option Stmt} (h : Option.Rel p.Follows o o') :
    p.Chooses (Stmt.piecesInit o) (Stmt.piecesInit o') := by
  cases h with
  | none => exact .refl _
  | some h =>
      rw [Stmt.piecesInit, Stmt.piecesInit, h.clause]
      exact h.pieces.append (.refl _)

/-- What a statement contributes to a list, the braces of an optional block left out. -/
theorem chooses_contribution {ps : List Piece} (s : Stmt) {t : Stmt} (h : p.Chooses ps t.pieces) :
    p.Chooses ps (Stmt.piecesList (contribution s t)) := by
  cases s with
  | optional _ _ _ _ => exact h.sublist t.filePieces_sublist
  | _ => simpa [contribution, Stmt.piecesList] using h

mutual

/-- A specialized statement follows the statement, piece by piece. -/
theorem follows_of_stmt (s : Stmt) {t : Stmt} {scopes scopes' : Scopes}
    (h : p.stmt s scopes = .ok (t, scopes')) : p.Follows s t := by
  cases s with
  | branch _ arms otherwise =>
      obtain ⟨arms', mid, otherwise', harms, hother, rfl⟩ := of_stmt_branch h
      exact ⟨(chooses_of_arms _ arms harms).append
        (chooses_else (follows_of_optionStmt otherwise hother)), rfl⟩
  | forLoop _ init condition step body =>
      obtain ⟨init', mid, condition', step', body', after, hinit, hcondition, hstep, hbody, -,
        rfl⟩ := of_stmt_forLoop h
      have hfirst := chooses_init (follows_of_optionStmt init hinit)
      have hlast := (chooses_optionExpr [] hstep).append
        ((follows_of_stmt body hbody).pieces.cons (symbol .rparen))
      exact ⟨(Chooses.refl _).append (hfirst.append ((chooses_optionExpr [] hcondition).append
        (hlast.cons _))), rfl⟩
  | whileLoop _ condition body =>
      obtain ⟨condition', body', hcondition, hbody, rfl⟩ := of_stmt_whileLoop h
      exact ⟨((resembles_specialize condition hcondition).pieces.enclosed.append
        (follows_of_stmt body hbody).pieces).cons _, rfl⟩
  | doWhile _ body condition =>
      obtain ⟨body', condition', hbody, hcondition, rfl⟩ := of_stmt_doWhile h
      have hend := (resembles_specialize condition hcondition).pieces.enclosed.append
        (.refl [symbol .semicolon])
      exact ⟨((follows_of_stmt body hbody).pieces.append (hend.cons _)).cons _, rfl⟩
  | var _ d =>
      obtain ⟨initializer, hinitializer, -, rfl⟩ := of_stmt_var h
      exact ⟨(Chooses.refl _).append ((chooses_optionExpr _ hinitializer).append (.refl _)), rfl⟩
  | options _ ds =>
      obtain ⟨ds', hds, rfl⟩ := of_stmt_options h
      have hentries := chooses_mapM (fun _ _ _ _ hd => chooses_optionDeclaration hd) hds
      exact ⟨hentries.inBraces.cons _, rfl⟩
  | consts _ ds =>
      obtain ⟨ds', hds, rfl⟩ := of_stmt_consts h
      have hentries := chooses_mapM (fun _ _ _ _ hd => chooses_constDeclaration hd) hds
      exact ⟨hentries.inBraces.cons _, rfl⟩
  | function _ f body =>
      obtain ⟨body', after, hbody, -, rfl⟩ := of_stmt_function h
      exact ⟨(Chooses.refl _).append (chooses_of_stmts body hbody).inBraces, rfl⟩
  | expr _ e =>
      obtain ⟨e', he, -, rfl⟩ := of_stmt_expr h
      exact ⟨(resembles_specialize e he).pieces.append (.refl _), rfl⟩
  | ret _ value =>
      obtain ⟨value', hvalue, -, rfl⟩ := of_stmt_ret h
      exact ⟨((chooses_optionExpr [] hvalue).append (.refl _)).cons _, rfl⟩
  | block _ items =>
      obtain ⟨items', after, hitems, -, rfl⟩ := of_stmt_block h
      exact ⟨(chooses_of_stmts items hitems).inBraces, rfl⟩
  | optional _ condition body otherwise =>
      obtain ⟨taken, items, -, rfl, hitems⟩ := of_stmt_optional h
      -- The condition goes, and with it the keyword and the branch that is not selected.
      refine ⟨.leave (.after _ (.putBraces ?_)), rfl⟩
      cases taken with
      | true => exact (chooses_of_branchStmts body hitems).before _
      | false =>
          refine .after _ ?_
          cases otherwise with
          | none =>
              cases hitems
              exact .none _
          | some s =>
              rw [alternative_some] at hitems
              exact .leave (chooses_of_branchStmts s hitems)
  | _ =>
      cases h
      exact .refl _
termination_by 4 * sizeOf s
decreasing_by
  all_goals subst_vars; simp +arith

/-- The branch of an optional block is chosen without the braces around it. -/
theorem chooses_of_branchStmts (s : Stmt) {items : List Stmt} {scopes scopes' : Scopes}
    (h : p.branchStmts s scopes = .ok (items, scopes')) :
    p.Chooses s.pieces (Stmt.piecesList items) := by
  by_cases hblock : ∃ b inner, s = .block b inner
  · obtain ⟨b, inner, rfl⟩ := hblock
    exact (chooses_of_stmts inner h).leaveBraces
  · rcases of_branchStmts (fun b inner hb => hblock ⟨b, inner, hb⟩) h with
      ⟨_, rfl, _⟩ | ⟨_, t, ht, rfl⟩
    · exact .none _
    · exact chooses_contribution s (follows_of_stmt s ht).pieces
termination_by 4 * sizeOf s + 1
decreasing_by
  all_goals subst_vars; simp +arith

theorem chooses_of_stmts (ss : List Stmt) {out : List Stmt} {scopes scopes' : Scopes}
    (h : p.stmts ss scopes = .ok (out, scopes')) :
    p.Chooses (Stmt.piecesList ss) (Stmt.piecesList out) := by
  cases ss with
  | nil =>
      cases h
      exact .nil
  | cons s rest =>
      rcases of_stmts_cons h with ⟨_, hrest⟩ | ⟨_, t, mid, out', ht, hrest, rfl⟩
      · exact (chooses_of_stmts rest hrest).after _
      · rw [Stmt.piecesList_eq_flatMap (_ ++ _), List.flatMap_append,
          ← Stmt.piecesList_eq_flatMap, ← Stmt.piecesList_eq_flatMap]
        exact (chooses_contribution s (follows_of_stmt s ht).pieces).append
          (chooses_of_stmts rest hrest)
termination_by 4 * sizeOf ss
decreasing_by
  all_goals subst_vars; simp +arith

theorem chooses_of_arms (lead : List Kind) (arms : List (Expr × Stmt))
    {out : List (Expr × Stmt)} {scopes scopes' : Scopes}
    (h : p.arms arms scopes = .ok (out, scopes')) :
    p.Chooses (Stmt.piecesArms lead arms) (Stmt.piecesArms lead out) := by
  match arms with
  | [] =>
      cases h
      exact .nil
  | (c, s) :: rest =>
      obtain ⟨c', s', mid, rest', hc, hs, hrest, rfl⟩ := of_arms_cons h
      have hcondition := (resembles_specialize c hc).pieces.enclosed
      exact (Chooses.refl _).append (hcondition.append
        ((follows_of_stmt s hs).pieces.append (chooses_of_arms _ rest hrest)))
termination_by 4 * sizeOf arms
decreasing_by
  all_goals subst_vars; simp +arith

theorem follows_of_optionStmt (s : Option Stmt) {out : Option Stmt} {scopes scopes' : Scopes}
    (h : p.optionStmt s scopes = .ok (out, scopes')) : Option.Rel p.Follows s out := by
  cases s with
  | none =>
      cases h
      exact .none
  | some s =>
      obtain ⟨t, ht, rfl⟩ := of_optionStmt_some h
      exact .some (follows_of_stmt s ht)
termination_by 4 * sizeOf s
decreasing_by
  all_goals subst_vars; simp +arith

end

/-- A specialized file is chosen from the pieces of the file. -/
theorem chooses_filePieces {file tree : Stmt} (h : p.stmt file scopes = .ok (tree, scopes')) :
    p.Chooses file.filePieces tree.filePieces := by
  cases file with
  | block _ items =>
      obtain ⟨items', after, hitems, -, rfl⟩ := of_stmt_block h
      exact chooses_of_stmts items hitems
  | _ =>
      have hpieces := (follows_of_stmt _ h).pieces.sublist tree.filePieces_sublist
      simpa [Stmt.filePieces, Stmt.items, Stmt.piecesList] using hpieces

end Statements

end Permutation

end Shading
