import Shading.Proofs.Parse.Complete
import Shading.Proofs.Parse.Derived

/-!
# The expression parser is the grammar

Climbing over precedences reads what the levels of the grammar derive: the tokens that are
taken derive the tree, and tokens that derive a tree are taken, all of them and no more, if the
next one does not continue an expression.
-/

namespace Shading

namespace Parse

/-- An operator of assignments, a binary operator, or the start of a conditional, of a suffix
or of arguments. -/
def continuesExpression (k : Kind) : Bool :=
  (assignOp? k).isSome || (binaryOp? k).isSome ||
    [.symbol .question, .symbol .lbracket, .symbol .dot, .symbol .lparen].contains k

theorem strength?_eq_none {k : Kind} (h : continuesExpression k = false) : strength? k = none := by
  simp only [continuesExpression, Bool.or_eq_false_iff, Option.isSome_eq_false_iff,
    Option.isNone_iff_eq_none, List.contains_eq_mem, decide_eq_false_iff_not, List.mem_cons,
    List.not_mem_nil, or_false, not_or] at h
  obtain ⟨⟨hassign, hbinary⟩, hquestion, hbracket, hdot, hparen⟩ := h
  unfold strength?
  split
  · exact absurd rfl hparen
  · exact absurd rfl hbracket
  · exact absurd rfl hdot
  · exact absurd rfl hquestion
  · rw [hassign, hbinary]

variable {names : Names}

theorem ends_of_not_continues {rest : List Kind}
    (h : continuesExpression (rest.headD .eof) = false) (level : Precedence) : Ends level rest := by
  intro p hp
  rw [strength?_eq_none h] at hp
  cases hp

/-- Tokens derive one tree at most. -/
theorem Derives.unique {level level' : Precedence} {ks : List Kind} {e e' : Expr}
    (h : Derives names level ks e) (h' : Derives names level' ks e') : e = e' := by
  let c : Cursor := ⟨ks.map fun k => ⟨k, .dummy, .nowhere⟩, .dummy⟩
  have hc : c.kinds = ks ++ [] := by simp [c, Cursor.kinds, Function.comp_def]
  have hends : Ends .assign [] := ends_of_not_continues rfl _
  obtain ⟨a, mid, hrun, _, ha⟩ :=
    readsAs_expression (h.weaken (Nat.zero_le _)) (Nat.le_refl _) [] hends c hc
  obtain ⟨a', mid', hrun', _, ha'⟩ :=
    readsAs_expression (h'.weaken (Nat.zero_le _)) (Nat.le_refl _) [] hends c hc
  cases hrun.symm.trans hrun'
  exact ha.symm.trans ha'

/-- An expression that is read is derived by the tokens taken. Tokens that derive an
expression are read as it and no others, if the next one does not continue it. -/
theorem expression_exact (names : Names) (fuel : Nat) (c : Cursor) :
    (∀ e c', expression names fuel c = .ok (e, c') →
      ∃ ks, c.kinds = ks ++ c'.kinds ∧ Derives names .assign ks e.erased) ∧
    ∀ ks rest e, c.kinds = ks ++ rest → ks.length ≤ fuel → Derives names .assign ks e →
      continuesExpression (rest.headD .eof) = false →
      ∃ e' c', expression names fuel c = .ok (e', c') ∧ c'.kinds = rest ∧ e'.erased = e := by
  constructor
  · intro e c' hrun
    obtain ⟨ks, hks, -, hderives⟩ := sound_expression names fuel c e c' hrun
    exact ⟨ks, hks, hderives⟩
  · intro ks rest e hc hfuel hderives hnext
    exact readsAs_expression hderives hfuel rest (ends_of_not_continues hnext _) c hc

/-- `a - b * c;` -/
def difference : Cursor :=
  ⟨[.ident "a", .symbol .minus, .ident "b", .symbol .star, .ident "c", .symbol .semicolon].map
    fun k => ⟨k, .dummy, .nowhere⟩, .dummy⟩

/-- The multiplication binds more tightly, and the semicolon is left. -/
theorem difference_exact :
    ∃ e c', expression ⟨Registry.standard, []⟩ 5 difference = .ok (e, c') ∧
      c'.kinds = [.symbol .semicolon] ∧
      e.erased = .binary .dummy .sub (.ref .dummy "a")
        (.binary .dummy .mul (.ref .dummy "b") (.ref .dummy "c")) ∧
      ∃ ks, difference.kinds = ks ++ c'.kinds ∧
        Derives ⟨Registry.standard, []⟩ .assign ks e.erased := by
  have hname {level : Precedence} (n : String)
      (h : Names.type? ⟨Registry.standard, []⟩ n = none) :
      Derives ⟨Registry.standard, []⟩ level [.ident n] (.ref .dummy n) :=
    Derives.weaken (.ref h) (le_primary level)
  have hstar : binaryOp? (.symbol .star) = some .mul := rfl
  have hminus : binaryOp? (.symbol .minus) = some .sub := rfl
  have hdifference := Derives.binary hminus (hname "a" rfl)
    (.binary hstar (hname "b" rfl) (hname "c" rfl))
  obtain ⟨hsound, hcomplete⟩ := expression_exact ⟨Registry.standard, []⟩ 5 difference
  obtain ⟨e, c', hrun, hrest, he⟩ := hcomplete _ [.symbol .semicolon] _ rfl (by decide)
    (hdifference.weaken (Nat.zero_le _)) rfl
  exact ⟨e, c', hrun, hrest, he, hsound e c' hrun⟩

end Parse

end Shading
