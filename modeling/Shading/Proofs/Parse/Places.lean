import Mathlib.Logic.Basic
import Shading.Proofs.Parallel
import Shading.Proofs.Parse.Marks
import Shading.Proofs.Parse.Takes
import Shading.Proofs.Syntax.Erased

/-!
# Reading expressions wherever they stand

Productions look at the kinds of tokens only. From tokens of the same kinds at other places
they read the same, but for its places, or fail as well.
-/

namespace Shading

/-- The token without its place. -/
def Token.erased (t : Token) : Token := ⟨t.kind, .dummy, .nowhere⟩

/-- A list that is erased to another one has the same tokens but for their places. -/
theorem cons_of_map_erased {ts rest : List Token} {k : Kind} {s : Span} {p : Position}
    (h : ts.map Token.erased = ⟨k, s, p⟩ :: rest) :
    ∃ s' p' ts', ts = ⟨k, s', p'⟩ :: ts' ∧ ts'.map Token.erased = rest := by
  obtain ⟨⟨k', s', p'⟩, ts', rfl, ht, hrest⟩ := List.map_eq_cons_iff.mp h
  cases ht
  exact ⟨s', p', ts', rfl, hrest⟩

namespace Cursor

variable {c c' : Cursor}

theorem current_kind_eq (h : c.kinds = c'.kinds) : c.current.kind = c'.current.kind := by
  rw [current_kind, current_kind, h]

/-- Taking a token drops its kind, unless it is an end of file. -/
theorem kinds_advance (c : Cursor) :
    c.advance.kinds = if c.current.kind = .eof then c.kinds else c.kinds.tail := by
  obtain ⟨rest, previous⟩ := c
  cases rest with
  | nil => rfl
  | cons t rest => by_cases ht : t.kind = .eof <;> simp [advance, current, kinds, ht]

theorem advance_kinds_eq (h : c.kinds = c'.kinds) : c.advance.kinds = c'.advance.kinds := by
  rw [kinds_advance, kinds_advance, current_kind_eq h, h]

theorem nextKind_eq (h : c.kinds = c'.kinds) : c.nextKind = c'.nextKind := by
  have hdrop (c : Cursor) : c.nextKind = (c.kinds.drop 1).headD .eof := by
    rw [nextKind, kinds, ← List.map_drop]
    cases c.rest.drop 1 <;> rfl
  rw [hdrop, hdrop, h]

/-- Tokens of the same kinds are the same when their places are erased. -/
theorem map_erased_eq (h : c.kinds = c'.kinds) :
    c.rest.map Token.erased = c'.rest.map Token.erased := by
  have hkinds (c : Cursor) :
      c.rest.map Token.erased = c.kinds.map fun k => ⟨k, .dummy, .nowhere⟩ := by
    rw [kinds, List.map_map]
    rfl
  rw [hkinds, hkinds, h]

end Cursor

namespace Names

/-- The lookahead past brackets goes by kinds. -/
theorem nameFollows_erased (ts : List Token) :
    nameFollows (ts.map Token.erased) = nameFollows ts := by
  fun_induction nameFollows ts with
  | case1 s p s' p' rest ih => simpa [nameFollows, Token.erased] using ih
  | case2 s p n s' p' s'' p'' rest ih => simpa [nameFollows, Token.erased] using ih
  | case3 s p n s' p' s'' p'' rest ih => simpa [nameFollows, Token.erased] using ih
  | case4 => rfl
  | case5 ts hempty hint huint hname =>
      rw [nameFollows.eq_def]
      split
      · rename_i h₀
        obtain ⟨_, _, _, rfl, h₁⟩ := cons_of_map_erased h₀
        obtain ⟨_, _, _, rfl, h₂⟩ := cons_of_map_erased h₁
        exact (hempty _ _ _ _ _ rfl).elim
      · rename_i h₀
        obtain ⟨_, _, _, rfl, h₁⟩ := cons_of_map_erased h₀
        obtain ⟨_, _, _, rfl, h₂⟩ := cons_of_map_erased h₁
        obtain ⟨_, _, _, rfl, h₃⟩ := cons_of_map_erased h₂
        exact (hint _ _ _ _ _ _ _ _ rfl).elim
      · rename_i h₀
        obtain ⟨_, _, _, rfl, h₁⟩ := cons_of_map_erased h₀
        obtain ⟨_, _, _, rfl, h₂⟩ := cons_of_map_erased h₁
        obtain ⟨_, _, _, rfl, h₃⟩ := cons_of_map_erased h₂
        exact (huint _ _ _ _ _ _ _ _ rfl).elim
      · rename_i h₀
        obtain ⟨_, _, _, rfl, h₁⟩ := cons_of_map_erased h₀
        exact (hname _ _ _ _ rfl).elim
      · rfl

/-- Whether a declaration stands there is told by the kinds. -/
theorem startsDeclaration_erased (names : Names) (ts : List Token) :
    names.startsDeclaration (ts.map Token.erased) = names.startsDeclaration ts := by
  match ts with
  | [] => rfl
  | ⟨k, s, p⟩ :: rest =>
      cases k with
      | ident name => exact congrArg (_ && ·) (nameFollows_erased rest)
      | _ => rfl
end Names

namespace Parse

/-- Brackets are read off the kinds of tokens. -/
theorem parallel_dimensions_erased (previous previous' : Span) (ts : List Token) :
    Except.Parallel (fun p p' => p.1 = p'.1 ∧ p.2.kinds = p'.2.kinds)
      (dimensions previous ts) (dimensions previous' (ts.map Token.erased)) := by
  have hkinds (ts : List Token) : (ts.map Token.erased).map Token.kind = ts.map Token.kind := by
    rw [List.map_map]
    rfl
  have hclose {size : Token} (h : ∀ s p, size = ⟨.symbol .rbracket, s, p⟩ → False) (s : Span)
      (p : Position) (heq : size.erased = ⟨.symbol .rbracket, s, p⟩) : False := by
    obtain ⟨k, s', p'⟩ := size
    cases heq
    exact h _ _ rfl
  induction previous, ts using dimensions.induct generalizing previous' with
  | case1 previous bracket position close position' rest ih =>
      exact (ih _).bind fun p p' hp => .ok ⟨by rw [hp.1], hp.2⟩
  | case2 previous bracket position size rest hsize hnone =>
      have hnone' : arraySize? size.erased.kind = none := hnone
      rw [List.map_cons, List.map_cons, Token.erased, dimensions.eq_2 _ _ _ _ _ hsize,
        dimensions.eq_2 _ _ _ _ _ (hclose hsize), hnone, hnone']
      exact .error
  | case3 previous bracket position size hsize n hn close position' rest ih =>
      have hn' : arraySize? size.erased.kind = some n := hn
      rw [List.map_cons, List.map_cons, Token.erased, dimensions.eq_2 _ _ _ _ _ hsize,
        dimensions.eq_2 _ _ _ _ _ (hclose hsize), hn, hn']
      exact (ih _).bind fun p p' hp => .ok ⟨by rw [hp.1], hp.2⟩
  | case4 previous bracket position size hsize n hn rest hrest =>
      have hn' : arraySize? size.erased.kind = some n := hn
      rw [List.map_cons, List.map_cons, Token.erased, dimensions.eq_2 _ _ _ _ _ hsize,
        dimensions.eq_2 _ _ _ _ _ (hclose hsize), hn, hn']
      dsimp only
      split
      · exact (hrest _ _ _ rfl).elim
      · split
        · rename_i h
          obtain ⟨_, _, _, rfl, -⟩ := cons_of_map_erased h
          exact (hrest _ _ _ rfl).elim
        · exact .error
  | case5 previous bracket position => exact .error
  | case6 previous rest hrest =>
      rw [dimensions, dimensions]
      · exact .ok ⟨rfl, (hkinds rest).symm⟩
      · intro bracket position rest' h
        obtain ⟨_, _, _, rfl, -⟩ := cons_of_map_erased h
        exact hrest _ _ _ rfl
      · exact hrest

/-- Parallel from cursors that have tokens of the same kinds left. -/
abbrev Parallel {α α' : Type} (R : α → α' → Prop) (m : Parse α) (m' : Parse α') : Prop :=
  StateT.Parallel (fun c c' => c.kinds = c'.kinds) R m m'

variable {names : Names} {α α' β : Type} {R : α → α' → Prop}

section Tokens

theorem parallel_look : Parallel (fun t t' => t.kind = t'.kind) look look := fun _ _ h =>
  .ok ⟨Cursor.current_kind_eq h, h⟩

theorem parallel_kind : Parallel Eq kind kind := fun _ _ h => .ok ⟨Cursor.current_kind_eq h, h⟩

theorem parallel_take : Parallel Eq take take := fun _ _ h => .ok ⟨rfl, Cursor.advance_kinds_eq h⟩

theorem parallel_failAt (t t' : Token) (fault fault' : ParseFault) :
    Parallel R (failAt t fault) (failAt t' fault') := fun _ _ _ => .error

theorem parallel_unexpected (expected : Expected) :
    Parallel R (unexpected expected) (unexpected expected) := fun _ _ _ => .error

theorem parallel_spent : Parallel R spent spent := fun _ _ _ => .error

theorem parallel_eat (s : Symbol) : Parallel Eq (eat s) (eat s) := fun c c' h => by
  rw [eat, eat, Cursor.current_kind_eq h]
  exact .ite (fun _ => .ok ⟨rfl, Cursor.advance_kinds_eq h⟩) fun _ => .ok ⟨rfl, h⟩

theorem parallel_eatKeyword (k : Keyword) : Parallel Eq (eatKeyword k) (eatKeyword k) :=
    fun c c' h => by
  rw [eatKeyword, eatKeyword, Cursor.current_kind_eq h]
  exact .ite (fun _ => .ok ⟨rfl, Cursor.advance_kinds_eq h⟩) fun _ => .ok ⟨rfl, h⟩

theorem parallel_expect (s : Symbol) : Parallel Eq (expect s) (expect s) :=
  (parallel_eat s).bindEq fun _ => .ite (fun _ => .pure rfl) fun _ => parallel_unexpected _

theorem parallel_expectKeyword (k : Keyword) : Parallel Eq (expectKeyword k) (expectKeyword k) :=
  (parallel_eatKeyword k).bindEq fun _ => .ite (fun _ => .pure rfl) fun _ => parallel_unexpected _

theorem parallel_identifier : Parallel (fun p p' => p.1 = p'.1) identifier identifier := by
  refine parallel_look.bind fun t t' ht => ?_
  rw [ht]
  split
  · exact parallel_take.bindEq fun _ => .pure rfl
  · exact parallel_unexpected _

theorem parallel_spanFrom (start start' : Span) :
    Parallel (fun _ _ => True) (spanFrom start) (spanFrom start') := fun _ _ h => .ok ⟨trivial, h⟩

theorem parallel_atDeclaration : Parallel Eq (atDeclaration names) (atDeclaration names) :=
    fun c c' h => by
  refine .ok ⟨?_, h⟩
  rw [← names.startsDeclaration_erased c.rest, Cursor.map_erased_eq h,
    names.startsDeclaration_erased]

/-- The dimensions are told by the kinds. -/
theorem parallel_arraySuffix (base : Ty) : Parallel Eq (arraySuffix base) (arraySuffix base) :=
    fun c c' h => by
  have hc := parallel_dimensions_erased c.previous Span.dummy c.rest
  have hc' := parallel_dimensions_erased c'.previous Span.dummy c'.rest
  rw [← Cursor.map_erased_eq h] at hc'
  have hdims : Except.Parallel (fun p p' => p.1 = p'.1 ∧ p.2.kinds = p'.2.kinds)
      (dimensions c.previous c.rest) (dimensions c'.previous c'.rest) :=
    hc.trans hc'.symm fun _ _ _ hp hp' => ⟨hp.1.trans hp'.1.symm, hp.2.trans hp'.2.symm⟩
  exact hdims.bind fun p p' hp => .ok ⟨by rw [hp.1], hp.2⟩

theorem parallel_type : Parallel Eq (type names) (type names) := by
  refine parallel_look.bind fun t t' ht => ?_
  rw [ht]
  split
  · split
    · exact parallel_take.bindEq fun _ => parallel_arraySuffix _
    · exact parallel_failAt _ _ _ _
  · exact parallel_unexpected _

end Tokens

section Expressions

variable {inner operand : Parse Expr}

/-- The relation of lists of values that are alike one by one. -/
theorem parallel_separated {item : Parse α} {f : α → β}
    (hitem : Parallel (fun a a' => f a = f a') item item) (fuel : Nat) :
    Parallel (fun l l' => l.map f = l'.map f) (separated item fuel) (separated item fuel) := by
  induction fuel with
  | zero => exact parallel_spent
  | succ fuel ih =>
      refine hitem.bind fun a a' h => (parallel_eat _).bindEq fun _ => .ite (fun _ => ?_) fun _ =>
        ?_
      · exact ih.bind fun l l' hl => .pure (by rw [List.map_cons, List.map_cons, h, hl])
      · exact .pure (by rw [List.map_singleton, List.map_singleton, h])

/-- Both lists have as many items, which are the same but for their places. -/
theorem parallel_upTo (stop : Kind) {item : Parse α} {f : α → β}
    (hitem : Parallel (fun a a' => f a = f a') item item) (fuel : Nat) :
    Parallel (fun l l' => l.map f = l'.map f) (upTo stop item fuel) (upTo stop item fuel) := by
  induction fuel with
  | zero => exact parallel_spent
  | succ fuel ih =>
      refine parallel_kind.bindEq fun k => .ite (fun _ => .pure rfl) fun _ => ?_
      exact hitem.bind fun a a' h => ih.bind fun l l' hl =>
        .pure (by rw [List.map_cons, List.map_cons, h, hl])

theorem parallel_arguments (hinner : Parallel Expr.Alike inner inner) (fuel : Nat) :
    Parallel (fun es es' => es.map Expr.erased = es'.map Expr.erased)
      (arguments inner fuel) (arguments inner fuel) := by
  refine (parallel_expect _).bindEq fun _ => (parallel_eat _).bindEq fun _ =>
    .ite (fun _ => .pure rfl) fun _ => ?_
  exact (parallel_separated hinner _).bind fun es es' h =>
    (parallel_expect _).bindEq fun _ => .pure h

/-- A name becomes a constructor, a call or a reference in both. -/
theorem parallel_named (hinner : Parallel Expr.Alike inner inner) (fuel : Nat) (t t' : Token)
    (name : String) :
    Parallel Expr.Alike (named names inner fuel t name) (named names inner fuel t' name) := by
  unfold named
  split
  · refine parallel_take.bindEq fun _ => (parallel_arraySuffix _).bindEq fun target =>
      parallel_kind.bindEq fun _ => .ite (fun _ => ?_) fun _ => parallel_unexpected _
    exact (parallel_arguments hinner fuel).bind fun es es' h =>
      (parallel_spanFrom _ _).bind fun _ _ _ =>
        .pure (by rw [Expr.Alike, Expr.erased_cast, Expr.erased_cast, h])
  · refine parallel_take.bindEq fun _ => parallel_kind.bindEq fun _ => .ite (fun _ => ?_)
      fun _ => .pure rfl
    refine (parallel_arguments hinner fuel).bind fun es es' h =>
      (parallel_spanFrom _ _).bind fun _ _ _ => ?_
    split
    · exact .pure (by rw [Expr.Alike, Expr.erased_builtin, Expr.erased_builtin, h])
    · exact .pure (by rw [Expr.Alike, Expr.erased_call, Expr.erased_call, h])

/-- An expression of the tightest level is the same but for its places. -/
theorem parallel_primary (hinner : Parallel Expr.Alike inner inner) (fuel : Nat) :
    Parallel Expr.Alike (primary names inner fuel) (primary names inner fuel) := by
  refine parallel_look.bind fun t t' ht => ?_
  rw [ht]
  split
  · exact parallel_take.bindEq fun _ => .pure rfl
  · split
    · exact parallel_failAt _ _ _ _
    · exact parallel_take.bindEq fun _ => hinner.bind fun e e' he =>
        (parallel_expect _).bindEq fun _ => .pure he
    · exact parallel_named hinner fuel t t' _
    · exact parallel_failAt _ _ _ _

theorem parallel_suffixes (hinner : Parallel Expr.Alike inner inner) (fuel : Nat) {e e' : Expr}
    (he : e.Alike e') : Parallel Expr.Alike (suffixes inner fuel e) (suffixes inner fuel e') := by
  induction fuel generalizing e e' with
  | zero => exact parallel_spent
  | succ fuel ih =>
      refine (parallel_eat _).bindEq fun _ => .ite (fun _ => ?_) fun _ =>
        (parallel_eat _).bindEq fun _ => .ite (fun _ => ?_) fun _ => .pure he
      · exact hinner.bind fun place place' hplace => (parallel_expect _).bindEq fun _ =>
          (parallel_spanFrom _ _).bind fun _ _ _ => ih (congrArg₂ (Expr.index .dummy) he hplace)
      · refine parallel_identifier.bind fun member member' hmember => ?_
        dsimp only
        rw [hmember]
        split
        · exact ih (congrArg (Expr.swizzle .dummy · _) he)
        · exact ih (congrArg (Expr.field .dummy · _) he)

theorem parallel_unary (hoperand : Parallel Expr.Alike operand operand) (fuel : Nat) :
    Parallel Expr.Alike (unary operand fuel) (unary operand fuel) := by
  induction fuel with
  | zero => exact parallel_spent
  | succ fuel ih =>
      refine parallel_look.bind fun t t' ht => ?_
      rw [ht]
      split
      · refine parallel_take.bindEq fun _ => parallel_look.bind fun u u' hu => ?_
        rw [hu]
        refine .ite (fun _ => parallel_take.bindEq fun _ => .pure rfl) fun _ => ?_
        exact ih.bind fun e e' he => .pure (congrArg (Expr.unary .dummy _) he)
      · exact .ite (fun _ => parallel_take.bindEq fun _ => ih) fun _ => hoperand

/-- The operators in between are the same, and so are the operands but for their places. -/
theorem parallel_climb (hoperand : Parallel Expr.Alike operand operand) (fuel : Nat)
    (min : Precedence) {left left' : Expr} (hleft : left.Alike left') :
    Parallel Expr.Alike (climb operand fuel min left) (climb operand fuel min left') := by
  induction fuel generalizing min left left' with
  | zero => exact parallel_spent
  | succ fuel ih =>
      refine parallel_kind.bindEq fun k => ?_
      split
      · refine .ite (fun _ => .pure hleft) fun _ => parallel_take.bindEq fun _ => ?_
        exact (hoperand.bind fun e e' he => ih _ he).bind fun right right' hright =>
          ih _ (congrArg₂ (Expr.binary .dummy _) hleft hright)
      · exact .pure hleft

theorem parallel_binary (hoperand : Parallel Expr.Alike operand operand) (fuel : Nat)
    (min : Precedence) :
    Parallel Expr.Alike (binary operand fuel min) (binary operand fuel min) :=
  hoperand.bind fun _ _ he => parallel_climb hoperand fuel min he

theorem parallel_ternary {condition : Parse Expr}
    (hcondition : Parallel Expr.Alike condition condition)
    (hinner : Parallel Expr.Alike inner inner) (fuel : Nat) :
    Parallel Expr.Alike (ternary condition inner fuel) (ternary condition inner fuel) := by
  induction fuel with
  | zero => exact parallel_spent
  | succ fuel ih =>
      refine hcondition.bind fun c c' hc => (parallel_eat _).bindEq fun _ => .ite (fun _ => ?_)
        fun _ => .pure hc
      refine hinner.bind fun t t' ht => (parallel_expect _).bindEq fun _ =>
        ih.bind fun f f' hf => .pure ?_
      rw [Expr.Alike, Expr.erased_ternary, Expr.erased_ternary, hc, ht, hf]

/-- The operator is the same, and so are the target and the value but for their places. -/
theorem parallel_assignment {target : Parse Expr} (htarget : Parallel Expr.Alike target target)
    (fuel : Nat) : Parallel Expr.Alike (assignment target fuel) (assignment target fuel) := by
  induction fuel with
  | zero => exact parallel_spent
  | succ fuel ih =>
      refine htarget.bind fun t t' ht => parallel_kind.bindEq fun k => ?_
      split
      · exact parallel_take.bindEq fun _ => ih.bind fun v v' hv =>
          .pure (congrArg₂ (Expr.assign .dummy _) ht hv)
      · exact .pure ht

/-- Expressions are read alike wherever their tokens stand. -/
theorem parallel_expression (fuel : Nat) :
    Parallel Expr.Alike (expression names fuel) (expression names fuel) := by
  induction fuel with
  | zero => exact parallel_spent
  | succ fuel ih =>
      have hprimary : Parallel Expr.Alike (primary names (expression names fuel) fuel) _ :=
        parallel_primary ih fuel
      have hsuffixed := hprimary.bind fun e e' he => parallel_suffixes ih (fuel + 1) he
      have hcondition := parallel_binary (parallel_unary hsuffixed (fuel + 1)) (fuel + 1) .or
      exact parallel_assignment (parallel_ternary hcondition ih _) _

end Expressions

end Parse

end Shading
