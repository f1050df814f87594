import Shading.Proofs.Options.Fusion
import Shading.Proofs.Options.Mentions
import Shading.Syntax.Path

/-!
# Branches that are not selected

An optional block runs the branch that its condition selects and never looks at the other
one. Only the declarations of options are taken from both: a value is bound as its first
declaration has it, wherever in the tree this one stands.
-/

namespace Shading

namespace Permutation

variable {p q : Permutation}

/-- One statement may stand for another: by itself, as a part of a list, and as the branch of
an optional block. -/
structure Interchanges (p : Permutation) (s s' : Stmt) : Prop where
  stmt : p.stmt s' = p.stmt s
  item : p.item s' = p.item s
  items : p.stmts s'.items = p.stmts s.items

/-- A statement that is one part of a list, and that no list drops or splices. -/
theorem Interchanges.of_stmt {s s' : Stmt} (hitems : s.items = [s] ∧ s'.items = [s'])
    (hdrops : p.drops s = false ∧ p.drops s' = false)
    (hoptional : s.isOptional = false ∧ s'.isOptional = false) (h : p.stmt s' = p.stmt s) :
    p.Interchanges s s' := by
  have hitem : p.item s' = p.item s := by
    rw [item_of_plain hoptional.1 hdrops.1, item_of_plain hoptional.2 hdrops.2, h]
  constructor
  · exact h
  · exact hitem
  · rw [hitems.1, hitems.2, stmts_cons, stmts_cons, hitem]

/-- The statements that a condition selects. -/
def selected (taken : Bool) (body : Stmt) (otherwise : Option Stmt) : List Stmt :=
  if taken then body.items else Stmt.itemsOption otherwise

/-- An optional block by itself becomes a block of what it gives in a list. -/
theorem stmt_optional_item (b : Span) (condition : Expr) (body : Stmt) (otherwise : Option Stmt) :
    p.stmt (.optional b condition body otherwise) =
      (do return .block b (← p.item (.optional b condition body otherwise))) := by
  rw [stmt_optional, item_optional, branchStmts_eq, alternative_eq, bind_assoc]
  apply bind_congr
  intro taken
  cases taken <;> simp

/-- Optional blocks may be exchanged when the branches that are selected may. -/
theorem interchanges_optional {b : Span} {condition : Expr} {body body' : Stmt}
    {otherwise otherwise' : Option Stmt}
    (h : ∀ taken, condition.evaluateCondition p.lookup = .ok taken →
      p.stmts (selected taken body' otherwise') = p.stmts (selected taken body otherwise)) :
    p.Interchanges (.optional b condition body otherwise)
      (.optional b condition body' otherwise') := by
  have hitem : p.item (.optional b condition body' otherwise') =
      p.item (.optional b condition body otherwise) := by
    rw [item_optional, item_optional]
    cases hcondition : condition.evaluateCondition p.lookup with
    | error e => rfl
    | ok taken =>
        have hselected := h taken hcondition
        cases taken with
        | false => exact hselected
        | true => exact hselected
  constructor
  · rw [stmt_optional_item, stmt_optional_item, hitem]
  · exact hitem
  · change p.stmts [_] = p.stmts [_]
    rw [stmts_cons, stmts_cons, hitem]

section Children

variable {c c' : Stmt}

/-- Exchanging one statement of a list does not change what the list gives. -/
theorem stmts_set (h : p.Interchanges c c') {ss : List Stmt} {n : Nat} (hc : ss[n]? = some c) :
    p.stmts (ss.set n c') = p.stmts ss := by
  induction ss generalizing n with
  | nil => cases hc
  | cons s ss ih =>
      cases n with
      | zero =>
          obtain rfl : s = c := Option.some.inj hc
          rw [List.set_cons_zero, stmts_cons, stmts_cons, h.item]
      | succ n => rw [List.set_cons_succ, stmts_cons, stmts_cons, ih hc]

/-- Exchanging the body of one arm does not change what the arms give. -/
theorem arms_modify (h : p.Interchanges c c') {arms : List (Expr × Stmt)} {n : Nat}
    (hc : arms[n]?.map (·.2) = some c) :
    p.arms (arms.modify n fun arm => (arm.1, c')) = p.arms arms := by
  induction arms generalizing n with
  | nil => cases hc
  | cons arm arms ih =>
      obtain ⟨condition, body⟩ := arm
      cases n with
      | zero =>
          obtain rfl : body = c := Option.some.inj hc
          rw [List.modify_zero_cons, Permutation.arms, Permutation.arms, h.stmt]
      | succ n => rw [List.modify_succ_cons, Permutation.arms, Permutation.arms, ih hc]

theorem optionStmt_map (h : p.Interchanges c c') {s : Option Stmt} (hc : s = some c) :
    p.optionStmt (s.map fun _ => c') = p.optionStmt s := by
  rw [hc, Option.map_some, optionStmt, optionStmt, h.stmt]

/-- A child may be exchanged under every statement. -/
theorem interchanges_setChild (h : p.Interchanges c c') {s : Stmt} {n : Nat}
    (hc : s.child? n = some c) : p.Interchanges s (s.setChild n c') := by
  cases s with
  | branch b arms otherwise =>
      rw [Stmt.child?] at hc
      rw [Stmt.setChild]
      split at hc
      · rename_i hn
        rw [if_pos hn]
        apply Interchanges.of_stmt ⟨rfl, rfl⟩ ⟨rfl, rfl⟩ ⟨rfl, rfl⟩
        rw [stmt, stmt, optionStmt_map h hc]
      · rename_i hn
        rw [if_neg hn]
        apply Interchanges.of_stmt ⟨rfl, rfl⟩ ⟨rfl, rfl⟩ ⟨rfl, rfl⟩
        rw [stmt, stmt, arms_modify h hc]
  | forLoop b init condition step body =>
      match n with
      | 0 =>
          have hinit : init = some c := hc
          apply Interchanges.of_stmt ⟨rfl, rfl⟩ ⟨rfl, rfl⟩ ⟨rfl, rfl⟩
          rw [Stmt.setChild, stmt, stmt, optionStmt_map h hinit]
      | 1 =>
          obtain rfl : body = c := Option.some.inj hc
          apply Interchanges.of_stmt ⟨rfl, rfl⟩ ⟨rfl, rfl⟩ ⟨rfl, rfl⟩
          rw [Stmt.setChild, stmt, stmt, h.stmt]
      | n + 2 => cases hc
  | whileLoop b condition body =>
      match n with
      | 0 =>
          obtain rfl : body = c := Option.some.inj hc
          apply Interchanges.of_stmt ⟨rfl, rfl⟩ ⟨rfl, rfl⟩ ⟨rfl, rfl⟩
          rw [Stmt.setChild, stmt, stmt, h.stmt]
      | n + 1 => cases hc
  | doWhile b body condition =>
      match n with
      | 0 =>
          obtain rfl : body = c := Option.some.inj hc
          apply Interchanges.of_stmt ⟨rfl, rfl⟩ ⟨rfl, rfl⟩ ⟨rfl, rfl⟩
          rw [Stmt.setChild, stmt, stmt, h.stmt]
      | n + 1 => cases hc
  | function b f body =>
      apply Interchanges.of_stmt ⟨rfl, rfl⟩ ⟨rfl, rfl⟩ ⟨rfl, rfl⟩
      rw [Stmt.setChild, stmt, stmt, stmts_set h hc]
  | block b items =>
      have hitems : p.stmts (items.set n c') = p.stmts items := stmts_set h hc
      have hstmt : p.stmt (.block b (items.set n c')) = p.stmt (.block b items) := by
        rw [stmt, stmt, hitems]
      constructor
      · exact hstmt
      · rw [Stmt.setChild, item_of_plain rfl rfl, item_of_plain rfl rfl, hstmt]
      · exact hitems
  | optional b condition body otherwise =>
      match n with
      | 0 =>
          obtain rfl : body = c := Option.some.inj hc
          apply interchanges_optional
          rintro (_ | _) -
          · rfl
          · exact h.items
      | 1 =>
          obtain rfl : otherwise = some c := hc
          apply interchanges_optional
          rintro (_ | _) -
          · exact h.items
          · rfl
      | n + 2 => cases hc
  | _ => cases hc

/-- A statement may be exchanged wherever in a tree it stands. -/
theorem interchanges_replaceAt? {s other : Stmt} {n : Nat} {path : List Nat} {tree tree' : Stmt}
    (h : p.Interchanges s (s.setChild n other)) (hat : tree.at? path = some s)
    (hreplace : tree.replaceAt? (path ++ [n]) other = some tree') :
    p.Interchanges tree tree' := by
  induction path generalizing tree tree' with
  | nil =>
      obtain rfl : tree = s := Option.some.inj hat
      obtain ⟨child, -, hreplace⟩ := Option.bind_eq_some_iff.mp hreplace
      obtain rfl : tree.setChild n other = tree' := Option.some.inj hreplace
      exact h
  | cons m path ih =>
      obtain ⟨child, hchild, hat⟩ := Option.bind_eq_some_iff.mp hat
      obtain ⟨child', hchild', hreplace⟩ := Option.bind_eq_some_iff.mp hreplace
      obtain rfl : child = child' := Option.some.inj (hchild.symm.trans hchild')
      obtain ⟨changed, hchanged, hreplace⟩ := Option.bind_eq_some_iff.mp hreplace
      obtain rfl : tree.setChild m changed = tree' := Option.some.inj hreplace
      exact interchanges_setChild (ih hat hchanged) hchild

end Children

/-- The branch that an optional block does not select. -/
def elided (taken : Bool) : Nat := if taken then 1 else 0

/-- Whatever stands in the branch that is not selected, the run is the same. -/
theorem interchanges_elided {b : Span} {condition : Expr} {body : Stmt}
    {otherwise : Option Stmt} {taken : Bool}
    (htaken : condition.evaluateCondition p.lookup = .ok taken) (other : Stmt) :
    p.Interchanges (.optional b condition body otherwise)
      ((Stmt.optional b condition body otherwise).setChild (elided taken) other) := by
  cases taken with
  | false =>
      apply interchanges_optional
      intro taken htaken'
      obtain rfl : false = taken := Except.ok.inj (htaken.symm.trans htaken')
      rfl
  | true =>
      apply interchanges_optional
      intro taken htaken'
      obtain rfl : true = taken := Except.ok.inj (htaken.symm.trans htaken')
      rfl

/-- The values of a permutation are those of the first declarations. -/
theorem of_congr {s : Specializer} {tree tree' : Stmt}
    (h : ∀ n, declaration? tree'.declaredOptions n = declaration? tree.declaredOptions n)
    (hp : Permutation.of s tree = .ok p) :
    ∃ q, Permutation.of s tree' = .ok q ∧ q.config = p.config ∧ ∀ n, q.value? n = p.value? n := by
  have hcoerce : coerceBinding tree'.declaredOptions = coerceBinding tree.declaredOptions := by
    funext binding
    rw [coerceBinding, coerceBinding, h]
  obtain ⟨bound, hbound, hp⟩ := Except.bind_eq_ok_iff.mp hp
  cases hp
  refine ⟨⟨bound, tree'.declaredOptions, s.config⟩, ?_, rfl, ?_⟩
  · unfold Permutation.of
    dsimp only
    rw [hcoerce, hbound]
    rfl
  · intro n
    simp only [value?, h]

end Permutation

namespace Specializer

open Permutation

/-- The branch that an optional block does not select gives nothing but declarations of
options. Emptied, it leaves the run of the permutation as it is, and if every option keeps its
first declaration, also the permutation. -/
theorem elided_contributes {s : Specializer} {tree tree' : Stmt} {p : Permutation}
    {path : List Nat} {b empty : Span} {condition : Expr} {body : Stmt} {otherwise : Option Stmt}
    {taken : Bool} (hp : Permutation.of s tree = .ok p)
    (hat : tree.at? path = some (.optional b condition body otherwise))
    (htaken : condition.evaluateCondition p.lookup = .ok taken)
    (hreplace : tree.replaceAt? (path ++ [elided taken]) (.block empty []) = some tree') :
    p.stmt tree' = p.stmt tree ∧
      ((∀ n, declaration? tree'.declaredOptions n = declaration? tree.declaredOptions n) →
        s.process tree' = s.process tree) := by
  have hrun : p.stmt tree' = p.stmt tree := by
    have hchild : p.Interchanges (.optional b condition body otherwise)
        ((Stmt.optional b condition body otherwise).setChild (elided taken) (.block empty [])) :=
      interchanges_elided htaken _
    exact (interchanges_replaceAt? hchild hat hreplace).stmt
  constructor
  · exact hrun
  · intro hdeclared
    obtain ⟨q, hq, hconfig, hvalues⟩ := of_congr hdeclared hp
    have hstmt : q.stmt tree' = p.stmt tree := by
      rw [← hrun]
      apply stmt_congr
      · rw [hconfig]
      · intro n _
        exact hvalues n
    rw [process, process, hq, hp, Except.ok_bind, Except.ok_bind, hstmt]

/-- `option { bool S; } void f() { optional (S) { } else { int b = S; } }` -/
def alternativeTokens : List Token :=
  [.keyword .option, .symbol .lbrace, .ident "bool", .ident "S", .symbol .semicolon,
    .symbol .rbrace, .ident "void", .ident "f", .symbol .lparen, .symbol .rparen,
    .symbol .lbrace, .keyword .optional, .symbol .lparen, .ident "S", .symbol .rparen,
    .symbol .lbrace, .symbol .rbrace, .keyword .else, .symbol .lbrace, .ident "int", .ident "b",
    .symbol .eq, .ident "S", .symbol .semicolon, .symbol .rbrace, .symbol .rbrace,
    .eof].map fun k => ⟨k, Span.dummy, Position.nowhere⟩

/-- Their tree, with the statements of the alternative left open. -/
def alternativeTree (items : List Stmt) : Stmt :=
  .block Span.dummy [.options Span.dummy [⟨"S", .prim .bool, none, Span.dummy⟩],
    .function Span.dummy ⟨"f", [], .void, none⟩
      [.optional Span.dummy (.ref Span.dummy "S") (.block Span.dummy [])
        (some (.block Span.dummy items))]]

/-- The theorem of the elided branch applies to a file with an alternative. -/
theorem alternative_contributes :
    ∃ tree p, parseTokens alternativeTokens Registry.standard = .ok tree ∧
      Permutation.of ⟨[("S", .bool true)], ⟨false, false⟩, .newest⟩ tree = .ok p ∧
      tree.at? [1, 0] = some (.optional Span.dummy (.ref Span.dummy "S") (.block Span.dummy [])
        (some (.block Span.dummy [.var Span.dummy
          ⟨"b", .prim .int, false, some (.ref Span.dummy "S")⟩]))) ∧
      (Expr.ref Span.dummy "S").evaluateCondition p.lookup = .ok true ∧
      tree.replaceAt? ([1, 0] ++ [elided true]) (.block Span.dummy []) =
        some (alternativeTree []) ∧
      p.stmt (alternativeTree []) = p.stmt tree ∧
      Specializer.process ⟨[("S", .bool true)], ⟨false, false⟩, .newest⟩ (alternativeTree []) =
        Specializer.process ⟨[("S", .bool true)], ⟨false, false⟩, .newest⟩ tree := by
  obtain ⟨tree, p, hparse, hp, hat, htaken, hreplace, hdeclared⟩ :
      ∃ tree p, parseTokens alternativeTokens Registry.standard = .ok tree ∧
        Permutation.of ⟨[("S", .bool true)], ⟨false, false⟩, .newest⟩ tree = .ok p ∧
        tree.at? [1, 0] = some (.optional Span.dummy (.ref Span.dummy "S") (.block Span.dummy [])
          (some (.block Span.dummy [.var Span.dummy
            ⟨"b", .prim .int, false, some (.ref Span.dummy "S")⟩]))) ∧
        (Expr.ref Span.dummy "S").evaluateCondition p.lookup = .ok true ∧
        tree.replaceAt? ([1, 0] ++ [elided true]) (.block Span.dummy []) =
          some (alternativeTree []) ∧
        (alternativeTree []).declaredOptions = tree.declaredOptions :=
    ⟨alternativeTree [.var Span.dummy ⟨"b", .prim .int, false, some (.ref Span.dummy "S")⟩], _,
      rfl, rfl, rfl, rfl, rfl, rfl⟩
  have hsame := elided_contributes hp hat htaken hreplace
  have hprocess := hsame.2 fun n => by rw [hdeclared]
  exact ⟨tree, p, hparse, hp, hat, htaken, hreplace, hsame.1, hprocess⟩

/-- `optional (false) { option { float S; } } float x = S;` -/
def undeclaredTokens : List Token :=
  [.keyword .optional, .symbol .lparen, .keyword .false, .symbol .rparen, .symbol .lbrace,
    .keyword .option, .symbol .lbrace, .ident "float", .ident "S", .symbol .semicolon,
    .symbol .rbrace, .symbol .rbrace, .ident "float", .ident "x", .symbol .eq, .ident "S",
    .symbol .semicolon, .eof].map fun k => ⟨k, Span.dummy, Position.nowhere⟩

/-- Their tree, with the statements of the optional block left open. -/
def undeclaredTree (items : List Stmt) : Stmt :=
  .block Span.dummy [.optional Span.dummy (.constant Span.dummy (.bool false))
    (.block Span.dummy items) none,
    .var Span.dummy ⟨"x", .prim .float, false, some (.ref Span.dummy "S")⟩]

/-- The first declaration of an option stands in a branch that is not selected. Without it the
bound integer is no float. -/
theorem undeclared_elided :
    ∃ tree p out out', parseTokens undeclaredTokens Registry.standard = .ok tree ∧
      Permutation.of ⟨[("S", .int 1)], ⟨false, false⟩, .newest⟩ tree = .ok p ∧
      tree.at? [0] = some (.optional Span.dummy (.constant Span.dummy (.bool false))
        (.block Span.dummy [.options Span.dummy [⟨"S", .prim .float, none, Span.dummy⟩]]) none) ∧
      (Expr.constant Span.dummy (.bool false)).evaluateCondition p.lookup = .ok false ∧
      tree.replaceAt? ([0] ++ [elided false]) (.block Span.dummy []) = some (undeclaredTree []) ∧
      Specializer.process ⟨[("S", .int 1)], ⟨false, false⟩, .newest⟩ tree = .ok out ∧
      Specializer.process ⟨[("S", .int 1)], ⟨false, false⟩, .newest⟩ (undeclaredTree []) =
        .ok out' ∧
      out ≠ out' := by
  refine ⟨undeclaredTree [.options Span.dummy [⟨"S", .prim .float, none, Span.dummy⟩]], _,
    .block Span.dummy [.var Span.dummy ⟨"x", .prim .float, false,
      some (.constant Span.dummy (.float (Binary32.ofInt 1)))⟩],
    .block Span.dummy [.var Span.dummy ⟨"x", .prim .float, false,
      some (.constant Span.dummy (.int 1))⟩],
    rfl, rfl, rfl, rfl, rfl, rfl, rfl, ?_⟩
  simp

end Specializer

end Shading
