import Shading.Proofs.Parse.ItemReads
import Shading.Proofs.Print.Legible
import Shading.Proofs.Token.Misreading
import Shading.Proofs.Token.Spellable

/-!
# Source text that is read back

The source text of a file that was read spells the tokens of its tree. It is read back as the
tree, places apart, if and only if no number among the tokens is too large for a literal and
none stands right before a point: then the lexer gives the tokens back, and otherwise it fails
or takes a point for a part of a number, so that the tree has fewer members or library parts.
-/

namespace Shading

open Lexer (Faultless)
open Parse

section Erased

theorem Expr.kindsAfter_erased (lead : List Kind) (e : Option Expr) :
    Expr.kindsAfter lead (e.map Expr.erased) = Expr.kindsAfter lead e := by
  cases e with
  | none => rfl
  | some e => simp only [Option.map_some, Expr.kindsAfter, Expr.kinds_erased]

theorem VariableDeclaration.kinds_erased (d : VariableDeclaration) : d.erased.kinds = d.kinds := by
  simp only [VariableDeclaration.erased, VariableDeclaration.kinds, Expr.kindsAfter_erased]
  rfl

theorem OptionDeclaration.kinds_erased (d : OptionDeclaration) : d.erased.kinds = d.kinds := by
  simp only [OptionDeclaration.erased, OptionDeclaration.kinds, Expr.kindsAfter_erased]

theorem ConstDeclaration.kinds_erased (d : ConstDeclaration) : d.erased.kinds = d.kinds := by
  simp only [ConstDeclaration.erased, ConstDeclaration.kinds, Expr.kinds_erased]

theorem Signature.kinds_erased (f : Signature) : f.erased.kinds = f.kinds := by
  simp only [Signature.erased, Signature.kinds, List.map_map]
  rfl

end Erased

namespace Stmt

mutual

/-- The tokens of a statement do not depend on its places. -/
theorem kinds_eraseSpans (s : Stmt) : s.eraseSpans.kinds = s.kinds := by
  cases s with
  | branch p arms o =>
      simp only [erased_branch, kinds, kindsArms_eraseSpans _ arms, kindsElse_eraseSpans o]
  | forLoop p init condition step b =>
      simp only [erased_forLoop, kinds, kindsInit_eraseSpans init, Expr.kindsAfter_erased,
        kinds_eraseSpans b]
  | whileLoop p c b => simp only [erased_whileLoop, kinds, Expr.kinds_erased, kinds_eraseSpans b]
  | doWhile p b c => simp only [erased_doWhile, kinds, Expr.kinds_erased, kinds_eraseSpans b]
  | var p d => simp only [erased_var, kinds, VariableDeclaration.kinds_erased]
  | struct p d => simp only [erased_struct, kinds]
  | inputs p vs | outputs p vs | externals p vs =>
      simp only [erased_inputs, erased_outputs, erased_externals, kinds, List.flatMap_map]
      rfl
  | options p ds => simp only [erased_options, kinds, List.flatMap_map,
        OptionDeclaration.kinds_erased]
  | consts p ds => simp only [erased_consts, kinds, List.flatMap_map, ConstDeclaration.kinds_erased]
  | function p f body =>
      simp only [erased_function, kinds, Signature.kinds_erased, kindsList_eraseSpans body]
  | expr p e => simp only [erased_expr, kinds, Expr.kinds_erased]
  | ret p value => simp only [erased_ret, kinds, Expr.kindsAfter_erased]
  | leaveLoop _ | nextRound _ | discard _ | library _ _ => rfl
  | block p items => simp only [erased_block, kinds, kindsList_eraseSpans items]
  | optional p c b o =>
      simp only [erased_optional, kinds, Expr.kinds_erased, kinds_eraseSpans b,
        kindsElse_eraseSpans o]

theorem kindsList_eraseSpans (ss : List Stmt) : kindsList (ss.map eraseSpans) = kindsList ss := by
  cases ss with
  | nil => rfl
  | cons s ss => simp only [List.map_cons, kindsList, kinds_eraseSpans s, kindsList_eraseSpans ss]

theorem kindsArms_eraseSpans (lead : List Kind) (arms : List (Expr × Stmt)) :
    kindsArms lead (arms.map erasedArm) = kindsArms lead arms := by
  match arms with
  | [] => rfl
  | (c, s) :: arms =>
      simp only [List.map_cons, erasedArm, kindsArms, Expr.kinds_erased, kinds_eraseSpans s,
        kindsArms_eraseSpans _ arms]

theorem kindsElse_eraseSpans (o : Option Stmt) : kindsElse (o.map eraseSpans) = kindsElse o := by
  cases o with
  | none => rfl
  | some s => simp only [Option.map_some, kindsElse, kinds_eraseSpans s]

theorem kindsInit_eraseSpans (o : Option Stmt) : kindsInit (o.map eraseSpans) = kindsInit o := by
  cases o with
  | none => rfl
  | some s => simp only [Option.map_some, kindsInit, kinds_eraseSpans s]

end

theorem kindsList_eq_of_eraseSpans {p q : Span} {items items' : List Stmt}
    (h : (block p items).eraseSpans = (block q items').eraseSpans) :
    kindsList items = kindsList items' := by
  simp only [erased_block, block.injEq, true_and] at h
  rw [← kindsList_eraseSpans items, h, kindsList_eraseSpans]

end Stmt

open Stmt (Legible kindsList)

/-- Tokens with the same marks are read with the same names of types. -/
theorem Names.ofTokens_eq {registry : Registry} {ts us : List Token} {ks ls : List Kind}
    (hts : ts.map Token.kind = ks ++ [.eof]) (hus : us.map Token.kind = ls ++ [.eof])
    (h : Agree ks ls) : Names.ofTokens registry ts = Names.ofTokens registry us := by
  have hmarks : marks (ts.map Token.kind) = marks (us.map Token.kind) := by
    rw [hts, hus]
    exact (h.concat rfl).marks_eq
  simp only [Names.ofTokens, structNames_eq, hmarks]

theorem Parse.Agree.count_dot_eq {ks ls : List Kind} (h : Agree ks ls) :
    ks.count (.symbol .dot) = ls.count (.symbol .dot) := by
  rw [Parse.count_dot_eq ks, h.marks_eq, ← Parse.count_dot_eq ls]

theorem parseSource_eq_ok_iff {source : String} {registry : Registry} {tree : Stmt} :
    parseSource source registry = .ok tree ↔
      ∃ ts, tokenize source = .ok ts ∧ parseTokens ts registry = .ok tree := by
  unfold parseSource
  cases tokenize source <;> simp

/-- The tokens of legible declarations, read with the names that they are legible with, give
the declarations back. -/
theorem parseTokens_of_legible {registry : Registry} {ts : List Token} {items : List Stmt}
    (hts : ts.map Token.kind = kindsList items ++ [.eof])
    (hitems : ∀ i ∈ items, Legible (Names.ofTokens registry ts) .file i) :
    ∃ tree, parseTokens ts registry = .ok tree ∧
      tree.eraseSpans = .block .dummy (items.map Stmt.eraseSpans) := by
  have hfuel : (kindsList items).length ≤ ts.length + 4 := by
    have hlength := congrArg List.length hts
    simp only [List.length_map, List.length_append] at hlength
    omega
  obtain ⟨tree, c, hrun, -, htree⟩ := reads_file hitems hfuel (Cursor.ofTokens ts) hts
  refine ⟨tree, ?_, htree⟩
  rw [parseTokens, hrun]
  rfl

/-- A file that is read has a source text. The text is read back as the file, places apart, if
and only if no number in it is too large for a literal and none runs into a point. -/
theorem sourceText_readsBack_iff {source : String} {tree : Stmt}
    (h : parseSource source Registry.standard = .ok tree) :
    ∃ text, tree.sourceText = .ok text ∧
      ((∃ tree', parseSource text Registry.standard = .ok tree' ∧
        tree'.eraseSpans = tree.eraseSpans) ↔ Faultless tree.fileKinds) := by
  obtain ⟨tokens, htokens, hparse⟩ := parseSource_eq_ok_iff.mp h
  obtain ⟨ks, hks, hwritable⟩ := spellable_tokenize htokens
  obtain ⟨p, items, rfl, hitems, hagree⟩ := legible_of_parseTokens hks hwritable hparse
  obtain ⟨text, htext, hspells⟩ : ∃ text, (Stmt.block p items).sourceText = .ok text ∧
      Lexer.Spells [] text.toList (kindsList items) :=
    Legible.spells_sourceText hitems
  refine ⟨text, htext, ?_, fun hfaultless => ?_⟩
  · rintro ⟨tree', h', heq⟩
    obtain ⟨ts, hts, hparse'⟩ := parseSource_eq_ok_iff.mp h'
    obtain ⟨ls, hls, hwritable'⟩ := spellable_tokenize hts
    obtain ⟨q, items', rfl, -, hagree'⟩ := legible_of_parseTokens hls hwritable' hparse'
    -- The tree that is read back has the points of the first one, so the text was read with
    -- all of its points.
    have hcount : (ts.map Token.kind).count (.symbol .dot)
        = (kindsList items).count (.symbol .dot) := by
      calc (ts.map Token.kind).count (.symbol .dot)
          = ls.count (.symbol .dot) := by simp [hls]
        _ = (kindsList items').count (.symbol .dot) := hagree'.count_dot_eq
        _ = (kindsList items).count (.symbol .dot) := by
            rw [Stmt.kindsList_eq_of_eraseSpans heq]
    by_contra hfault
    have hless := (Lexer.count_dot_of_scan hspells (Nat.le_refl _) hts).2 hfault
    exact absurd hcount (Nat.ne_of_lt hless)
  · obtain ⟨ts, hts, hkinds⟩ :=
      Lexer.scan_of_spells hspells hfaultless _ (Nat.le_refl _) 0 Position.origin
    have hnames : Names.ofTokens Registry.standard tokens = Names.ofTokens Registry.standard ts :=
      Names.ofTokens_eq hks hkinds hagree
    obtain ⟨tree', hparse', htree'⟩ := parseTokens_of_legible hkinds (hnames ▸ hitems)
    refine ⟨tree', parseSource_eq_ok_iff.mpr ⟨ts, hts, hparse'⟩, ?_⟩
    rw [htree', Stmt.erased_block]

theorem exists_tree_of_fileKinds {source : String} {registry : Registry} {ks : List Kind}
    (h : (parseSource source registry).toOption.map Stmt.fileKinds = some ks) :
    ∃ tree, parseSource source registry = .ok tree ∧ tree.fileKinds = ks := by
  cases hparse : parseSource source registry with
  | error e =>
      rw [hparse] at h
      cases h
  | ok tree =>
      rw [hparse] at h
      exact ⟨tree, rfl, Option.some.inj h⟩

/-- A small size is read back. A size that needs its letter is not, as it is printed without
it, and neither is the member of a number, whose parentheses are not printed. -/
theorem numbers_readBack :
    (∃ tree text tree', parseSource "float[2] x;" Registry.standard = .ok tree ∧
      tree.sourceText = .ok text ∧ parseSource text Registry.standard = .ok tree' ∧
      tree'.eraseSpans = tree.eraseSpans) ∧
    ∀ source ∈ ["float[4294967295u] x;", "void f() \x7b int a = (1).x; \x7d"],
      ∃ tree text, parseSource source Registry.standard = .ok tree ∧
        tree.sourceText = .ok text ∧ ∀ tree', parseSource text Registry.standard = .ok tree' →
          tree'.eraseSpans ≠ tree.eraseSpans := by
  have hfails (source : String) (ks : List Kind) (hks : ¬Faultless ks)
      (h : (parseSource source Registry.standard).toOption.map Stmt.fileKinds = some ks) :
      ∃ tree text, parseSource source Registry.standard = .ok tree ∧
        tree.sourceText = .ok text ∧ ∀ tree', parseSource text Registry.standard = .ok tree' →
          tree'.eraseSpans ≠ tree.eraseSpans := by
    obtain ⟨tree, hparse, rfl⟩ := exists_tree_of_fileKinds h
    obtain ⟨text, htext, hiff⟩ := sourceText_readsBack_iff hparse
    exact ⟨tree, text, hparse, htext, fun tree' h' heq => hks (hiff.mp ⟨tree', h', heq⟩)⟩
  refine ⟨?_, ?_⟩
  · have hkinds : (parseSource "float[2] x;" Registry.standard).toOption.map Stmt.fileKinds
        = some [.ident "float", .symbol .lbracket, .int 2, .symbol .rbracket, .ident "x",
          .symbol .semicolon] := by decide +kernel
    obtain ⟨tree, hparse, hks⟩ := exists_tree_of_fileKinds hkinds
    obtain ⟨text, htext, hiff⟩ := sourceText_readsBack_iff hparse
    obtain ⟨tree', hparse', heq⟩ := hiff.mpr (by rw [hks]; decide)
    exact ⟨tree, text, tree', hparse, htext, hparse', heq⟩
  · intro source hsource
    simp only [List.mem_cons, List.not_mem_nil, or_false] at hsource
    rcases hsource with rfl | rfl
    · exact hfails _ [.ident "float", .symbol .lbracket, .int 4294967295, .symbol .rbracket,
        .ident "x", .symbol .semicolon] (by decide) (by decide +kernel)
    · exact hfails _ [.ident "void", .ident "f", .symbol .lparen, .symbol .rparen,
        .symbol .lbrace, .ident "int", .ident "a", .symbol .eq, .int 1, .symbol .dot, .ident "x",
        .symbol .semicolon, .symbol .rbrace] (by decide) (by decide +kernel)

end Shading
