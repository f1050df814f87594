import Shading.Proofs.Options.Scoping
import Shading.Proofs.Parse.Placed

/-!
# What survives specialization

No optional block survives, and no option block unless these are kept. A reference to an
option with a value survives exactly where the scopes of the specializer and those of its
result differ about the name.
-/

namespace Shading

namespace Permutation

/-- The names that the specializer takes for local where its result does not. -/
def strays (p : Permutation) (tree : Stmt) : List String :=
  (Tracker.start.stmt p false tree).strays

/-- Of the options with a value the result mentions exactly the strays. -/
theorem mem_mentioned_iff {p : Permutation} {tree out : Stmt} {scopes : Scopes}
    (hrun : p.stmt tree [] = .ok (out, scopes)) {n : String} {v : Constant}
    (hv : p.value? n = .ok (some v)) (externals : List String) :
    n ∈ ((Collector.new externals).stmt out).mentioned ↔ n ∈ p.strays tree := by
  have hstart : Agrees n False Tracker.start [] (Collector.new externals) := by
    refine ⟨rfl, rfl, ?_⟩
    simp [Tracker.start, Collector.new, Collector.mentioned, Dependencies.empty, Uses.names]
  rw [(agrees_stmt hv tree hstart hrun).mem_iff, or_false]
  rfl

end Permutation

namespace Specializer

/-- A result comes from a permutation and a run without open scopes. -/
theorem of_process {s : Specializer} {tree out : Stmt} (h : s.process tree = .ok out) :
    ∃ p scopes, Permutation.of s tree = .ok p ∧ p.config = s.config ∧
      p.stmt tree [] = .ok (out, scopes) := by
  obtain ⟨p, hp, h⟩ := Except.bind_eq_ok_iff.mp h
  obtain ⟨⟨out', scopes⟩, hrun, h⟩ := Except.bind_eq_ok_iff.mp h
  cases h
  obtain ⟨bound, _, hof⟩ := Except.bind_eq_ok_iff.mp hp
  cases hof
  exact ⟨_, scopes, hp, rfl, hrun⟩

/-- A specialized file has no optional block, and no option block unless these are kept.
It is free of references to options with a value exactly when none of them is a stray. -/
theorem process_survivors {tokens : List Token} {registry : Registry} {tree out : Stmt}
    {s : Specializer} (hparse : parseTokens tokens registry = .ok tree)
    (hrun : s.process tree = .ok out) :
    (∀ b condition body otherwise,
      Node.stmt (.optional b condition body otherwise) ∉ out.nodes) ∧
    (s.config.keepOptions = false → ∀ b entries, Node.stmt (.options b entries) ∉ out.nodes) ∧
    ∃ p, Permutation.of s tree = .ok p ∧
      ((∀ externals, ∀ n ∈ ((Collector.new externals).stmt out).mentioned,
          ∀ v, p.value? n ≠ .ok (some v)) ↔
        ∀ n ∈ p.strays tree, ∀ v, p.value? n ≠ .ok (some v)) := by
  obtain ⟨p, scopes, hp, hconfig, hstmt⟩ := of_process hrun
  have hleft : p.NoneLeft out.nodes :=
    Permutation.noneLeft_stmt tree (fun _ => optionsListed_of_parseTokens hparse) hstmt
  refine ⟨fun b condition body otherwise hmem => hleft _ hmem trivial, ?_, p, hp, ?_⟩
  · intro hkeep b entries hmem
    rw [← hconfig] at hkeep
    exact hleft _ hmem hkeep
  · constructor
    · intro h n hn v hv
      exact h [] n ((Permutation.mem_mentioned_iff hstmt hv []).mpr hn) v hv
    · intro h externals n hn v hv
      exact h n ((Permutation.mem_mentioned_iff hstmt hv externals).mp hn) v hv

/-- `option { bool S; } void f() { do bool S = false; while (S); }` -/
def loopTokens : List Token :=
  [.keyword .option, .symbol .lbrace, .ident "bool", .ident "S", .symbol .semicolon,
    .symbol .rbrace, .ident "void", .ident "f", .symbol .lparen, .symbol .rparen,
    .symbol .lbrace, .keyword .do, .ident "bool", .ident "S", .symbol .eq, .keyword .false,
    .symbol .semicolon, .keyword .while, .symbol .lparen, .ident "S", .symbol .rparen,
    .symbol .semicolon, .symbol .rbrace, .eof].map fun k => ⟨k, Span.dummy, Position.nowhere⟩

/-- The local of the body does not hide the option in the condition, where a reference survives. -/
theorem loop_survivors :
    ∃ tree out p, parseTokens loopTokens Registry.standard = .ok tree ∧
      Specializer.process ⟨[("S", .bool true)], ⟨false, false⟩, .newest⟩ tree = .ok out ∧
      (∀ b condition body otherwise,
        Node.stmt (.optional b condition body otherwise) ∉ out.nodes) ∧
      Permutation.of ⟨[("S", .bool true)], ⟨false, false⟩, .newest⟩ tree = .ok p ∧
      "S" ∈ ((Collector.new []).stmt out).mentioned ∧ "S" ∈ p.strays tree ∧
      p.value? "S" = .ok (some (.bool true)) := by
  obtain ⟨tree, out, p, hparse, hrun, hp, hmentioned, hstrays, hvalue⟩ :
      ∃ tree out p, parseTokens loopTokens Registry.standard = .ok tree ∧
        Specializer.process ⟨[("S", .bool true)], ⟨false, false⟩, .newest⟩ tree = .ok out ∧
        Permutation.of ⟨[("S", .bool true)], ⟨false, false⟩, .newest⟩ tree = .ok p ∧
        ((Collector.new []).stmt out).mentioned = ["S"] ∧ p.strays tree = ["S"] ∧
        p.value? "S" = .ok (some (.bool true)) :=
    ⟨_, _, _, rfl, rfl, rfl, rfl, rfl, rfl⟩
  exact ⟨tree, out, p, hparse, hrun, (process_survivors hparse hrun).1, hp,
    by rw [hmentioned]; exact List.mem_singleton_self _,
    by rw [hstrays]; exact List.mem_singleton_self _, hvalue⟩

end Specializer

end Shading
