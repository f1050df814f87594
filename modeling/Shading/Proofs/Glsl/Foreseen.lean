import Shading.Proofs.Extract.Presents
import Shading.Proofs.Glsl.Calls
import Shading.Proofs.Glsl.Declarations
import Shading.Proofs.Print.Refusals
import Shading.Session

/-!
# What an extracted stage is refused for

A tree of which a stage was extracted holds everything in its place, one entry of the stage,
the structs of its externals and no two externals at one place. What is left to refuse is
what a version lacks, option blocks and library directives that were kept, entries that take
or give something, and bindings that meet where descriptor sets are flattened.
-/

namespace Shading

open Stmt (Placed Place)

/-- The constructs that stand in no extracted stage. -/
def Construct.isRuledOut : Construct → Bool
  | .optionalBlock | .fileStatement | .nestedFunction | .nestedDeclaration
  | .undeclaredBuffer => true
  | _ => false

namespace Glsl

/-- The errors that an extracted stage can still meet. -/
def Foreseen (s : Settings) : CodegenError → Prop
  | .unsupported construct _ _ _ => construct.isRuledOut = false
  | .bindingConflict .. => s.usesDescriptorSets = false
  | .missingEntry _ | .ambiguousEntry .. | .assembler _ => False

theorem Settings.failsWithin_require (s : Settings) {c : Construct} (hc : c.isRuledOut = false)
    (desktop embedded : UInt32) (b : Span) :
    Except.FailsWithin (Foreseen s) (s.require c desktop embedded b) :=
  .ite (fun _ => .ok trivial) fun _ => .error hc

section Checks

variable {s : Settings} {stage : Stage} {items : List Stmt}

/-- An item that declares something has a form, or is an option block. -/
theorem isRuledOut_of_fileScopeProblem? {item : Stmt} {c : Construct}
    (h : item.isLibrary = true ∨ Extractor.declares item ≠ [])
    (hc : fileScopeProblem? item = some c) : c.isRuledOut = false := by
  cases item with
  | options | library =>
      cases hc
      rfl
  | optional | branch | forLoop | whileLoop | doWhile | expr | leaveLoop | nextRound | ret
  | discard | block => exact h.elim nofun fun hdeclares => absurd rfl hdeclares
  | _ => cases hc

/-- Items that declare something, or include a library, are foreseen at file level. -/
theorem failsWithin_checkItems
    (h : ∀ item ∈ items, item.isLibrary = true ∨ Extractor.declares item ≠ []) :
    Except.FailsWithin (Foreseen s) (checkItems s items) := by
  induction items with
  | nil => exact .ok trivial
  | cons item rest ih =>
      rw [checkItems]
      cases hc : fileScopeProblem? item with
      | none => exact ih fun t ht => h t (List.mem_cons_of_mem _ ht)
      | some c => exact .error (isRuledOut_of_fileScopeProblem? (h item List.mem_cons_self) hc)

/-- Settings pinned to a stage take the entries of the stage for candidates. -/
theorem candidates_eq_stageEntries (hs : s.stage = some stage) :
    candidates s items = items.flatMap (Stmt.stageEntries stage) := by
  have hqualifies (f : Signature) : s.qualifies f = f.isEntryFor stage := by
    rw [Settings.qualifies, Signature.isEntryFor, hs]
    cases f.entry <;> rfl
  rw [candidates, List.filterMap_eq_flatMap_toList]
  refine List.flatMap_congr fun item _ => ?_
  cases item with
  | function b f body =>
      dsimp only
      rw [Stmt.stageEntries, hqualifies]
      cases f.isEntryFor stage <;> rfl
  | _ => rfl

/-- A stage that is presented has an entry point to select. -/
theorem selectEntry_of_presents (h : Presents stage items) (hs : s.stage = some stage) :
    ∃ f, selectEntry s items = .ok f := by
  obtain ⟨f, hf⟩ := h.entry
  refine ⟨f, ?_⟩
  rw [selectEntry, candidates_eq_stageEntries hs, hf]

/-- The entry point fails within what is foreseen. -/
theorem failsWithin_checkEntry (p : Program) (b : Span) :
    Except.FailsWithin (Foreseen p.settings) (checkEntry p b) :=
  .ite (fun _ => .error rfl) fun _ => .ite (fun _ => .error rfl) fun _ =>
    .ite (fun _ => p.settings.failsWithin_require rfl ..) fun _ => .ok trivial

end Checks

section Declarations

variable {p : Program}

theorem failsWithin_builtin (p : Program) (f : BuiltinFunction) (b : Span) :
    Except.FailsWithin (Foreseen p.settings) ((dialect p).builtin f b) :=
  (p.settings.failsWithin_require rfl ..).andThen fun _ => .ok trivial

theorem failsWithin_writeGlobal (w : Writer) (g : Global) :
    Except.FailsWithin (Foreseen p.settings) (writeGlobal p w g) := by
  have hbuiltin := failsWithin_builtin p
  cases g with
  | const c => exact (Dialect.failsWithin_expr hbuiltin c.value _).andThen fun _ => .ok trivial
  | var v =>
      exact (Dialect.failsWithin_variableDeclaration hbuiltin v w).andThen fun _ => .ok trivial

/-- A function fails within what is foreseen, where its statements stand in place. -/
theorem failsWithin_writeFunction {f : Signature × List Stmt}
    (hbody : ∀ s ∈ f.2, s.Placed true .body) (w : Writer) :
    Except.FailsWithin (Foreseen p.settings) (writeFunction p w f) := by
  have hopen : ∀ s ∈ f.2, ∀ w,
      Except.FailsWithin (Foreseen p.settings) ((dialect p).openStmt s w) :=
    fun s hs => Dialect.failsWithin_openStmt (failsWithin_builtin p) (hbody s hs) rfl
  exact (Dialect.failsWithin_stmts hopen _).andThen fun _ => .ok trivial

/-- An external of which the struct is declared has a body. -/
theorem failsWithin_writeExternal {v : ExternalVariable}
    (hstruct : ∀ n, v.type.structName? = some n → (p.struct? n).isSome) (binding : Option String)
    (w : Writer) : Except.FailsWithin (Foreseen p.settings) (writeExternal p v binding w) := by
  have hbuffer (hname : v.type.structName?.isSome) (header : String) :
      Except.FailsWithin (Foreseen p.settings) (writeExternal.buffer p v w header) := by
    obtain ⟨n, hn⟩ := Option.isSome_iff_exists.mp hname
    obtain ⟨t, ht⟩ := Option.isSome_iff_exists.mp (hstruct n hn)
    rw [writeExternal.buffer, hn, Option.bind_some, ht]
    exact .ok trivial
  unfold writeExternal Resource.of
  dsimp only
  by_cases hsampler : v.type.isSampler = true
  · rw [if_pos hsampler]
    exact .ok trivial
  · rw [if_neg hsampler]
    by_cases hname : v.type.structName?.isSome = true
    · rw [if_pos hname]
      cases v.storage with
      | true => exact (p.settings.failsWithin_require rfl ..).andThen fun _ => hbuffer hname _
      | false => exact (p.settings.failsWithin_require rfl ..).andThen fun _ => hbuffer hname _
    · rw [if_neg hname]
      exact .ite (fun _ => (p.settings.failsWithin_require rfl ..).andThen fun _ => .ok trivial)
        fun _ => .ok trivial

/-- The places that a declaration asks for. -/
def Declaration.keys (s : Settings) : Declaration → List (Nat × Nat)
  | .external v => [bindingKey s v]
  | _ => []

/-- Declarations that can be written after what was written: they name structs that are
declared, hold bodies with statements only, and ask for places that are free. -/
structure Ready (p : Program) (ds : List Declaration) (s : Progress) : Prop where
  structs : ∀ v, .external v ∈ ds → ∀ n, v.type.structName? = some n → (p.struct? n).isSome
  bodies : ∀ f, .function f ∈ ds → ∀ t ∈ f.2, t.Placed true .body
  free : p.settings.usesDescriptorSets = true →
    (s.taken.map (·.1) ++ ds.flatMap (Declaration.keys p.settings)).Nodup

/-- An external is placed where it asks to be, if at all. With descriptor sets that place
must be taken for the external to be refused. -/
theorem ends_place {s : Settings} {taken : Taken} {v : ExternalVariable}
    (h : s.usesDescriptorSets = true → bindingKey s v ∉ taken.map (·.1)) :
    Except.Ends (Foreseen s) (fun out => out.2 = taken ∨ out.2 = (bindingKey s v, v) :: taken)
      (place s taken v) := by
  unfold place
  refine .ite (fun _ => ?_) fun _ => .ok (.inl rfl)
  cases hlookup : taken.lookup (bindingKey s v) with
  | none =>
      simp only [hlookup]
      exact .ok (.inr rfl)
  | some first =>
      obtain ⟨before, after, hsplit, _⟩ := List.lookup_eq_some_iff.mp hlookup
      have hmem : bindingKey s v ∈ taken.map (·.1) := by simp [hsplit]
      simp only [hlookup]
      exact .error (Bool.eq_false_iff.mpr fun hsets => h hsets hmem)

/-- Writing a declaration leaves the next ones ready, or fails with a foreseen error. -/
theorem ready_writeDeclaration {d : Declaration} {ds : List Declaration} {s : Progress}
    (h : Ready p (d :: ds) s) :
    Except.Ends (Foreseen p.settings) (Ready p ds) (writeDeclaration p s d) := by
  have hnext {t : Progress} (ht : t.taken = s.taken) : Ready p ds t := {
    structs := fun v hv => h.structs v (List.mem_cons_of_mem _ hv)
    bodies := fun f hf => h.bodies f (List.mem_cons_of_mem _ hf)
    free := fun hsets => by
      have hfree := h.free hsets
      rw [List.flatMap_cons] at hfree
      rw [ht]
      exact hfree.sublist ((List.sublist_append_right _ _).append_left _) }
  cases d with
  | struct t => exact .ok (hnext rfl)
  | interface v location isOutput =>
      exact (p.settings.failsWithin_require rfl ..).andThen fun _ => .ok (hnext rfl)
  | global g => exact (failsWithin_writeGlobal _ g).andThen fun _ => .ok (hnext rfl)
  | function f =>
      exact (failsWithin_writeFunction (h.bodies f List.mem_cons_self) _).andThen fun _ =>
        .ok (hnext rfl)
  | external v =>
      have hfree (hsets : p.settings.usesDescriptorSets = true) :
          (bindingKey p.settings v :: (s.taken.map (·.1) ++
            ds.flatMap (Declaration.keys p.settings))).Nodup :=
        List.perm_middle.nodup (h.free hsets)
      have hplace : p.settings.usesDescriptorSets = true →
          bindingKey p.settings v ∉ s.taken.map (·.1) := fun hsets hmem =>
        (List.nodup_cons.mp (hfree hsets)).1 (List.mem_append_left _ hmem)
      refine (ends_place hplace).bind fun out hout => ?_
      refine (failsWithin_writeExternal (h.structs v List.mem_cons_self) _ _).andThen fun _ => ?_
      rcases hout with htaken | htaken
      · exact .ok (hnext htaken)
      · refine .ok { hnext (t := s) rfl with free := fun hsets => ?_ }
        dsimp only
        rw [htaken]
        exact hfree hsets

/-- A structure among the items is found by its name. -/
theorem isSome_struct? {n : String} (h : ∃ d ∈ p.items.flatMap Stmt.structEntries, d.name = n) :
    (p.struct? n).isSome := by
  obtain ⟨d, hd, rfl⟩ := h
  obtain ⟨item, hitem, hd⟩ := List.mem_flatMap.mp hd
  rw [Program.struct?, List.findSome?_isSome_iff]
  refine ⟨item, hitem, ?_⟩
  cases item with
  | struct b t =>
      cases List.mem_singleton.mp hd
      simp
  | _ => cases hd

theorem externals_eq_externalEntries (p : Program) :
    p.externals = p.items.flatMap Stmt.externalEntries :=
  List.flatMap_congr fun item _ => by cases item <;> rfl

/-- The declarations of a stage are ready to be written. -/
theorem ready_declarations {stage : Stage} (h : Presents stage p.items) :
    Ready p p.declarations (Progress.start p) where
  structs v hv n hn := by
    have hexternal : v ∈ p.items.flatMap Stmt.externalEntries := by
      rw [← externals_eq_externalEntries]
      simpa [Program.declarations] using hv
    exact isSome_struct? (h.structs v hexternal n hn)
  bodies f hf := by
    have hfunction : f ∈ p.functions := by
      simpa [Program.declarations, p.orderedFunctions_perm.mem_iff] using hf
    obtain ⟨b, hitem⟩ := mem_items_of_mem_functions hfunction
    exact h.bodies b f.1 f.2 hitem
  free hsets := by
    have hnone {α : Type} (l : List α) : l.flatMap (fun _ => ([] : List (Nat × Nat))) = [] :=
      List.flatMap_eq_nil_iff.mpr fun _ _ => rfl
    have hkeys : p.declarations.flatMap (Declaration.keys p.settings) =
        p.externals.map fun v => (v.set, v.binding) := by
      simp only [Program.declarations, List.flatMap_append, List.flatMap_map, Declaration.keys,
        hnone, bindingKey, if_pos hsets, List.nil_append, List.append_nil]
      exact List.map_eq_flatMap.symm
    rw [hkeys, externals_eq_externalEntries]
    exact h.places

end Declarations

/-- What presents a stage is refused for foreseen reasons only. -/
theorem failsWithin_render {s : Settings} {stage : Stage} {tree : Stmt}
    (h : Presents stage tree.items) (hs : s.stage = some stage) :
    Except.FailsWithin (Foreseen s) (render s tree) := by
  obtain ⟨f, hf⟩ := selectEntry_of_presents h hs
  have hprogram : Except.Ends (Foreseen s) (fun p => p.settings = s ∧ p.items = tree.items)
      (program s tree) := by
    rw [program, hf]
    exact (failsWithin_checkItems h.declares).andThen fun _ =>
      (failsWithin_checkEntry ⟨s, f.1, _, tree.items⟩ f.2).andThen fun _ => .ok ⟨rfl, rfl⟩
  refine hprogram.bind fun p hp => ?_
  obtain ⟨rfl, hitems⟩ := hp
  rw [text_eq_declarations]
  exact (Except.Ends.foldlM (fun _ _ _ => ready_writeDeclaration) _
    (ready_declarations (hitems ▸ h))).bind fun _ _ => .ok trivial

end Glsl

/-- A file that is read has its statements in place. -/
theorem Compiler.placed_readTokens {c : Compiler} {tokens : List Token} {file : Stmt}
    (h : c.readTokens tokens = .ok file) : file.Placed false .file := by
  rw [Compiler.readTokens] at h
  split at h
  · obtain ⟨_, _, hparse⟩ := Except.bind_eq_ok_iff.mp h
    exact placed_of_parseTokens hparse
  · exact placed_of_parseTokens h

namespace Glsl

/-- Settings pinned to a stage that was extracted from a permutation of a file. Its text is
generated, or there is a foreseen reason that it is not: never the entry, never a statement
out of its place, never a struct that is missing, and with descriptor sets never a binding. -/
theorem foreseen_of_render {c : Compiler} {tokens : List Token} {file tree : Stmt}
    {z : Specializer} {stage : Stage} {out : ExtractedStage} {s : Settings} {e : CodegenError}
    (hparse : c.readTokens tokens = .ok file) (hprocess : z.process file = .ok tree)
    (hextract : extractStage tree stage = .ok out) (hs : s.stage = some stage)
    (herror : render s out.tree = .error e) : Foreseen s e := by
  have hplaced : tree.Placed true .file :=
    Specializer.placed_process (Compiler.placed_readTokens hparse) hprocess
  exact (failsWithin_render (Extractor.presents_of_extractStage hplaced hextract) hs).of_error
    herror

/-- `option { bool S; }
external { [set(0), binding(16)] sampler2D a; [set(1), binding(0)] sampler2D b; }
void g() { b; } [entry(fragment)] void main() { optional (S) { a; } g(); }` -/
def meetingTokens : List Token :=
  [.keyword .option, .symbol .lbrace, .ident "bool", .ident "S", .symbol .semicolon,
    .symbol .rbrace, .keyword .external, .symbol .lbrace, .symbol .lbracket, .ident "set",
    .symbol .lparen, .int 0, .symbol .rparen, .symbol .comma, .ident "binding", .symbol .lparen,
    .int 16, .symbol .rparen, .symbol .rbracket, .ident "sampler2D", .ident "a",
    .symbol .semicolon, .symbol .lbracket, .ident "set", .symbol .lparen, .int 1,
    .symbol .rparen, .symbol .comma, .ident "binding", .symbol .lparen, .int 0, .symbol .rparen,
    .symbol .rbracket, .ident "sampler2D", .ident "b", .symbol .semicolon, .symbol .rbrace,
    .ident "void", .ident "g", .symbol .lparen, .symbol .rparen, .symbol .lbrace, .ident "b",
    .symbol .semicolon, .symbol .rbrace, .symbol .lbracket, .ident "entry", .symbol .lparen,
    .ident "fragment", .symbol .rparen, .symbol .rbracket, .ident "void", .ident "main",
    .symbol .lparen, .symbol .rparen, .symbol .lbrace, .keyword .optional, .symbol .lparen,
    .ident "S", .symbol .rparen, .symbol .lbrace, .ident "a", .symbol .semicolon,
    .symbol .rbrace, .ident "g", .symbol .lparen, .symbol .rparen, .symbol .semicolon,
    .symbol .rbrace, .eof].map fun k => ⟨k, Span.dummy, Position.nowhere⟩

/-- Two externals that are flattened to one number are refused, as foreseen. -/
theorem meeting_foreseen :
    ∃ (c : Compiler) (z : Specializer) (file tree : Stmt) (out : ExtractedStage) (b b' : Span),
      c.readTokens meetingTokens = .ok file ∧ z.process file = .ok tree ∧
        extractStage tree .fragment = .ok out ∧
        render (Settings.desktop.withStage .fragment) out.tree =
          .error (.bindingConflict "a" "b" 16 b b') ∧
        Foreseen (Settings.desktop.withStage .fragment) (.bindingConflict "a" "b" 16 b b') := by
  let config : SpecializeConfig := ⟨false, false⟩
  let c : Compiler := ⟨.standard, none, config, .newest⟩
  let z : Specializer := ⟨[("S", .bool true)], config, .newest⟩
  obtain ⟨file, tree, out, b, b', hparse, hprocess, hextract, herror⟩ :
      ∃ file tree out b b', c.readTokens meetingTokens = .ok file ∧ z.process file = .ok tree ∧
        extractStage tree .fragment = .ok out ∧
        render (Settings.desktop.withStage .fragment) out.tree =
          .error (.bindingConflict "a" "b" 16 b b') :=
    ⟨_, _, _, _, _, by rfl, by with_unfolding_all rfl, by with_unfolding_all rfl, by rfl⟩
  exact ⟨c, z, file, tree, out, b, b', hparse, hprocess, hextract, herror,
    foreseen_of_render hparse hprocess hextract rfl herror⟩

end Glsl

end Shading
