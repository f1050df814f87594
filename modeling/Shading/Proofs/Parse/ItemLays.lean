import Shading.Proofs.Parse.Checks
import Shading.Proofs.Parse.Lays

/-!
# Files over a source text

Attributes stand before a declaration and belong to its span. They are not laid out, but a
check may fail at one of them long after it was read, so what is known of their places is kept
with them. A file is then laid out from its first token to its last one.
-/

namespace Shading

open Lexer (byteLength)
open Outline (Laid)
open Cursor (Start Taken Since)

variable {source : List Char}

/-- Each attribute and the start of the declaration lie in the source. -/
structure Attributes.InSource (source : List Char) (as : Attributes) : Prop where
  start : Shading.InSource source as.start.span as.start.position
  each : ∀ a ∈ as.list, Shading.InSource source a.span a.position

/-- What a check finds at them is found in the source. -/
theorem Attributes.InSource.faults {as : Attributes} (h : as.InSource source) :
    as.FaultsWithin (ParseError.InSource source) where
  start _ := h.start
  each a ha _ := h.each a ha

namespace Parse

variable {names : Names} {t : Token} {os : List Outline} {fuel : Nat}

section Attributes

/-- An argument of an attribute is no part of the tree. -/
theorem lays_attributeArgument : Lays source attributeArgument fun _ => [] := by
  refine fun t => .kindStart ?_
  split
  · rename_i a ha
    have hk : t.kind ≠ .eof := by
      intro heof
      rw [heof] at ha
      cases ha
    exact .takeStart hk (.pure fun _ hc => hc)
  · exact .unexpected fun _ hc => hc.sound

/-- An attribute is read where its tokens stand, and lies in the source. -/
theorem holds_oneAttribute : Holds source (Start source t) (oneAttribute fuel)
    fun a c => Taken source t [] c ∧ InSource source a.span a.position := by
  have hend (name : String) (arguments : List AttributeArgument) :
      Holds source (Taken source t [])
        (do return Attribute.mk name arguments (← spanFrom t.span) t.position)
        fun a c => Taken source t [] c ∧ InSource source a.span a.position :=
    fun c hc => .ok ⟨hc, hc.inSource⟩
  refine .lookStart (lays_identifier.bind fun name => .eat ?_ (hend _ _))
  refine (lays_attributeArgument.separated _ t []).bind fun arguments => ?_
  rw [List.nil_append, List.flatMap_eq_nil_iff.mpr fun _ _ => rfl]
  exact .expect (hend _ _)

theorem holds_attributeGroup (n : Nat) :
    Holds source (Taken source t []) (separated (oneAttribute fuel) n)
      fun l c => Taken source t [] c ∧ ∀ a ∈ l, InSource source a.span a.position := by
  have hone (l : List Attribute) :
      Holds source
        (fun c => Taken source t [] c ∧ ∀ a ∈ l, InSource source a.span a.position)
        (oneAttribute fuel)
        fun a c => Taken source t [] c ∧ ∀ b ∈ l ++ [a], InSource source b.span b.position :=
    fun c hc => (holds_oneAttribute.frame c ⟨hc.1, rfl⟩).imp (fun _ he => he) fun _ hout =>
      ⟨hout.1, List.forall_mem_append.mpr ⟨hc.2, List.forall_mem_singleton.mpr hout.2⟩⟩
  have hlist := Holds.separated (fun _ _ hc => hc.1.sound) hone
    (fun l c hc hk => ⟨hc.1.advance hk, hc.2⟩) n []
  exact hlist.imp (fun c hc => ⟨hc, List.forall_mem_nil _⟩) fun _ _ h => h

theorem holds_attributeGroups (n : Nat) : Holds source (Since source t) (attributeGroups n)
    fun l c => Since source t c ∧ ∀ a ∈ l, InSource source a.span a.position := by
  induction n with
  | zero => exact .spent fun _ hc => hc.sound
  | succ n ih =>
      refine .eatSince ?_ (.pure fun c hc => ⟨hc, List.forall_mem_nil _⟩)
      refine (holds_attributeGroup _).bind fun group => .given fun hgroup => .expect ?_
      have hrest := ih.imp (fun _ hc => .inr hc) fun _ _ h => h
      exact hrest.bind fun rest => .pure fun c hc =>
        ⟨hc.1, List.forall_mem_append.mpr ⟨hgroup, hc.2⟩⟩

/-- The attributes begin where their declaration does. -/
theorem holds_attributes : Holds source (Start source t) (attributes fuel)
    fun as c => Since source t c ∧ (as.start = t ∧ as.InSource source) :=
  .lookStart fun c hc => ((holds_attributeGroups _).start c hc).bind fun _ hout =>
    .ok ⟨hout.1, rfl, hc.inSource, hout.2⟩

end Attributes

section Entries

/-- An entry starts with its attributes, which some check refuses or not. -/
theorem lays_entry {α : Type} {view : α → List Outline}
    {rest : Attributes × Ty × String → Parse α}
    (h : ∀ as type name, as.InSource source → Holds source (Taken source as.start [])
      (rest (as, type, name)) fun a => Taken source as.start (view a)) :
    Lays source (entryHead names fuel >>= rest) view := by
  have hhead (t : Token) : Holds source (Start source t) (entryHead names fuel)
      fun head c => Taken source t [] c ∧ (head.1.start = t ∧ head.1.InSource source) :=
    holds_attributes.bind fun as => .given fun has => (lays_type names).since.bind fun _ =>
      lays_identifier.skip fun _ => .pure fun _ hc => ⟨hc, has⟩
  refine fun t => (hhead t).bind fun head => .given fun ⟨hstart, has⟩ => ?_
  obtain rfl := hstart
  exact h _ _ _ has

/-- An entry of an interface is one part. The other entries are alike. -/
theorem lays_interfaceEntry : Lays source (interfaceEntry names fuel) fun v => [v.outline] :=
  lays_entry fun _ _ _ has => .expect (.checked has.faults.failsWithin_slot fun _ =>
    .finish fun _ => rfl)

theorem lays_externalEntry : Lays source (externalEntry names fuel) fun v => [v.outline] :=
  lays_entry fun _ _ _ has => .expect (.checked has.faults.failsWithin_binding fun _ =>
    .finish fun _ => rfl)

theorem lays_optionEntry : Lays source (optionEntry names fuel) fun d => [d.outline] := by
  refine lays_entry fun as type name has => .checked (has.faults.failsWithin_none _) fun _ => ?_
  have hend (default : Option Expr) :
      Holds source (Taken source as.start (Expr.outlineOption default))
        (do
          expect .semicolon
          return OptionDeclaration.mk name type default (← spanFrom as.start.span))
        fun d => Taken source as.start [d.outline] :=
    .expect (.finish fun _ => rfl)
  exact .eat ((lays_expression names fuel).andThen fun e => hend (some e)) (hend none)

theorem lays_constEntry : Lays source (constEntry names fuel) fun d => [d.outline] :=
  lays_entry fun _ _ _ has => .checked (has.faults.failsWithin_none _) fun _ => .expect
    ((lays_expression names fuel).andThen fun _ => .expect (.finish fun _ => rfl))

theorem lays_structField : Lays source (structField names) fun _ => [] :=
  fun _ => lays_identifier.bind fun _ => .expect ((lays_type names).skip fun _ =>
    .expect (.pure fun _ hc => hc))

variable {u : Token} (hk : u.kind ≠ .eof)
include hk

/-- Entries between braces. -/
theorem holds_entries {α : Type} {entry : Parse α} {view : α → Outline}
    (hentry : Lays source entry fun a => [view a]) :
    Holds source (fun c => Since source t c ∧ c.current = u) (entries entry fuel)
      fun l => Taken source t (l.map view) := by
  refine .takeSince hk (.expect ((hentry.upTo _ _ t []).bind fun l => .expect ?_))
  rw [List.nil_append, ← List.map_eq_flatMap]
  exact .eat (.pure fun _ hc => hc) (.pure fun _ hc => hc)

/-- A structure is one part, whatever its fields. -/
theorem holds_struct : Holds source (fun c => Since source t c ∧ c.current = u)
    (struct names fuel t.span) fun s => Taken source t [s.outline] := by
  refine .takeSince hk (lays_identifier.skip fun name => .expect ?_)
  refine (lays_structField.upTo _ _ t []).bind fun fields => .expect ?_
  rw [List.nil_append, List.flatMap_eq_nil_iff.mpr fun _ _ => rfl]
  exact .eat (.finish fun _ => rfl) (.finish fun _ => rfl)

end Entries

section Items

theorem lays_parameter : Lays source (parameter names) fun p => [p.outline] :=
  fun _ => .lookStart ((lays_type names).bind fun _ => lays_identifier.skip fun _ =>
    .finish fun _ => rfl)

/-- A function is one part that begins at its attributes. -/
theorem holds_function {as : Attributes} (has : as.InSource source) (returnType : Ty)
    (name : String) : Holds source (Taken source as.start [])
      (function names fuel as returnType name) fun s => Taken source as.start [s.outline] := by
  refine .checked has.faults.failsWithin_entry fun entry => .expect (.kind fun k => .left ?_)
  have hend (parameters : List Parameter) :
      Holds source (Taken source as.start (parameters.map Parameter.outline))
        (do
          expect .rparen
          let body ← braced (statement names fuel) fuel
          return Stmt.function (← spanFrom as.start.span) ⟨name, parameters, returnType, entry⟩
            body)
        fun s => Taken source as.start [s.outline] :=
    .expect ((lays_braced (lays_statement names fuel)).andThen fun _ => .finish fun _ => rfl)
  refine .ite (fun _ => hend []) fun _ => ?_
  refine (lays_parameter.separated _ as.start []).bind fun parameters => ?_
  rw [List.nil_append, ← List.map_eq_flatMap]
  exact hend parameters

theorem holds_libraryParts (n : Nat) : Holds source (Taken source t os) (libraryParts n)
    fun _ => Taken source t os := by
  induction n with
  | zero => exact .spent fun _ hc => hc.sound
  | succ n ih =>
      exact .eat (lays_identifier.skip fun _ => ih.bind fun _ => .pure fun _ hc => hc)
        (.pure fun _ hc => hc)

/-- A directive is one part that begins at its keyword. -/
theorem holds_library (hk : t.kind ≠ .eof) : Holds source (Start source t) (library fuel t.span)
    fun s => Taken source t [s.outline] :=
  .takeStart hk (lays_identifier.skip fun _ => (holds_libraryParts _).bind fun _ => .expect
    (.finish fun _ => rfl))

/-- A block of entries spans from its attributes, of which it has none, to its closing brace. -/
theorem holds_block {as : Attributes} (has : as.InSource source) {u : Token} (hk : u.kind ≠ .eof)
    {α : Type} {entry : Parse α} {view : α → Outline} (hentry : Lays source entry fun a => [view a])
    {make : Span → List α → Stmt} (hmake : ∀ s l, (make s l).outline = .node s (l.map view)) :
    Holds source (fun c => Since source as.start c ∧ c.current = u)
      (do
        checked (as.none .block)
        let list ← entries entry fuel
        return make (← spanFrom as.start.span) list)
      fun s => Taken source as.start [s.outline] :=
  .checked (has.faults.failsWithin_none _) fun _ => (holds_entries hk hentry).bind fun list =>
    .finish fun s => congrArg ([·]) (hmake s list)

/-- A declaration is laid out from its first token to its last one. -/
theorem lays_item (names : Names) (fuel : Nat) : LaysStmt source (item names fuel) := by
  induction fuel with
  | zero => exact fun _ => .spent fun _ hc => hc.sound
  | succ fuel ih =>
      refine fun t => holds_attributes.bind fun as => .given fun ⟨hstart, has⟩ => .look fun u => ?_
      obtain rfl := hstart
      split
      · rename_i hk
        exact .checked (has.faults.failsWithin_none _) fun _ => holds_struct (by simp [hk])
      · rename_i hk
        exact holds_block has (by simp [hk]) lays_interfaceEntry fun _ _ => rfl
      · rename_i hk
        exact holds_block has (by simp [hk]) lays_interfaceEntry fun _ _ => rfl
      · rename_i hk
        exact holds_block has (by simp [hk]) lays_externalEntry fun _ _ => rfl
      · rename_i hk
        exact holds_block has (by simp [hk]) lays_optionEntry fun _ _ => rfl
      · rename_i hk
        refine .get fun _ => .ite (fun _ => ?_) fun _ => ?_
        · exact holds_block has (by simp [hk]) lays_constEntry fun _ _ => rfl
        · refine .left (.checked (has.faults.failsWithin_none _) fun _ => ?_)
          exact lays_variableDeclaration.since
      · refine .left (.checked (has.faults.failsWithin_none _) fun _ => ?_)
        exact (lays_optional (lays_braced ih) fuel fuel).since
      · rename_i hk
        refine .checked (has.faults.failsWithin_none _) fun _ => ?_
        exact .sinceLooked (holds_library (by simp [hk]))
      · refine .left ((lays_type names).since.bind fun type => lays_identifier.skip fun name => ?_)
        refine .kind fun k => .left (.ite (fun _ => holds_function has type name.1) fun _ => ?_)
        refine .checked (has.faults.failsWithin_none _) fun _ => ?_
        exact holds_finishVariable false type name.1
      · exact .left (.unexpected fun _ hc => hc.sound)

/-- Before the first declaration nothing is taken, then they are laid out one after the other. -/
theorem holds_items (names : Names) (fuel n : Nat) :
    Holds source (Start source t) (upTo .eof (item names fuel) n) fun items c =>
      (items = [] ∧ Start source t c) ∨ Taken source t (Stmt.outlines items) c := by
  have hitem (ss : List Stmt) :
      Holds source
        (fun c => (ss = [] ∧ Start source t c) ∨ Taken source t (Stmt.outlines ss) c)
        (item names fuel)
        fun s c => (ss ++ [s] = [] ∧ Start source t c) ∨
          Taken source t (Stmt.outlines (ss ++ [s])) c := by
    have happend (s : Stmt) : Stmt.outlines (ss ++ [s]) = Stmt.outlines ss ++ [s.outline] := by
      simp [Stmt.outlines_eq_flatMap]
    rintro c (⟨rfl, hc⟩ | hc)
    · exact (lays_item names fuel t c hc).imp (fun _ he => he) fun _ hout => .inr hout
    · refine ((lays_item names fuel).after t _ c hc).imp (fun _ he => he) fun out hout => .inr ?_
      rwa [happend]
  have hsound (ss : List Stmt) (c : Cursor)
      (hc : (ss = [] ∧ Start source t c) ∨ Taken source t (Stmt.outlines ss) c) :
      c.Sound source := hc.elim (fun h => h.2.sound) fun h => h.sound
  exact (Holds.upTo .eof hsound hitem n []).imp (fun c hc => .inl ⟨rfl, hc⟩) fun _ _ h => h

/-- A file is one block around its declarations. Without any, the block has the place of the end
of the file. -/
theorem holds_file (names : Names) (fuel : Nat) : Holds source (Start source t) (file names fuel)
    fun tree _ => tree.outline.WellFormed (byteLength source) := by
  refine .lookStart ((holds_items names fuel _).bind fun items => .kind fun k => .left ?_)
  refine .ite (fun _ => ?_) fun _ => ?_
  · cases items with
    | nil =>
        refine .pure fun c hc => ?_
        have hstart : InSource source t.span t.position := by
          rcases hc with ⟨-, hc⟩ | hc
          · exact hc.inSource
          · exact hc.start
        have hlaid : Laid t.span.start t.span.stop [.node t.span []] :=
          .wrap (.nil hstart.start_le_stop) (Nat.le_refl _) (Nat.le_refl _)
        exact hlaid.ordered hstart.stop_le
    | cons s ss =>
        have hend : Holds source (Taken source t (Stmt.outlines (s :: ss)))
            (do return Stmt.block (← spanFrom t.span) (s :: ss))
            fun tree _ => tree.outline.WellFormed (byteLength source) :=
          .spanFrom fun _ => .pure fun _ hc => hc.laid.ordered hc.stop_le_source
        exact hend.imp (fun _ hc => hc.resolve_left (by simp)) fun _ _ h => h
  · refine .unexpected fun c hc => ?_
    rcases hc with ⟨-, hc⟩ | hc
    · exact hc.sound
    · exact hc.sound

end Items

end Parse

theorem Lexer.Located.inSource {text : List Char} {span : Span} {position : Position}
    (h : Located source text span position) : InSource source span position :=
  ⟨h.start_le_stop, h.stop_le, h.position_eq, h.countedAt⟩

/-- The tokens of a source stand in it, from the first one on. -/
theorem Lexer.Tiles.start {ts : List Token} (h : Tiles [] source ts) :
    Start source (ts.headD Token.eof) (Cursor.ofTokens ts) := by
  refine ⟨⟨?_, h.pairwise, ?_⟩, rfl⟩
  · intro t ht
    obtain ⟨text, hlocated, -⟩ := h.located ht
    exact hlocated.inSource
  · obtain ⟨init, stop, rfl, hstop, -⟩ := h.last
    exact ⟨stop, List.mem_append_right _ List.mem_cons_self, hstop⟩

/-- The lexer tiles the source of a file that is not too large. -/
theorem Lexer.tiles_tokenize {source : String} (hsize : source.utf8ByteSize < 2 ^ 32) :
    Except.Ends (Faulty source.toList) (Tiles [] source.toList) (tokenize source) := by
  have hlimit : byteLength ([] ++ source.toList) ≤ Span.limit := by
    rw [utf8ByteSize_eq] at hsize
    rw [List.nil_append, Span.limit]
    omega
  exact tiles_scan (Nat.le_refl _) hlimit

/-- The tree of a source text is well formed in it, and what is wrong with a text that has none
is at a place of the text. -/
theorem parseSource_wellFormed {source : String} (hsize : source.utf8ByteSize < 2 ^ 32)
    (registry : Registry) :
    Except.Ends (ParseError.InSource source.toList)
      (fun tree => tree.outline.WellFormed source.utf8ByteSize) (parseSource source registry) := by
  have hends := Lexer.tiles_tokenize hsize
  rw [utf8ByteSize_eq]
  unfold parseSource
  cases htokens : tokenize source with
  | error e =>
      exact .error (hends.of_error htokens).2.inSource
  | ok ts =>
      rw [htokens] at hends
      cases hends with
      | ok htiles => exact (Parse.holds_file _ _ _ htiles.start).bind fun _ htree => .ok htree

/-- An entry with a loop that ends in a minimum folded into one token and a member of an
expression whose parentheses are not in the tree. -/
def loopingSource : String :=
  "[entry(fragment)] void f(int n) \x7b // é\n do x = -2147483648; while ((n + 1).x < 2); \x7d"

/-- A variable with an attribute that it may not have. -/
def locatedSource : String := "/* é */ [location(0)] const int x = 1;"

/-- The spans of a file from the outside to the inside, and an error at an attribute. -/
theorem loopingSource_wellFormed :
    (∃ tree, parseSource loopingSource Registry.standard = .ok tree ∧
      (Outline.throughout [tree.outline]).map Outline.span =
        [⟨0, 85⟩, ⟨0, 85⟩, ⟨25, 30⟩, ⟨41, 83⟩, ⟨44, 60⟩, ⟨44, 59⟩, ⟨44, 45⟩, ⟨48, 59⟩, ⟨69, 81⟩,
          ⟨69, 77⟩, ⟨69, 74⟩, ⟨69, 70⟩, ⟨73, 74⟩, ⟨80, 81⟩] ∧
      tree.outline.WellFormed loopingSource.utf8ByteSize) ∧
    ∃ e, parseSource locatedSource Registry.standard = .error e ∧
      e.span = ⟨10, 21⟩ ∧ e.position = ⟨1, 10⟩ ∧ e.InSource locatedSource.toList := by
  constructor
  · have hspans : (parseSource loopingSource Registry.standard).toOption.map
        (fun tree => (Outline.throughout [tree.outline]).map Outline.span) =
        some [⟨0, 85⟩, ⟨0, 85⟩, ⟨25, 30⟩, ⟨41, 83⟩, ⟨44, 60⟩, ⟨44, 59⟩, ⟨44, 45⟩, ⟨48, 59⟩,
          ⟨69, 81⟩, ⟨69, 77⟩, ⟨69, 74⟩, ⟨69, 70⟩, ⟨73, 74⟩, ⟨80, 81⟩] := by decide +kernel
    have hsize : loopingSource.utf8ByteSize < 2 ^ 32 := by decide
    have hends := parseSource_wellFormed hsize Registry.standard
    generalize parseSource loopingSource Registry.standard = result at hspans hends
    cases hends with
    | ok h => exact ⟨_, rfl, Option.some.inj hspans, h⟩
    | error _ => cases hspans
  · have hplace : ((parseSource locatedSource Registry.standard).map fun _ => ()).mapError
        (fun e => (e.span, e.position)) = .error (⟨10, 21⟩, ⟨1, 10⟩) := by decide +kernel
    have hsize : locatedSource.utf8ByteSize < 2 ^ 32 := by decide
    have hends := parseSource_wellFormed hsize Registry.standard
    generalize parseSource locatedSource Registry.standard = result at hplace hends
    cases hends with
    | ok _ => cases hplace
    | error h =>
        obtain ⟨hspan, hposition⟩ := Prod.mk.inj (Except.error.inj hplace)
        exact ⟨_, rfl, hspan, hposition, h⟩

end Shading
