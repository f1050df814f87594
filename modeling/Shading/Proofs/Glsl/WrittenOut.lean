import Mathlib.Data.List.Forall2
import Shading.Proofs.Glsl.Declarations
import Shading.Proofs.Print.Frame

/-!
# The text that declarations are written out as

Each declaration is written as whole lines, which do not depend on what stands before them. So
a text is its header and then one part for each of its declarations, in their order.
-/

namespace Shading

namespace Glsl

variable {p : Program}

/-- What a declaration is written as: a struct as its fields between braces, a constant or a
variable with its value, and a function as its header and its body between braces. -/
inductive WrittenAs (p : Program) : Declaration → String → Prop
  | struct (s : StructDeclaration) : WrittenAs p (.struct s)
      ("struct " ++ s.name ++ " \x7b\n" ++
        String.join (s.fields.map fun f => "    " ++ (declarator f.type f.name ++ ";") ++ "\n") ++
        "\x7d;\n")
  | external {v : ExternalVariable} {binding : Option String} {w : Writer}
      (h : writeExternal p v binding .empty = .ok w) : WrittenAs p (.external v) w.text
  | interface (v : InterfaceVariable) (location : Nat) (isOutput : Bool) :
      WrittenAs p (.interface v location isOutput) (interfaceLine p v location isOutput ++ "\n")
  | const {c : ConstDeclaration} {value : String} (h : c.value.text (dialect p) = .ok value) :
      WrittenAs p (.global (.const c))
        ("const " ++ declarator c.type c.name ++ " = " ++ value ++ ";\n")
  | var {v : VariableDeclaration} (h : v.initializer = none) : WrittenAs p (.global (.var v))
      ((if v.isConst then "const " else "") ++ declarator v.type v.name ++ ";\n")
  | varWith {v : VariableDeclaration} {e : Expr} {value : String} (h : v.initializer = some e)
      (hvalue : e.text (dialect p) = .ok value) : WrittenAs p (.global (.var v))
        ((if v.isConst then "const " else "") ++ declarator v.type v.name ++ " = " ++ value ++
          ";\n")
  | function {f : Signature × List Stmt} {body : Writer}
      (h : (dialect p).stmts f.2 Writer.empty.indent = .ok body) : WrittenAs p (.function f)
        ((p.definition f).header ++ "\x7b\n" ++ body.text ++ "\x7d\n")

/-- The part of text that a declaration adds, which may start with a blank line. -/
def AddsPart (p : Program) (d : Declaration) (part : String) : Prop :=
  ∃ lines, WrittenAs p d lines ∧ (part = lines ∨ part = "\n" ++ lines)

/-- The text is the header and then the parts of the declarations, one after the other. -/
def Program.WrittenOut (p : Program) (text : String) : Prop :=
  ∃ parts, List.Forall₂ (AddsPart p) p.declarations parts ∧
    text = (writeHeader p .empty).text ++ String.join parts

open Writer (Resting empty)

/-- The text that a declaration is written after: all that stands before it, and a blank line
or none. -/
def Before (w : Writer) (before : List Char) : Prop :=
  before = w.reversed ∨ before = '\n' :: w.reversed

/-- A writer goes on with a declaration, which is written by itself. -/
def Appends (p : Program) (d : Declaration) (w v : Writer) : Prop :=
  ∃ (alone : Writer) (before : List Char), alone.Resting ∧ WrittenAs p d alone.text ∧
    Before w before ∧ v = alone.onto before

namespace Appends

variable {d : Declaration} {w v : Writer}

/-- What appends a declaration leaves the writer at rest. -/
theorem resting (h : Appends p d w v) : v.Resting := by
  obtain ⟨alone, before, hrest, -, -, rfl⟩ := h
  exact hrest.onto before

/-- What appends a declaration adds one part to the text. -/
theorem text (h : Appends p d w v) : ∃ part, AddsPart p d part ∧ v.text = w.text ++ part := by
  obtain ⟨alone, _, -, hwritten, rfl | rfl, rfl⟩ := h
  · exact ⟨_, ⟨_, hwritten, .inl rfl⟩, Writer.text_onto ..⟩
  · refine ⟨_, ⟨_, hwritten, .inr rfl⟩, ?_⟩
    rw [Writer.text_onto, List.reverse_cons, String.ofList_append, String.append_assoc]
    rfl

end Appends

/-- A declaration is led by what separates it from those before it. -/
theorem exists_lead {s : Progress} (hs : s.writer.Resting) (d : Declaration) :
    ∃ before, Before s.writer before ∧ s.lead d = empty.onto before := by
  unfold Progress.lead
  split
  · exact ⟨_, .inl rfl, hs.eq_onto⟩
  · exact ⟨_, .inr rfl, hs.blankLine_eq⟩

theorem inked_semicolon (s : String) : Inked (s ++ ";") :=
  (inked_of_isWord (by decide)).append s

theorem appends_struct {w : Writer} (hw : w.Resting) (s : StructDeclaration) :
    Appends p (.struct s) w (writeStructs [s] w) := by
  have hheader : (empty.line ("struct " ++ s.name ++ " \x7b")).isOpen = false :=
    Writer.isOpen_line ..
  obtain ⟨htext, hclosed, hdepth⟩ :=
    Writer.text_nested (Writer.depth_line ..) hheader (memberLines s)
  refine ⟨_, _, Resting.line hdepth (s := "\x7d;") (inked_of_isWord (by decide)), ?_, .inr rfl, ?_⟩
  · rw [Writer.text_line hclosed, htext, hdepth, Writer.text_line rfl]
    convert WrittenAs.struct s using 1
    simp [memberLines, Writer.text, empty, String.append_assoc, Function.comp_def]
  · simp [writeStructs, hw.blankLine_eq]

/-- What the writer holds already is not touched by an external variable. -/
theorem writeExternal_onto (v : ExternalVariable) (binding : Option String) (w : Writer)
    (before : List Char) : writeExternal p v binding (w.onto before) =
      (·.onto before) <$> writeExternal p v binding w := by
  have hbuffer (header : String) : writeExternal.buffer p v (w.onto before) header =
      (·.onto before) <$> writeExternal.buffer p v w header := by
    unfold writeExternal.buffer blockLines
    cases v.type.structName?.bind p.struct? with
    | none => rfl
    | some body => simp
  unfold writeExternal blockLines
  dsimp only
  cases Resource.of v with
  | sampler => simp
  | uniformBlock | storageBlock => simp [hbuffer]
  | value => cases p.settings.usesDescriptorSets <;> simp

theorem rests_blockLines (header : String) (v : ExternalVariable) (body : List String)
    (tail : String) : (blockLines header v body (tail ++ ";") empty).Resting := by
  obtain ⟨-, -, hdepth⟩ := Writer.text_nested (Writer.depth_line ..)
    (Writer.isOpen_line empty (header ++ " _uslBlock_" ++ v.name ++ " \x7b")) body
  exact .line hdepth ((inked_semicolon tail).append _)

/-- An external ends with a semicolon and is whole lines. -/
theorem rests_writeExternal (v : ExternalVariable) (binding : Option String) :
    Except.Gives Resting (writeExternal p v binding empty) := by
  have hbuffer (header : String) :
      Except.Gives Resting (writeExternal.buffer p v empty header) := by
    unfold writeExternal.buffer
    cases v.type.structName?.bind p.struct? with
    | none => exact .error trivial
    | some body => exact .ok (rests_blockLines header v (memberLines body) _)
  have hown : Inked (declarator v.type v.name ++ ";") := inked_semicolon _
  unfold writeExternal
  dsimp only
  cases Resource.of v with
  | sampler => exact .ok (.line rfl (hown.append _))
  | uniformBlock | storageBlock => exact (Except.gives_any _).andThen fun _ => hbuffer _
  | value =>
      refine .ite (fun _ => (Except.gives_any _).andThen fun _ => .ok ?_) fun _ => .ok ?_
      · exact rests_blockLines _ v [_] ""
      · exact .line rfl (hown.append _)

/-- What is written alike after any text is written by itself. -/
theorem exists_alone {x : Except CodegenError Writer} {before : List Char} {u : Writer}
    (h : (·.onto before) <$> x = .ok u) : ∃ alone, x = .ok alone ∧ u = alone.onto before := by
  cases x with
  | error e => cases h
  | ok alone =>
      cases h
      exact ⟨alone, rfl, rfl⟩

/-- An external variable appends its own text. -/
theorem appends_external {w u : Writer} {v : ExternalVariable} {binding : Option String}
    {before : List Char} (hbefore : Before w before)
    (h : writeExternal p v binding (empty.onto before) = .ok u) :
    Appends p (.external v) w u := by
  rw [writeExternal_onto] at h
  obtain ⟨alone, halone, rfl⟩ := exists_alone h
  have hrests := rests_writeExternal (p := p) v binding
  rw [halone] at hrests
  cases hrests with
  | ok hrest => exact ⟨alone, before, hrest, .external halone, hbefore, rfl⟩

theorem appends_interface {w : Writer} {before : List Char} (hbefore : Before w before)
    (v : InterfaceVariable) (location : Nat) (isOutput : Bool) :
    Appends p (.interface v location isOutput) w
      ((empty.onto before).line (interfaceLine p v location isOutput)) := by
  have hink : Inked (interfaceLine p v location isOutput) := inked_semicolon _
  refine ⟨_, before, .line rfl hink, ?_, hbefore, Writer.line_onto ..⟩
  rw [Writer.text_line rfl]
  convert WrittenAs.interface v location isOutput using 1
  simp [Writer.text, empty]

theorem writeGlobal_onto (w : Writer) (g : Global) (before : List Char) :
    writeGlobal p (w.onto before) g = (·.onto before) <$> writeGlobal p w g := by
  cases g <;> simp [writeGlobal, Dialect.expr_onto, Dialect.variableDeclaration_onto]

/-- A constant is written under its name. -/
theorem writtenAs_const {c : ConstDeclaration} {u : Writer}
    (h : writeGlobal p empty (.const c) = .ok u) :
    u.Resting ∧ WrittenAs p (.global (.const c)) u.text := by
  obtain ⟨_, hexpr, h⟩ := Except.bind_eq_ok_iff.mp h
  obtain ⟨value, hvalue, hpush⟩ := Except.bind_eq_ok_iff.mp hexpr
  cases hpush
  cases h
  constructor
  · exact .line (by simp [empty]) (inked_of_isWord (by decide))
  · convert WrittenAs.const hvalue using 1
    rw [Writer.text_line_of_isOpen (Writer.isOpen_push ..),
      Writer.text_push_of_isOpen (Writer.isOpen_push ..), Writer.text_push_empty]
    rfl

/-- The head of a variable, which leaves its line open. -/
theorem text_variableHead (v : VariableDeclaration) :
    ((if v.isConst then empty.push "const " else empty).push (declarator v.type v.name)).text =
      (if v.isConst then "const " else "") ++ declarator v.type v.name := by
  cases v.isConst with
  | true =>
      simp only [if_true]
      rw [Writer.text_push_of_isOpen (Writer.isOpen_push ..), Writer.text_push_empty]
  | false =>
      simp only [Bool.false_eq_true, if_false]
      rw [Writer.text_push_empty, String.empty_append]

theorem writtenAs_var {v : VariableDeclaration} {u : Writer}
    (h : writeGlobal p empty (.var v) = .ok u) :
    u.Resting ∧ WrittenAs p (.global (.var v)) u.text := by
  obtain ⟨w, hw, h⟩ := Except.bind_eq_ok_iff.mp h
  cases h
  have hdepth := Dialect.level_variableDeclaration (d := dialect p) v (rfl : empty.depth = 0)
  rw [hw] at hdepth
  cases hdepth with
  | ok hdepth =>
    refine ⟨.line hdepth (inked_of_isWord (by decide)), ?_⟩
    cases hinitializer : v.initializer with
    | none =>
        simp only [Dialect.variableDeclaration, Dialect.exprAfter, hinitializer] at hw
        cases hw
        convert WrittenAs.var hinitializer using 1
        rw [Writer.text_line_of_isOpen (Writer.isOpen_push ..)]
        exact congrArg (· ++ ";\n") (text_variableHead v)
    | some e =>
        simp only [Dialect.variableDeclaration, Dialect.exprAfter, hinitializer] at hw
        obtain ⟨value, hvalue, hpush⟩ := Except.bind_eq_ok_iff.mp hw
        cases hpush
        convert WrittenAs.varWith hinitializer hvalue using 1
        rw [Writer.text_line_of_isOpen (Writer.isOpen_push ..),
          Writer.text_push_of_isOpen (Writer.isOpen_push ..),
          Writer.text_push_of_isOpen (Writer.isOpen_push ..)]
        exact congrArg (· ++ " = " ++ value ++ ";\n") (text_variableHead v)

theorem appends_global {w u : Writer} {before : List Char} (hbefore : Before w before)
    {g : Global} (h : writeGlobal p (empty.onto before) g = .ok u) :
    Appends p (.global g) w u := by
  rw [writeGlobal_onto] at h
  obtain ⟨alone, halone, rfl⟩ := exists_alone h
  cases g with
  | const c =>
      obtain ⟨hrests, hwritten⟩ := writtenAs_const halone
      exact ⟨alone, before, hrests, hwritten, hbefore, rfl⟩
  | var v =>
      obtain ⟨hrests, hwritten⟩ := writtenAs_var halone
      exact ⟨alone, before, hrests, hwritten, hbefore, rfl⟩

/-- The head of a function and its brace, and then the body one level deeper. -/
theorem opened_eq (header : String) : ((empty.push header).push "\x7b").close.indent =
    empty.indent.onto ('\n' :: '\x7b' :: header.toList.reverse) := by
  simp [Writer.push, Writer.append, Writer.close, Writer.indent, Writer.onto, empty]

/-- A function appends its own text, under the header of its definition. -/
theorem appends_function {w u : Writer} (hw : w.Resting) {f : Signature × List Stmt}
    (hheader : functionHeader p f.1 = (p.definition f).header) (h : writeFunction p w f = .ok u) :
    Appends p (.function f) w u := by
  obtain ⟨inner, hinner, h⟩ := Except.bind_eq_ok_iff.mp h
  cases h
  rw [hw.blankLine_eq] at hinner
  simp only [Writer.push_onto, Writer.close_onto, Writer.indent_onto, opened_eq,
    Dialect.stmts_onto] at hinner
  obtain ⟨opened, hopened, rfl⟩ := exists_alone hinner
  obtain ⟨body, hbody, rfl⟩ := exists_alone hopened
  have hdepth : Dialect.Level 1 ((dialect p).stmts f.2 empty.indent) :=
    Dialect.level_stmts f.2 rfl
  have hclosed : Except.Gives (·.isOpen = false) ((dialect p).stmts f.2 empty.indent) :=
    Dialect.isOpen_stmts f.2 rfl
  rw [hbody] at hdepth hclosed
  cases hdepth with
  | ok hdepth =>
    cases hclosed with
    | ok hclosed =>
      have hlevel : body.dedent.depth = 0 := by simp [hdepth]
      have hrests : (body.dedent.line "\x7d").Resting :=
        .line hlevel (inked_of_isWord (by decide))
      refine ⟨_, _, hrests.onto ('\n' :: '\x7b' :: (functionHeader p f.1).toList.reverse), ?_,
        .inr rfl, ?_⟩
      · convert WrittenAs.function hbody using 1
        rw [Writer.text_onto, Writer.text_line (w := body.dedent) hclosed, hlevel, ← hheader]
        simp [Writer.text, Writer.dedent, String.append_assoc, String.ofList_append]
      · simp [Writer.line]

/-- Every declaration appends its own text. -/
theorem appends_writeDeclaration {s out : Progress} {d : Declaration} (hs : s.writer.Resting)
    (hheader : ∀ f, d = .function f → functionHeader p f.1 = (p.definition f).header)
    (h : writeDeclaration p s d = .ok out) : Appends p d s.writer out.writer := by
  obtain ⟨before, hbefore, hlead⟩ := exists_lead hs d
  cases d with
  | struct t =>
      cases h
      exact appends_struct hs t
  | external v =>
      obtain ⟨⟨binding, taken⟩, -, h⟩ := Except.bind_eq_ok_iff.mp h
      obtain ⟨w, hw, h⟩ := Except.bind_eq_ok_iff.mp h
      cases h
      rw [hlead] at hw
      exact appends_external hbefore hw
  | interface v location isOutput =>
      obtain ⟨_, -, h⟩ := Except.bind_eq_ok_iff.mp h
      cases h
      dsimp only
      rw [hlead]
      exact appends_interface hbefore v location isOutput
  | global g =>
      obtain ⟨w, hw, h⟩ := Except.bind_eq_ok_iff.mp h
      cases h
      rw [hlead] at hw
      exact appends_global hbefore hw
  | function f =>
      obtain ⟨w, hw, h⟩ := Except.bind_eq_ok_iff.mp h
      cases h
      exact appends_function hs (hheader f rfl) hw

/-- A row of declarations adds their parts, one after the other. -/
theorem exists_parts {ds : List Declaration} {s out : Progress} (hs : s.writer.Resting)
    (hheader : ∀ f, .function f ∈ ds → functionHeader p f.1 = (p.definition f).header)
    (h : ds.foldlM (writeDeclaration p) s = .ok out) :
    ∃ parts, List.Forall₂ (AddsPart p) ds parts ∧
      out.writer.text = s.writer.text ++ String.join parts := by
  induction ds generalizing s with
  | nil =>
      cases h
      exact ⟨[], .nil, by simp⟩
  | cons d rest ih =>
      rw [List.foldlM_cons] at h
      obtain ⟨t, ht, h⟩ := Except.bind_eq_ok_iff.mp h
      have happends : Appends p d s.writer t.writer :=
        appends_writeDeclaration hs (fun f hf => hheader f (hf ▸ List.mem_cons_self)) ht
      obtain ⟨part, hpart, htext⟩ := happends.text
      obtain ⟨parts, hparts, hrest⟩ :=
        ih happends.resting (fun f hf => hheader f (List.mem_cons_of_mem _ hf)) h
      refine ⟨part :: parts, .cons hpart hparts, ?_⟩
      rw [hrest, htext, String.join_cons, String.append_assoc]

/-- The header leaves the writer at rest. -/
theorem rests_header (p : Program) : (writeHeader p empty).Resting := by
  have hnumber : Inked ("#version " ++ toString p.settings.version.number) := by
    apply inked_of_isWord
    have hinline : isInline (toString p.settings.version.number) = true :=
      isInline_toString p.settings.version.number.toNat
    have hword : isInline "#version " = true := by decide
    simp [isWord, hinline, hword]
  have hversion : (empty.line ("#version " ++ toString p.settings.version.number ++
      (if p.settings.embedded && 300 ≤ p.settings.version.number then " es" else ""))).Resting := by
    apply Resting.line rfl
    split
    · exact (inked_of_isWord (by decide)).append _
    · rwa [String.append_empty]
  have hprecision {c : Bool} {w : Writer} (hw : w.Resting) : Resting
      (if c = true then (w.line "precision highp float;").line "precision highp int;" else w) := by
    split
    · exact .line (by simp [hw.depth]) (inked_of_isWord (by decide))
    · exact hw
  unfold writeHeader
  dsimp only
  split
  · apply Resting.line
    · rw [(hprecision hversion).blankLine_eq]
      rfl
    · exact (inked_of_isWord (by decide)).append _
  · exact hprecision hversion

/-- A text that is the row of its declarations is their parts after the header. -/
theorem Program.Checked.writtenOut (h : p.Checked) {out : Progress}
    (hout : p.declarations.foldlM (writeDeclaration p) (Progress.start p) = .ok out) :
    p.WrittenOut out.writer.text := by
  refine exists_parts (rests_header p) (fun f hf => functionHeader_eq h ?_) hout
  have hmem : f ∈ p.orderedFunctions := by simpa [Program.declarations] using hf
  exact p.orderedFunctions_perm.mem_iff.mp hmem

end Glsl

end Shading
