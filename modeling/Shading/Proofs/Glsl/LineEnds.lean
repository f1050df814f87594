import Shading.Proofs.Glsl.Declarations
import Shading.Proofs.Glsl.Structs
import Shading.Proofs.Print.LineEnds

/-!
# Line ends of a stage

A stage is its header and a row of declarations, each of which is whole lines. The names in
them are names of the tree and words of the target.
-/

namespace Shading

namespace Glsl

open Kind (AllClear)
open Piece (spell)
open Writer (Tidy Whole)

variable {H : Prop} {p : Program} {w : Writer}

section Dialect

theorem isWord_builtinVariableName (b : BuiltinVariable) (stage : Stage) (isOutput vulkan : Bool) :
    isWord (builtinVariableName b stage isOutput vulkan) = true := by
  cases b <;> unfold builtinVariableName <;> dsimp only <;> (try split) <;> decide

theorem isWord_of_mem_renames {r : String × String} (h : r ∈ p.renames) : isWord r.2 = true := by
  have hblock {isOutput : Bool} {vs : List InterfaceVariable}
      (h : r ∈ p.renamesOf isOutput vs) : isWord r.2 = true := by
    obtain ⟨v, -, hv⟩ := List.mem_filterMap.mp h
    obtain ⟨b, -, rfl⟩ := Option.map_eq_some_iff.mp hv
    exact isWord_builtinVariableName ..
  obtain ⟨item, -, hitem⟩ := List.mem_flatMap.mp h
  cases item with
  | inputs b vs => exact hblock hitem
  | outputs b vs => exact hblock hitem
  | _ => cases hitem

/-- What stands for a reference is clear where the name is. -/
theorem clear_referenceName {name : String} (h : Clear H name) :
    Clear H (p.referenceName name) := by
  unfold Program.referenceName
  cases hlookup : p.renames.reverse.lookup name with
  | none => exact h
  | some other =>
      obtain ⟨before, after, hsplit, -⟩ := List.lookup_eq_some_iff.mp hlookup
      have hmem : (name, other) ∈ p.renames := by
        rw [← List.mem_reverse, hsplit]
        simp
      exact (Sealed.word (isWord_of_mem_renames hmem)).clear

theorem clear_declarator {t : Ty} {name : String} (ht : Clear H t.baseName) (h : Clear H name) :
    Clear H (declarator t name) :=
  (ht.between (by decide) h).inline (isInline_suffixes t)

/-- The dialect writes what is clear. -/
theorem clear_dialect (p : Program) : (dialect p).KeepsClear H where
  builtin f _ :=
    (Except.gives_any _).andThen fun _ => .ok (.of_isInline (isInline_targetName f))
  reference := clear_referenceName
  declarator := clear_declarator

end Dialect

namespace Declaration

/-- The tokens of the tree that a declaration is made of. -/
def kinds : Declaration → List Kind
  | struct s => .ident s.name :: s.fields.flatMap StructField.kinds
  | external v => v.kinds
  | interface v _ _ => v.kinds
  | global (.const c) => spell c.pieces
  | global (.var v) => spell v.pieces
  | function f => f.1.kinds ++ spell (Stmt.piecesList f.2)

end Declaration

section Items

variable (hitems : ∀ item ∈ p.items, AllClear H (spell item.pieces))

include hitems

/-- A structure of the program has clear names where the tree does. -/
theorem allClear_struct? {n : String} {s : StructDeclaration} (h : p.struct? n = some s) :
    AllClear H (Declaration.struct s).kinds := by
  obtain ⟨-, b, hmem⟩ := mem_of_firstStruct? h
  simpa [Stmt.pieces, Stmt.kinds, Declaration.kinds] using hitems _ hmem

theorem allClear_external {v : ExternalVariable} (h : v ∈ p.externals) : AllClear H v.kinds := by
  obtain ⟨item, hmem, hv⟩ := List.mem_flatMap.mp h
  cases item with
  | externals b vs =>
      have hvs : ∀ v ∈ vs, AllClear H v.kinds := by
        simpa [Stmt.pieces, Stmt.kinds] using hitems _ hmem
      exact hvs v hv
  | _ => cases hv

theorem allClear_located {v : InterfaceVariable × Nat × Bool} (h : v ∈ locatedVariables p) :
    AllClear H v.1.kinds := by
  have hblock {isOutput : Bool} {vs : List InterfaceVariable}
      (h : v ∈ locatedVariables.located isOutput vs) : v.1 ∈ vs := by
    obtain ⟨u, hu, hv⟩ := List.mem_filterMap.mp h
    obtain ⟨n, -, rfl⟩ := Option.map_eq_some_iff.mp hv
    exact hu
  obtain ⟨item, hmem, hv⟩ := List.mem_flatMap.mp h
  cases item with
  | inputs b vs | outputs b vs =>
      have hvs : ∀ v ∈ vs, AllClear H v.kinds := by
        simpa [Stmt.pieces, Stmt.kinds] using hitems _ hmem
      exact hvs v.1 (hblock hv)
  | _ => cases hv

theorem allClear_global {g : Global} (h : g ∈ globals p) :
    AllClear H (Declaration.global g).kinds := by
  obtain ⟨item, hmem, hg⟩ := List.mem_flatMap.mp h
  cases item with
  | consts b cs =>
      obtain ⟨c, hc, rfl⟩ := List.mem_map.mp hg
      have hcs : ∀ c ∈ cs, AllClear H (spell c.pieces) := by
        simpa [Stmt.pieces] using hitems _ hmem
      exact hcs c hc
  | var b v =>
      obtain rfl := List.mem_singleton.mp hg
      exact hitems _ hmem
  | _ => cases hg

theorem allClear_function {f : Signature × List Stmt} (h : f ∈ p.functions) :
    AllClear H (Declaration.function f).kinds := by
  obtain ⟨item, hmem, hf⟩ := List.mem_filterMap.mp h
  cases item with
  | function b g body =>
      dsimp only at hf
      split at hf
      · cases hf
        simpa [Stmt.pieces, Declaration.kinds] using hitems _ hmem
      · cases hf
  | _ => cases hf

/-- The declarations hold names of the tree only. -/
theorem allClear_declarations : ∀ d ∈ p.declarations, AllClear H d.kinds := by
  intro d hd
  simp only [Program.declarations, List.mem_append, List.mem_map] at hd
  rcases hd with ⟨s, hs, rfl⟩ | ⟨v, hv, rfl⟩ | ⟨v, hv, rfl⟩ | ⟨g, hg, rfl⟩ | ⟨f, hf, rfl⟩
  · exact allClear_struct? hitems ((mem_orderedStructs_iff s).mp hs).2
  · exact allClear_external hitems hv
  · exact allClear_located hitems hv
  · exact allClear_global hitems hg
  · exact allClear_function hitems (p.orderedFunctions_perm.mem_iff.mp hf)

end Items

section Lines

theorem isInline_toString_word (n : UInt32) : isInline (toString n) = true :=
  isInline_toString n.toNat

/-- The header of the shader is made of whole lines. -/
theorem whole_header (p : Program) : Whole H (writeHeader p .empty) := by
  have hversion : Whole H (Writer.empty.line ("#version " ++ toString p.settings.version.number ++
      (if p.settings.embedded && 300 ≤ p.settings.version.number then " es" else ""))) := by
    refine Whole.empty.tidy.line (.of_isInline ?_)
    rw [isInline_append, isInline_append, isInline_toString_word,
      isInline_ite (s := " es") (t := "") (by decide) (by decide)]
    decide
  have hprecision {c : Bool} {w : Writer} (hw : Whole H w) : Whole H
      (if c = true then (w.line "precision highp float;").line "precision highp int;" else w) := by
    split
    · exact (hw.tidy.line (.word (by decide))).tidy.line (.word (by decide))
    · exact hw
  unfold writeHeader
  dsimp only
  split
  · refine (hprecision hversion).tidy.blankLine.tidy.line (.of_isInline ?_)
    simp only [isInline_append, isInline_toString]
    decide
  · exact hprecision hversion

/-- A declarator with a semicolon. -/
theorem sealed_declarator {t : Ty} {name : String} (ht : Clear H t.baseName) (h : Clear H name) :
    Sealed H (declarator t name ++ ";") := (clear_declarator ht h).word (by decide)

theorem sealed_memberLines {s : StructDeclaration}
    (h : AllClear H (s.fields.flatMap StructField.kinds)) : ∀ l ∈ memberLines s, Sealed H l := by
  intro l hl
  obtain ⟨f, hf, rfl⟩ := List.mem_map.mp hl
  obtain ⟨hn, ht⟩ : Clear H f.name ∧ Clear H f.type.baseName := by
    simpa [StructField.kinds] using Kind.allClear_flatMap.mp h f hf
  exact sealed_declarator ht hn

/-- A structure is written in whole lines. -/
theorem whole_struct {s : StructDeclaration} (h : AllClear H (Declaration.struct s).kinds)
    (hw : Whole H w) : Whole H (writeStructs [s] w) := by
  obtain ⟨hn, hfields⟩ := Kind.allClear_cons.mp h
  have hheader : Sealed H ("struct " ++ s.name ++ " \x7b") :=
    Clear.word ((Sealed.word (by decide)).append hn) (by decide)
  have hmembers := (hw.tidy.blankLine.tidy.line hheader).nested (sealed_memberLines hfields)
  exact hmembers.tidy.line (.word (by decide))

theorem sealed_layoutText {parts : List (Option String)}
    (h : ∀ part ∈ parts, ∀ q ∈ part, Sealed H q) : Sealed H (layoutText parts) := by
  have hparts : ∀ q ∈ parts.filterMap id, Clear H q := by
    intro q hq
    obtain ⟨part, hpart, hq⟩ := List.mem_filterMap.mp hq
    exact (h part hpart q hq).clear
  unfold layoutText
  split
  · exact .of_isInline rfl
  · exact ((Sealed.word (by decide)).append (.intercalate (by decide) hparts)).word (by decide)

theorem whole_blockLines {header : String} (hheader : Sealed H header)
    {v : ExternalVariable} (hv : Clear H v.name) {body : List String}
    (hbody : ∀ l ∈ body, Sealed H l) {tail : String} (htail : Sealed H tail) (hw : Whole H w) :
    Whole H (blockLines header v body tail w) := by
  have hline : Sealed H (header ++ " _uslBlock_" ++ v.name ++ " \x7b") :=
    Clear.word (hheader.clear.between (by decide) hv) (by decide)
  have hmembers := (hw.tidy.line hline).nested hbody
  exact hmembers.tidy.line ((Sealed.word (by decide)).concat htail)

theorem sealed_interfaceLine {v : InterfaceVariable} (h : AllClear H v.kinds) (location : Nat)
    (isOutput : Bool) : Sealed H (interfaceLine p v location isOutput) := by
  obtain ⟨ht, hn⟩ := Dialect.clear_interfaceVariable h
  unfold interfaceLine
  dsimp only
  rw [String.append_assoc]
  refine (Sealed.of_isInline ?_).concat (sealed_declarator ht hn)
  have hlayout : isInline ("layout(location = " ++ toString location ++ ") ") = true := by
    simp only [isInline_append, isInline_toString]
    decide
  rw [isInline_append, isInline_append, isInline_ite hlayout rfl,
    isInline_ite (s := "flat ") (by decide) rfl,
    isInline_ite (s := "out ") (t := "in ") (by decide) (by decide)]
  rfl

theorem sealed_functionHeader {f : Signature} (h : AllClear H f.kinds) :
    Sealed H (functionHeader p f) := by
  unfold functionHeader
  split
  · exact .word (by decide)
  · obtain ⟨ht, hn, hparameters⟩ := Dialect.clear_signature h
    have hlead : Clear H (f.returnType.text ++ " " ++ f.name) := ht.type.between (by decide) hn
    refine (hlead.list ?_).clear.word (by decide)
    intro text htext
    obtain ⟨q, hq, rfl⟩ := List.mem_map.mp htext
    obtain ⟨hqt, hqn⟩ := hparameters q hq
    exact clear_declarator hqt hqn

end Lines

section Declarations

/-- The places that externals take are written in digits. -/
theorem gives_place (H : Prop) (s : Settings) (taken : Taken) (v : ExternalVariable) :
    Except.Gives (fun out => ∀ q ∈ out.1, Sealed H q) (place s taken v) := by
  unfold place
  split
  · dsimp only
    split
    · exact .error trivial
    · refine .ok fun q hq => .of_isInline ?_
      obtain rfl : bindingText s (bindingKey s v) = q := by simpa using hq
      unfold bindingText
      split
      · simp only [isInline_append, isInline_toString]
        decide
      · simp only [isInline_append, isInline_toString]
        decide
  · exact .ok (by simp)

variable (hitems : ∀ item ∈ p.items, AllClear H (spell item.pieces))

include hitems in
/-- An external variable is written in whole lines. -/
theorem gives_writeExternal {v : ExternalVariable} (hv : AllClear H v.kinds)
    {binding : Option String} (hbinding : ∀ q ∈ binding, Sealed H q) (hw : Whole H w) :
    Except.Gives (Whole H) (writeExternal p v binding w) := by
  obtain ⟨ht, hn⟩ := Dialect.clear_externalVariable hv
  have hown : Sealed H (declarator v.type v.name ++ ";") := sealed_declarator ht hn
  have hheader {std keyword : String} (hstd : isWord std = true)
      (hkeyword : isWord keyword = true) : Sealed H (layoutText [some std, binding] ++ keyword) :=
    .concat (sealed_layoutText (by simpa using ⟨.word hstd, hbinding⟩)) (.word hkeyword)
  have hbuffer {header : String} (hheader : Sealed H header) :
      Except.Gives (Whole H) (writeExternal.buffer p v w header) := by
    unfold writeExternal.buffer
    split
    · rename_i body hbody
      obtain ⟨n, -, hstruct⟩ := Option.bind_eq_some_iff.mp hbody
      obtain ⟨-, hfields⟩ := Kind.allClear_cons.mp (allClear_struct? hitems hstruct)
      refine .ok (whole_blockLines hheader hn (sealed_memberLines hfields) ?_ hw)
      exact (((Sealed.word (by decide)).append hn).inline (isInline_suffixes _)).word (by decide)
    · exact .error trivial
  unfold writeExternal
  dsimp only
  split
  · have hlayout : Sealed H (layoutText [binding]) := sealed_layoutText (by simpa using hbinding)
    exact .ok (hw.tidy.line ((hlayout.concat (.word (by decide))).concat hown))
  · exact (Except.gives_any _).andThen fun _ => hbuffer (hheader (by decide) (by decide))
  · exact (Except.gives_any _).andThen fun _ => hbuffer (hheader (by decide) (by decide))
  · refine .ite (fun _ => (Except.gives_any _).andThen fun _ => .ok ?_) fun _ => .ok ?_
    · exact whole_blockLines (hheader (by decide) (by decide)) hn (by simpa using hown)
        (.word (by decide)) hw
    · exact hw.tidy.line ((Sealed.word (by decide)).concat hown)

theorem gives_writeGlobal {g : Global} (hg : AllClear H (Declaration.global g).kinds)
    (hw : Whole H w) : Except.Gives (Whole H) (writeGlobal p w g) := by
  cases g with
  | const c =>
      obtain ⟨ht, hn, he⟩ : Clear H c.type.baseName ∧ Clear H c.name ∧
          AllClear H (spell c.value.pieces) := by
        simpa [Declaration.kinds, ConstDeclaration.pieces, and_assoc] using hg
      have hlead : Sealed H ("const " ++ declarator c.type c.name ++ " = ") :=
        Clear.word ((Sealed.word (by decide)).append (clear_declarator ht hn)) (by decide)
      exact (Dialect.gives_expr (clear_dialect p) he (hw.tidy.pushSealed hlead)).bind
        fun _ hw => .ok (hw.lineWord (by decide))
  | var v =>
      exact (Dialect.gives_variableDeclaration (clear_dialect p) hg hw.tidy).bind
        fun _ hw => .ok (hw.lineWord (by decide))

/-- A function is written in whole lines. -/
theorem gives_writeFunction {f : Signature × List Stmt}
    (hf : AllClear H (Declaration.function f).kinds) (hw : Whole H w) :
    Except.Gives (Whole H) (writeFunction p w f) := by
  obtain ⟨hsignature, hbody⟩ := Kind.allClear_append.mp hf
  have hheader := hw.tidy.blankLine.tidy.pushSealed (sealed_functionHeader (p := p) hsignature)
  have hopen := (hheader.line (s := "\x7b") (.word (by decide))).indent
  exact (Dialect.gives_stmts (clear_dialect p) f.2 hbody hopen).bind fun _ hw =>
    .ok (hw.dedent.tidy.line (s := "\x7d") (.word (by decide)))

include hitems in
/-- A declaration after whole lines is whole lines. -/
theorem gives_writeDeclaration {d : Declaration} (hd : AllClear H d.kinds) {s : Progress}
    (hs : Whole H s.writer) :
    Except.Gives (fun s => Whole H s.writer) (writeDeclaration p s d) := by
  have hlead : Whole H (s.lead d) := by
    unfold Progress.lead
    split
    · exact hs
    · exact hs.tidy.blankLine
  cases d with
  | struct t => exact .ok (whole_struct hd hs)
  | external v =>
      refine (gives_place H p.settings s.taken v).bind fun out hout => ?_
      exact (gives_writeExternal hitems hd hout hlead).bind fun _ hw => .ok hw
  | interface v location isOutput =>
      exact (Except.gives_any _).andThen fun _ =>
        .ok (hlead.tidy.line (sealed_interfaceLine hd location isOutput))
  | global g => exact (gives_writeGlobal hd hlead).bind fun _ hw => .ok hw
  | function f => exact (gives_writeFunction hd hs).bind fun _ hw => .ok hw

include hitems in
/-- Whole lines are kept along a row of declarations. -/
theorem gives_declarations {ds : List Declaration} (hds : ∀ d ∈ ds, AllClear H d.kinds)
    {s : Progress} (hs : Whole H s.writer) :
    Except.Gives (fun s => Whole H s.writer) (ds.foldlM (writeDeclaration p) s) := by
  induction ds generalizing s with
  | nil => exact .ok hs
  | cons d rest ih =>
      obtain ⟨hd, hrest⟩ := List.forall_mem_cons.mp hds
      rw [List.foldlM_cons]
      exact (gives_writeDeclaration hitems hd hs).bind fun _ hs => ih hrest hs

include hitems in
/-- The text of a program is clear and ends its last line. -/
theorem gives_text : Except.Gives (fun text => Clear H text ∧ EndsLine text.toList) p.text := by
  have hstart : Whole H (Progress.start p).writer := whole_header p
  rw [text_eq_declarations]
  exact (gives_declarations hitems (allClear_declarations hitems) hstart).bind fun _ hs =>
    .ok ⟨hs.clear, hs.ends⟩

end Declarations

/-- The text of a stage is a row of whole lines, without pairs if no name of the tree has one. -/
theorem gives_render (s : Settings) {tree : Stmt} (h : AllClear H (spell tree.filePieces)) :
    Except.Gives (fun text => Clear H text ∧ EndsLine text.toList) (render s tree) := by
  unfold render
  cases hprogram : program s tree with
  | error e => exact .error trivial
  | ok p =>
      obtain ⟨-, hitems, -⟩ := program_of_ok hprogram
      refine gives_text (p := p) ?_
      rw [hitems]
      simpa [Stmt.filePieces, Stmt.piecesList_eq_flatMap] using h

end Glsl

end Shading
