import Shading.Proofs.Glsl.Definitions

/-!
# The declarations of a text

After its header a text is a row of declarations: the structs, the externals, the interface,
the constants and globals, and the functions. Each is written where the one before it ends.
-/

namespace Shading

namespace Glsl

/-- A declaration of a text. -/
inductive Declaration where
  | struct (s : StructDeclaration)
  | external (v : ExternalVariable)
  | interface (v : InterfaceVariable) (location : Nat) (isOutput : Bool)
  | global (g : Global)
  | function (f : Signature × List Stmt)

namespace Declaration

/-- The section of the text that a declaration belongs to, counted from its head. -/
def rank : Declaration → Nat
  | struct _ => 0
  | external _ => 1
  | interface .. => 2
  | global _ => 3
  | function _ => 4

/-- The struct, if the declaration is one. -/
def struct? : Declaration → Option StructDeclaration
  | struct s => some s
  | _ => none

/-- The function with its body, if the declaration is one. -/
def function? : Declaration → Option (Signature × List Stmt)
  | function f => some f
  | _ => none

end Declaration

/-- A text in progress: the section of its last declaration, the places that externals took
and the lines so far. -/
structure Progress where
  previous : Option Nat
  taken : Taken
  writer : Writer

namespace Progress

/-- The lines before a declaration, with a blank line if it begins its section. -/
def lead (s : Progress) (d : Declaration) : Writer :=
  if s.previous = some d.rank then s.writer else s.writer.blankLine

/-- A text of which the header is written. -/
def start (p : Program) : Progress := ⟨none, [], writeHeader p .empty⟩

end Progress

/-- Writes one declaration after those before it. Structs and functions stand apart by
themselves. -/
def writeDeclaration (p : Program) (s : Progress) (d : Declaration) :
    Except CodegenError Progress :=
  match d with
  | .struct t => return ⟨some d.rank, s.taken, writeStructs [t] s.writer⟩
  | .external v => do
    let (binding, taken) ← place p.settings s.taken v
    return ⟨some d.rank, taken, ← writeExternal p v binding (s.lead d)⟩
  | .interface v location isOutput => do
    p.settings.require .interfaceVariables 130 300 v.span
    return ⟨some d.rank, s.taken, (s.lead d).line (interfaceLine p v location isOutput)⟩
  | .global g => return ⟨some d.rank, s.taken, ← writeGlobal p (s.lead d) g⟩
  | .function f => return ⟨some d.rank, s.taken, ← writeFunction p s.writer f⟩

namespace Program

/-- The declarations of the text in their order. -/
def declarations (p : Program) : List Declaration :=
  p.orderedStructs.map .struct ++ (p.externals.map .external ++
    ((locatedVariables p).map (fun v => .interface v.1 v.2.1 v.2.2) ++
      ((globals p).map .global ++ p.orderedFunctions.map .function)))

end Program

section Sections

variable {p : Program}

/-- The lines that a row of declarations leaves. -/
def writeRow (p : Program) (ds : List Declaration) (s : Progress) : Except CodegenError Writer :=
  (·.writer) <$> ds.foldlM (writeDeclaration p) s

/-- Declarations are written one by one. -/
theorem writeRow_cons (d : Declaration) (ds : List Declaration) (s : Progress) :
    writeRow p (d :: ds) s = writeDeclaration p s d >>= writeRow p ds := by
  rw [writeRow, List.foldlM_cons, map_bind]
  rfl

/-- From any progress that has not come to the section, the row writes what `write` does. -/
def Continues (p : Program) (rank : Nat) (ds : List Declaration)
    (write : Writer → Except CodegenError Writer) : Prop :=
  ∀ s : Progress, (∀ r ∈ s.previous, r < rank) → writeRow p ds s = write s.writer

/-- The functions at the end are written in a fold. -/
theorem writeRow_functions (fs : List (Signature × List Stmt)) (s : Progress) :
    writeRow p (fs.map .function) s = fs.foldlM (writeFunction p) s.writer := by
  induction fs generalizing s with
  | nil => rfl
  | cons f rest ih =>
      rw [List.map_cons, writeRow_cons, List.foldlM_cons, writeDeclaration, bind_assoc]
      congr 1
      funext w
      exact ih _

theorem continues_functions (fs : List (Signature × List Stmt)) :
    Continues p 4 (fs.map .function) (fs.foldlM (writeFunction p)) :=
  fun s _ => writeRow_functions fs s

section

variable {ds : List Declaration} {write : Writer → Except CodegenError Writer}

/-- The globals are written in a fold before what continues them. -/
theorem writeRow_globals (hds : Continues p 4 ds write) (gs : List Global) (s : Progress)
    (hs : s.previous = some 3) :
    writeRow p (gs.map .global ++ ds) s = gs.foldlM (writeGlobal p) s.writer >>= write := by
  induction gs generalizing s with
  | nil =>
      apply hds
      simp [hs]
  | cons g rest ih =>
      rw [List.map_cons, List.cons_append, writeRow_cons, List.foldlM_cons, writeDeclaration,
        bind_assoc, bind_assoc, Progress.lead, if_pos (by exact hs)]
      congr 1
      funext w
      exact ih _ rfl

theorem continues_globals (hds : Continues p 4 ds write) :
    Continues p 3 ((globals p).map .global ++ ds) fun w => writeGlobals p w >>= write := by
  intro s hs
  change _ = writeGlobals p s.writer >>= write
  rw [writeGlobals]
  cases globals p with
  | nil => exact hds s fun r hr => Nat.lt_succ_of_lt (hs r hr)
  | cons g rest =>
      have hfresh : s.previous ≠ some 3 := fun h => absurd (hs 3 h) (by decide)
      rw [List.map_cons, List.cons_append, writeRow_cons, writeDeclaration, bind_assoc,
        Progress.lead, if_neg (by exact hfresh)]
      dsimp only
      rw [List.foldlM_cons, bind_assoc]
      congr 1
      funext w
      exact writeRow_globals hds rest _ rfl

/-- A version that suffices does so at any place. -/
theorem require_congr {s : Settings} {c : Construct} {desktop embedded : UInt32} {b b' : Span}
    (h : s.require c desktop embedded b = .ok ()) : s.require c desktop embedded b' = .ok () := by
  rw [Settings.require] at h ⊢
  split at h
  · rename_i hsupports
    exact if_pos hsupports
  · cases h

/-- Interface variables are written once their version is granted. -/
theorem writeRow_interface (hds : Continues p 3 ds write) {b : Span}
    (hrequire : p.settings.require .interfaceVariables 130 300 b = .ok ())
    (vs : List (InterfaceVariable × Nat × Bool)) (s : Progress) (hs : s.previous = some 2) :
    writeRow p (vs.map (fun v => .interface v.1 v.2.1 v.2.2) ++ ds) s =
      write (vs.foldl (fun w v => w.line (interfaceLine p v.1 v.2.1 v.2.2)) s.writer) := by
  induction vs generalizing s with
  | nil =>
      apply hds
      simp [hs]
  | cons v rest ih =>
      rw [List.map_cons, List.cons_append, writeRow_cons, writeDeclaration,
        require_congr hrequire, Progress.lead, if_pos (by exact hs)]
      exact ih _ rfl

theorem continues_interface (hds : Continues p 3 ds write) :
    Continues p 2 ((locatedVariables p).map (fun v => .interface v.1 v.2.1 v.2.2) ++ ds)
      fun w => writeInterface p w >>= write := by
  intro s hs
  change _ = writeInterface p s.writer >>= write
  rw [writeInterface]
  cases locatedVariables p with
  | nil => exact hds s fun r hr => Nat.lt_succ_of_lt (hs r hr)
  | cons v rest =>
      have hfresh : s.previous ≠ some 2 := fun h => absurd (hs 2 h) (by decide)
      rw [List.map_cons, List.cons_append, writeRow_cons, writeDeclaration, Progress.lead,
        if_neg (by exact hfresh)]
      cases hrequire : p.settings.require .interfaceVariables 130 300 v.1.span with
      | error e => simp [hrequire]
      | ok _ =>
          simp only [hrequire, Except.ok_bind]
          exact writeRow_interface hds hrequire rest _ rfl

/-- External variables are written with the bindings that are taken so far. -/
theorem writeRow_externals (hds : Continues p 2 ds write) (vs : List ExternalVariable)
    (s : Progress) (hs : s.previous = some 1) :
    writeRow p (vs.map .external ++ ds) s = writeExternals p s.taken vs s.writer >>= write := by
  induction vs generalizing s with
  | nil =>
      apply hds
      simp [hs]
  | cons v rest ih =>
      rw [List.map_cons, List.cons_append, writeRow_cons, writeDeclaration, bind_assoc,
        writeExternals, bind_assoc, Progress.lead, if_pos (by exact hs)]
      congr 1
      funext out
      rw [bind_assoc, bind_assoc]
      congr 1
      funext w
      exact ih _ rfl

/-- The first external variable asks for its version. -/
theorem writeRow_externals_first (hds : Continues p 2 ds write) (s : Progress)
    (hs : ∀ r ∈ s.previous, r < 1) (htaken : s.taken = []) :
    writeRow p (p.externals.map .external ++ ds) s =
      (match p.externals with
        | [] => pure s.writer
        | vs => writeExternals p [] vs s.writer.blankLine) >>= write := by
  cases p.externals with
  | nil => exact hds s fun r hr => Nat.lt_succ_of_lt (hs r hr)
  | cons v rest =>
      have hfresh : s.previous ≠ some 1 := fun h => absurd (hs 1 h) (by decide)
      rw [List.map_cons, List.cons_append, writeRow_cons, writeDeclaration, bind_assoc,
        Progress.lead, if_neg (by exact hfresh), htaken]
      dsimp only
      rw [writeExternals, bind_assoc]
      congr 1
      funext out
      rw [bind_assoc, bind_assoc]
      congr 1
      funext w
      exact writeRow_externals hds rest _ rfl

end

/-- The structs are written one by one, and nothing in them fails. -/
theorem writeRow_structs (structs : List StructDeclaration) (ds : List Declaration) (s : Progress)
    (hs : ∀ r ∈ s.previous, r < 1) :
    ∃ previous : Option Nat, (∀ r ∈ previous, r < 1) ∧
      writeRow p (structs.map .struct ++ ds) s =
        writeRow p ds ⟨previous, s.taken, writeStructs structs s.writer⟩ := by
  induction structs generalizing s with
  | nil => exact ⟨s.previous, hs, rfl⟩
  | cons t rest ih =>
      obtain ⟨previous, hprevious, hrow⟩ := ih ⟨some 0, s.taken, writeStructs [t] s.writer⟩
        (by simp)
      refine ⟨previous, hprevious, ?_⟩
      rw [List.map_cons, List.cons_append, writeRow_cons]
      exact hrow

end Sections

/-- The text of a program is its header and then the row of its declarations. -/
theorem text_eq_declarations (p : Program) :
    p.text = do
      let s ← p.declarations.foldlM (writeDeclaration p) (Progress.start p)
      return s.writer.text := by
  have hrow : (do
      let s ← p.declarations.foldlM (writeDeclaration p) (Progress.start p)
      return s.writer.text) = Writer.text <$> writeRow p p.declarations (Progress.start p) := by
    rw [writeRow, ← comp_map]
    rfl
  obtain ⟨previous, hprevious, hstructs⟩ := writeRow_structs (p := p) p.orderedStructs
    (p.externals.map .external ++
      ((locatedVariables p).map (fun v => .interface v.1 v.2.1 v.2.2) ++
        ((globals p).map .global ++ p.orderedFunctions.map .function)))
    (Progress.start p) (by simp [Progress.start])
  have hrest := writeRow_externals_first
    (continues_interface (continues_globals (continues_functions (p := p) p.orderedFunctions)))
    ⟨previous, [], writeStructs p.orderedStructs (writeHeader p .empty)⟩ hprevious rfl
  rw [hrow, Program.declarations, hstructs]
  simp only [Progress.start] at hrest ⊢
  rw [hrest, Program.text]
  cases p.externals <;> simp [map_bind]

end Glsl

end Shading
