import Shading.Proofs.Glsl.Declarations
import Shading.Proofs.Glsl.Flattening
import Shading.Proofs.Print.Relaxed

/-!
# Raising the version

A version is asked for a construct in many places, and always by comparing its number with the
number that the construct needs. So a higher version has what a lower one had, and an error that
reports a version reports one above the version that was tried. A higher version may only write
bindings where the lower one wrote none, and then bindings can meet.
-/

namespace Shading

namespace Glsl

/-- The settings with another version. -/
def Settings.withVersion (s : Settings) (v : Version) : Settings := { s with version := v }

/-- The program under another version. -/
def Program.withVersion (p : Program) (v : Version) : Program :=
  { p with settings := p.settings.withVersion v }

/-- The version that an error reports, if it reports one, has a number above `n`. -/
def RequiresAbove (n : UInt32) : CodegenError → Prop
  | .unsupported _ (some required) _ _ => n < required.number
  | _ => True

section Demands

variable {s : Settings} {v : Version}

/-- A higher version supports what a lower one does. -/
theorem supports_withVersion (hv : s.version.number ≤ v.number) {desktop embedded : UInt32}
    (h : s.supports desktop embedded = true) :
    (s.withVersion v).supports desktop embedded = true := by
  simp only [Settings.supports, decide_eq_true_eq] at h ⊢
  exact UInt32.le_trans h hv

/-- A higher version refuses no construct that a lower one grants. -/
theorem relaxed_require (hv : s.version.number ≤ v.number) (c : Construct)
    (desktop embedded : UInt32) (b : Span) :
    Except.Relaxed (RequiresAbove s.version.number) IsConflict
      (s.require c desktop embedded b) ((s.withVersion v).require c desktop embedded b) := by
  by_cases hsupports : s.supports desktop embedded = true
  · rw [require_of_supports hsupports, require_of_supports (supports_withVersion hv hsupports)]
    exact .ok
  · rw [Settings.require, if_neg hsupports]
    refine .error ?_
    rw [RequiresAbove, Version.number_ofNumber]
    simpa [Settings.supports] using hsupports

/-- Descriptor sets come with a version that has uniform blocks. -/
theorem supports_uniformBlock_of_usesDescriptorSets (h : s.usesDescriptorSets = true) :
    s.supports 140 300 = true := by
  simp only [Settings.usesDescriptorSets, Bool.and_eq_true, Bool.not_eq_true',
    decide_eq_true_eq] at h
  obtain ⟨⟨-, hdesktop⟩, hversion⟩ := h
  simp only [Settings.supports, Settings.applicable, hdesktop, decide_eq_true_eq]
  exact UInt32.le_trans (by decide) hversion

/-- A higher version may place a variable where another one stands, which is a conflict. -/
theorem relaxed_place (taken taken' : Taken) (x : ExternalVariable) :
    Except.Relaxed (RequiresAbove s.version.number) IsConflict (place s taken x)
      (place (s.withVersion v) taken' x) := by
  have hends (E : CodegenError → Prop) (hE : ∀ a b n c d, E (.bindingConflict a b n c d))
      (s : Settings) (taken : Taken) : Except.FailsWithin E (place s taken x) := by
    rw [place]
    refine .ite (fun _ => ?_) fun _ => .ok trivial
    dsimp only
    split
    · exact .error (hE ..)
    · exact .ok trivial
  exact .of_failsWithin (hends _ (fun _ _ _ _ _ => trivial) s taken)
    (hends _ (fun _ _ _ _ _ => trivial) _ taken')

theorem relaxed_checkItems (items : List Stmt) :
    Except.Relaxed (RequiresAbove s.version.number) IsConflict (checkItems s items)
      (checkItems (s.withVersion v) items) := by
  induction items with
  | nil => exact .ok
  | cons item rest ih =>
      rw [checkItems, checkItems]
      cases fileScopeProblem? item with
      | some c => exact .error trivial
      | none => exact ih

end Demands

section Text

variable {p : Program} {v : Version} (hv : p.settings.version.number ≤ v.number)

include hv

/-- The dialect of a higher version demands less. -/
theorem relaxed_dialect :
    (dialect p).Relaxed (RequiresAbove p.settings.version.number) IsConflict
      (dialect (p.withVersion v)) where
  builtin _ _ := (relaxed_require hv ..).bind fun _ _ => .ok
  admits _ := .error trivial

theorem relaxed_checkEntry (b : Span) :
    Except.Relaxed (RequiresAbove p.settings.version.number) IsConflict (checkEntry p b)
      (checkEntry (p.withVersion v) b) := by
  refine .ite (fun _ => .error trivial) fun _ => ?_
  refine .ite (fun _ => .error trivial) fun _ => ?_
  exact .ite (fun _ => relaxed_require hv ..) fun _ => .ok

/-- An external that was written is written, whatever its binding and wherever its line. -/
theorem relaxed_writeExternal (x : ExternalVariable) (binding binding' : Option String)
    (w w' : Writer) :
    Except.Relaxed (RequiresAbove p.settings.version.number) IsConflict
      (writeExternal p x binding w) (writeExternal (p.withVersion v) x binding' w') := by
  have hbuffer (header header' : String) :
      Except.Relaxed (RequiresAbove p.settings.version.number) IsConflict
        (writeExternal.buffer p x w header)
        (writeExternal.buffer (p.withVersion v) x w' header') := by
    have hstruct : (p.withVersion v).struct? = p.struct? := rfl
    rw [writeExternal.buffer, writeExternal.buffer, hstruct]
    cases x.type.structName?.bind p.struct? with
    | none => exact .error trivial
    | some body => exact .ok
  rw [writeExternal, writeExternal]
  cases Resource.of x with
  | sampler => exact .ok
  | uniformBlock | storageBlock => exact (relaxed_require hv ..).bind fun _ _ => hbuffer _ _
  | value =>
      refine .of_failsWithin (.ite (fun _ => ?_) fun _ => .ok trivial)
        (.ite (fun hsets => ?_) fun _ => .ok trivial)
      · exact (relaxed_require hv ..).failsWithin.andThen fun _ => .ok trivial
      · rw [require_of_supports (supports_uniformBlock_of_usesDescriptorSets hsets)]
        exact .ok trivial

theorem relaxed_writeGlobal (g : Global) (w w' : Writer) :
    Except.Relaxed (RequiresAbove p.settings.version.number) IsConflict (writeGlobal p w g)
      (writeGlobal (p.withVersion v) w' g) := by
  cases g with
  | const c =>
      exact (Dialect.relaxed_expr (relaxed_dialect hv) _ _ c.value).bind fun _ _ => .ok
  | var x =>
      exact (Dialect.relaxed_variableDeclaration (relaxed_dialect hv) _ _ x).bind fun _ _ => .ok

theorem relaxed_writeFunction (f : Signature × List Stmt) (w w' : Writer) :
    Except.Relaxed (RequiresAbove p.settings.version.number) IsConflict (writeFunction p w f)
      (writeFunction (p.withVersion v) w' f) :=
  (Dialect.relaxed_stmts (relaxed_dialect hv) f.2 _ _).bind fun _ _ => .ok

theorem relaxed_writeDeclaration (d : Declaration) (s s' : Progress) :
    Except.Relaxed (RequiresAbove p.settings.version.number) IsConflict (writeDeclaration p s d)
      (writeDeclaration (p.withVersion v) s' d) := by
  cases d with
  | struct t => exact .ok
  | external x =>
      exact (relaxed_place ..).bind fun _ _ =>
        (relaxed_writeExternal hv x ..).bind fun _ _ => .ok
  | interface x location isOutput => exact (relaxed_require hv ..).bind fun _ _ => .ok
  | global g => exact (relaxed_writeGlobal hv g ..).bind fun _ _ => .ok
  | function f => exact (relaxed_writeFunction hv f ..).bind fun _ _ => .ok

instance : Nonempty Progress := ⟨⟨none, [], .empty⟩⟩

omit hv in
/-- Which structs are used has nothing to do with the version. -/
theorem closeStructs_withVersion (fuel : Nat) (pending used : List String) :
    (p.withVersion v).closeStructs fuel pending used = p.closeStructs fuel pending used := by
  induction fuel, pending, used using Program.closeStructs.induct p with
  | case1 => rfl
  | case2 => simp [Program.closeStructs]
  | case3 _ _ _ _ _ ih => exact ih

omit hv in
/-- A version writes the declarations that any other version writes. -/
theorem declarations_withVersion : (p.withVersion v).declarations = p.declarations := by
  have hused : (p.withVersion v).usedStructs = p.usedStructs := closeStructs_withVersion ..
  have hstructs : (p.withVersion v).orderedStructs = p.orderedStructs := by
    rw [Program.orderedStructs, Program.orderedStructs, Program.usedDeclarations,
      Program.usedDeclarations, hused]
    rfl
  rw [Program.declarations, Program.declarations, hstructs]
  rfl

/-- A program has a text under a higher version where it has one under a lower, or meets a
conflict. -/
theorem relaxed_text :
    Except.Relaxed (RequiresAbove p.settings.version.number) IsConflict p.text
      (p.withVersion v).text := by
  rw [text_eq_declarations, text_eq_declarations, declarations_withVersion]
  exact (Except.Relaxed.foldlM (relaxed_writeDeclaration hv) _ _ _).bind fun _ _ => .ok

end Text

section Render

variable {s : Settings} {v : Version}

theorem failsWithin_selectEntry (n : UInt32) (items : List Stmt) :
    Except.FailsWithin (RequiresAbove n) (selectEntry s items) := by
  rw [selectEntry]
  split
  · exact .error trivial
  · exact .ok trivial
  · exact .error trivial

/-- The text of a tree under a version and under a higher one. -/
theorem relaxed_render (hv : s.version.number ≤ v.number) (tree : Stmt) :
    Except.Relaxed (RequiresAbove s.version.number) IsConflict (render s tree)
      (render (s.withVersion v) tree) := by
  have hentry : selectEntry (s.withVersion v) tree.items = selectEntry s tree.items := rfl
  simp only [render, program, hentry, bind_assoc]
  refine (relaxed_checkItems tree.items).bind fun _ _ => ?_
  have hselect := failsWithin_selectEntry (s := s) s.version.number tree.items
  generalize selectEntry s tree.items = entry at hselect
  cases hselect with
  | error h => exact .error h
  | @ok f _ =>
      let p : Program := ⟨s, f.1, (f.1.entry.map (·.stage)).getD .vertex, tree.items⟩
      exact (relaxed_checkEntry (p := p) hv f.2).bind fun _ _ => relaxed_text (p := p) hv

/-- The version that a refusal reports is above the one that was tried. -/
theorem lt_required_of_render {tree : Stmt} {c : Construct} {required configured : Version}
    {b : Span} (h : render s tree = .error (.unsupported c (some required) configured b)) :
    s.version.number < required.number :=
  (relaxed_render (UInt32.le_refl _) tree).failsWithin.of_error h

/-- What comes of trying a tree again under every version that is reported: an outcome that
reports no version. -/
inductive Settles (tree : Stmt) : Settings → Except CodegenError String → Prop where
  | done {s : Settings} (h : ∀ c required configured b,
      render s tree ≠ .error (.unsupported c (some required) configured b)) :
      Settles tree s (render s tree)
  | again {s : Settings} {c : Construct} {required configured : Version} {b : Span}
      {out : Except CodegenError String}
      (h : render s tree = .error (.unsupported c (some required) configured b))
      (hrest : Settles tree (s.withVersion required) out) : Settles tree s out

/-- Trying again comes to an end. The numbers of the versions that are tried only grow. -/
theorem exists_settles (tree : Stmt) (s : Settings) : ∃ out, Settles tree s out := by
  generalize hleft : 4294967296 - s.version.number.toNat = left
  induction left using Nat.strongRecOn generalizing s with
  | ind left ih =>
      by_cases h : ∃ c required configured b,
          render s tree = .error (.unsupported c (some required) configured b)
      · obtain ⟨c, required, configured, b, hrender⟩ := h
        have hlt := UInt32.lt_iff_toNat_lt.mp (lt_required_of_render hrender)
        have hbound := required.number.toNat_lt
        obtain ⟨out, hout⟩ := ih (4294967296 - required.number.toNat) (by omega)
          (s.withVersion required) rfl
        exact ⟨out, .again hrender hout⟩
      · exact ⟨_, .done fun c required configured b hrender =>
          h ⟨c, required, configured, b, hrender⟩⟩

/-- A tree that is generated under a version is generated under every higher one, unless
bindings meet there. A version that a refusal reports is above the one that was tried, and no
version from there on is refused for one that low. So trying again under the reported version
comes to an end. -/
theorem render_withVersion (s : Settings) (tree : Stmt) :
    (∀ v : Version, s.version.number ≤ v.number → ∀ text, render s tree = .ok text →
      (∃ text', render (s.withVersion v) tree = .ok text') ∨
        ∃ first second n b b', render (s.withVersion v) tree =
          .error (.bindingConflict first second n b b')) ∧
    (∀ c required configured b,
      render s tree = .error (.unsupported c (some required) configured b) →
        s.version.number < required.number ∧
          ∀ v : Version, required.number ≤ v.number → ∀ c' required' configured' b',
            render (s.withVersion v) tree =
                .error (.unsupported c' (some required') configured' b') →
              required.number < required'.number) ∧
    ∃ out, Settles tree s out := by
  refine ⟨?_, ?_, exists_settles tree s⟩
  · intro v hv text htext
    have hends := (relaxed_render hv tree).failsWithin_of_ok htext
    generalize render (s.withVersion v) tree = out at hends
    cases hends with
    | ok => exact .inl ⟨_, rfl⟩
    | @error e he =>
        cases e with
        | bindingConflict first second n b b' => exact .inr ⟨first, second, n, b, b', rfl⟩
        | _ => exact he.elim
  · intro c required configured b hrender
    refine ⟨lt_required_of_render hrender, ?_⟩
    intro v hv c' required' configured' b' hrender'
    have hlt := lt_required_of_render hrender'
    exact UInt32.lt_of_le_of_lt hv hlt

end Render

end Glsl

end Shading
