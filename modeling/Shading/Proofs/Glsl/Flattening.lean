import Mathlib.Data.List.Nodup
import Shading.Glsl.Text
import Shading.Proofs.Except

/-!
# Flattened bindings

Without descriptor sets the samplers and the buffers of a text share one row of bindings. An
external is put where its set and its binding put it, the limit of a word apart: what lies
beyond is put at the limit. The section of the externals is written exactly if no two of them
are put at one place, and the first external that meets an earlier one is the one reported.
-/

namespace Shading

namespace Glsl

/-- The place of an external in the row, computed without a limit. -/
def exactBinding (s : Settings) (v : ExternalVariable) : Nat := v.set * s.bindingsPerSet + v.binding

/-- The place that an external is given. -/
def flatBinding (s : Settings) (v : ExternalVariable) : Nat := min (exactBinding s v) bindingLimit

/-- Loose values stand outside the row. -/
def isBound (v : ExternalVariable) : Bool := Resource.of v ≠ .value

/-- The places of externals in the row, in source order. -/
def flatBindings (s : Settings) (vs : List ExternalVariable) : List Nat :=
  (vs.filter isBound).map (flatBinding s)

/-- The struct that is the body of a buffer. -/
def body? (p : Program) (v : ExternalVariable) : Option StructDeclaration :=
  v.type.structName?.bind p.struct?

/-- What an external needs beside its place: a buffer needs its version and its struct. -/
def Fits (p : Program) (v : ExternalVariable) : Prop :=
  match Resource.of v with
  | .sampler | .value => True
  | .uniformBlock => p.settings.supports 140 300 = true ∧ (body? p v).isSome
  | .storageBlock => p.settings.supports 430 310 = true ∧ (body? p v).isSome

/-- The lines of a buffer: the members of its struct, one level deeper. -/
def bufferLines (p : Program) (v : ExternalVariable) (header : String) : List String :=
  (header ++ " _uslBlock_" ++ v.name ++ " \x7b") ::
    (((body? p v).elim [] memberLines).map ("    " ++ ·) ++
      ["\x7d" ++ (" " ++ v.name ++ v.type.suffixes ++ ";")])

/-- The lines of an external in the row. -/
def flatLines (p : Program) (v : ExternalVariable) : List String :=
  let place := "binding = " ++ toString (flatBinding p.settings v)
  match Resource.of v with
  | .sampler => ["layout(" ++ place ++ ") " ++ "uniform " ++ (declarator v.type v.name ++ ";")]
  | .uniformBlock => bufferLines p v ("layout(" ++ "std140" ++ ", " ++ place ++ ") " ++ "uniform")
  | .storageBlock => bufferLines p v ("layout(" ++ "std430" ++ ", " ++ place ++ ") " ++ "buffer")
  | .value => ["uniform " ++ (declarator v.type v.name ++ ";")]

section Lines

variable {w : Writer}

theorem line_of_not_isOpen (h : w.isOpen = false) (s : String) :
    w.line s = ⟨'\n' :: (s.toList.reverse ++ (List.replicate (4 * w.depth) ' ' ++ w.reversed)),
      w.depth, false⟩ := by
  simp [Writer.line, Writer.push, Writer.close, h]

/-- A line one level deeper is a line with four more spaces in front. -/
theorem line_indent (h : w.isOpen = false) (s : String) :
    w.indent.line s = (w.line ("    " ++ s)).indent := by
  have hspaces : List.replicate (4 * (w.depth + 1)) ' ' =
      "    ".toList.reverse ++ List.replicate (4 * w.depth) ' ' := by
    rw [Nat.mul_add, Nat.add_comm, List.replicate_add]
    rfl
  rw [line_of_not_isOpen h, line_of_not_isOpen (w := w.indent) h]
  simp only [Writer.indent, hspaces, String.toList_append, List.reverse_append, List.append_assoc]

/-- Lines leave the writer at the start of a line. -/
theorem isOpen_foldl_line (h : w.isOpen = false) (ss : List String) :
    (ss.foldl Writer.line w).isOpen = false := by
  induction ss generalizing w with
  | nil => exact h
  | cons s rest ih =>
      apply ih
      rw [line_of_not_isOpen h]

theorem foldl_line_indent (h : w.isOpen = false) (ss : List String) :
    ss.foldl Writer.line w.indent = ((ss.map ("    " ++ ·)).foldl Writer.line w).indent := by
  induction ss generalizing w with
  | nil => rfl
  | cons s rest ih =>
      rw [List.foldl_cons, line_indent h, List.map_cons, List.foldl_cons]
      apply ih
      rw [line_of_not_isOpen h]

/-- Nested lines are lines with an indentation in front. -/
theorem nested_eq_foldl (h : w.isOpen = false) (ss : List String) :
    w.nested ss = (ss.map ("    " ++ ·)).foldl Writer.line w := by
  rw [Writer.nested, foldl_line_indent h]
  rfl

theorem blockLines_eq_foldl (h : w.isOpen = false) (header tail : String) (v : ExternalVariable)
    (body : List String) :
    blockLines header v body tail w =
      ((header ++ " _uslBlock_" ++ v.name ++ " \x7b") ::
        (body.map ("    " ++ ·) ++ ["\x7d" ++ tail])).foldl Writer.line w := by
  have hheader : (w.line (header ++ " _uslBlock_" ++ v.name ++ " \x7b")).isOpen = false := by
    rw [line_of_not_isOpen h]
  rw [blockLines, nested_eq_foldl hheader, List.foldl_cons, List.foldl_append, List.foldl_cons,
    List.foldl_nil]

end Lines

section External

variable {p : Program} {v : ExternalVariable} {w : Writer}

/-- The qualifier of an external in the row. -/
def flatText (s : Settings) (v : ExternalVariable) : Option String :=
  if isBound v then some ("binding = " ++ toString (flatBinding s v)) else none

/-- Whether an error reports two externals that meet. -/
def IsConflict : CodegenError → Prop
  | .bindingConflict .. => True
  | _ => False

/-- A buffer with a body is written as its lines. -/
theorem buffer_eq_ok (h : w.isOpen = false) (hbody : (body? p v).isSome) (header : String) :
    writeExternal.buffer p v w header = .ok ((bufferLines p v header).foldl Writer.line w) := by
  obtain ⟨body, hsome⟩ := Option.isSome_iff_exists.mp hbody
  rw [writeExternal.buffer, bufferLines, ← body?, hsome]
  exact congrArg Except.ok (blockLines_eq_foldl h _ _ v _)

/-- A buffer without a body is refused, and not for a conflict. -/
theorem buffer_eq_error (hbody : ¬(body? p v).isSome) (header : String) :
    ∃ e, writeExternal.buffer p v w header = .error e ∧ ¬IsConflict e := by
  rw [writeExternal.buffer, ← body?, Option.not_isSome_iff_eq_none.mp hbody]
  exact ⟨_, rfl, id⟩

theorem layoutText_single (a rest : String) :
    layoutText [some a] ++ rest = "layout(" ++ a ++ ") " ++ rest := by
  simp [layoutText, String.append_assoc]

theorem layoutText_pair (a b rest : String) :
    layoutText [some a, some b] ++ rest = "layout(" ++ a ++ ", " ++ b ++ ") " ++ rest := by
  simp [layoutText, String.append_assoc]

theorem require_of_supports {s : Settings} {c : Construct} {desktop embedded : UInt32} {b : Span}
    (h : s.supports desktop embedded = true) : s.require c desktop embedded b = .ok () :=
  if_pos h

theorem require_eq_error {s : Settings} {c : Construct} {desktop embedded : UInt32} {b : Span}
    (h : ¬s.supports desktop embedded = true) :
    ∃ e, s.require c desktop embedded b = .error e ∧ ¬IsConflict e :=
  ⟨_, if_neg h, id⟩

/-- An external that fits is written on its lines. -/
theorem writeExternal_of_fits (hsets : p.settings.usesDescriptorSets = false)
    (hw : w.isOpen = false) (h : Fits p v) :
    writeExternal p v (flatText p.settings v) w = .ok ((flatLines p v).foldl Writer.line w) := by
  unfold Fits at h
  unfold writeExternal flatText isBound flatLines
  cases hresource : Resource.of v with
  | sampler => simp only [reduceCtorEq, ne_eq, not_false_eq_true, decide_true, if_true,
      layoutText_single, List.foldl_cons, List.foldl_nil, pure, Except.pure]
  | uniformBlock =>
      rw [hresource] at h
      simp only [reduceCtorEq, ne_eq, not_false_eq_true, decide_true, if_true, layoutText_pair,
        require_of_supports h.1, Except.ok_bind]
      exact buffer_eq_ok hw h.2 _
  | storageBlock =>
      rw [hresource] at h
      simp only [reduceCtorEq, ne_eq, not_false_eq_true, decide_true, if_true, layoutText_pair,
        require_of_supports h.1, Except.ok_bind]
      exact buffer_eq_ok hw h.2 _
  | value => simp only [hsets, Bool.false_eq_true, if_false, List.foldl_cons, List.foldl_nil,
      pure, Except.pure]

/-- Any other external is refused, for another reason than its place. -/
theorem writeExternal_of_not_fits (h : ¬Fits p v) (binding : Option String) :
    ∃ e, writeExternal p v binding w = .error e ∧ ¬IsConflict e := by
  have hrefused {c : Construct} {desktop embedded : UInt32} (header : String)
      (h : ¬(p.settings.supports desktop embedded = true ∧ (body? p v).isSome)) :
      ∃ e, (do
        p.settings.require c desktop embedded v.span
        writeExternal.buffer p v w header) = .error e ∧ ¬IsConflict e := by
    by_cases hsupports : p.settings.supports desktop embedded = true
    · rw [require_of_supports hsupports]
      exact buffer_eq_error (fun hbody => h ⟨hsupports, hbody⟩) header
    · obtain ⟨e, he, hconflict⟩ := require_eq_error (c := c) (b := v.span) hsupports
      rw [he]
      exact ⟨e, rfl, hconflict⟩
  unfold Fits at h
  unfold writeExternal
  cases hresource : Resource.of v with
  | sampler => simp [hresource] at h
  | value => simp [hresource] at h
  | uniformBlock =>
      rw [hresource] at h
      exact hrefused _ h
  | storageBlock =>
      rw [hresource] at h
      exact hrefused _ h

end External

section Row

variable {s : Settings} {before : List ExternalVariable} {v : ExternalVariable}

/-- The places that externals of the row have taken, the latest first. -/
def takenBy (s : Settings) (vs : List ExternalVariable) : Taken :=
  ((vs.filter isBound).map fun v => ((0, flatBinding s v), v)).reverse

/-- The report that an external meets an earlier one. -/
def conflict (s : Settings) (u v : ExternalVariable) : CodegenError :=
  .bindingConflict u.name v.name (flatBinding s v) v.span u.span

/-- An external meets an earlier one. -/
def Meets (s : Settings) (u v : ExternalVariable) : Prop :=
  isBound u = true ∧ isBound v = true ∧ flatBinding s u = flatBinding s v

/-- Bindings are flattened one by one. -/
theorem flatBindings_append (vs vs' : List ExternalVariable) :
    flatBindings s (vs ++ vs') = flatBindings s vs ++ flatBindings s vs' := by
  rw [flatBindings, List.filter_append, List.map_append]
  rfl

theorem mem_flatBindings {n : Nat} :
    n ∈ flatBindings s before ↔ ∃ u ∈ before, isBound u = true ∧ flatBinding s u = n := by
  simp [flatBindings, and_assoc]

theorem bindingKey_eq (hsets : s.usesDescriptorSets = false) (v : ExternalVariable) :
    bindingKey s v = (0, flatBinding s v) := by
  simp [bindingKey, hsets, flatBinding, exactBinding]

theorem isPlaced_eq (hsets : s.usesDescriptorSets = false) (v : ExternalVariable) :
    isPlaced s v = isBound v := by
  simp [isPlaced, hsets, isBound]

theorem mem_takenBy {key : Nat × Nat} {u : ExternalVariable} :
    (key, u) ∈ takenBy s before ↔
      u ∈ before ∧ isBound u = true ∧ key = (0, flatBinding s u) := by
  simp only [takenBy, List.mem_reverse, List.mem_map, List.mem_filter, Prod.mk.injEq]
  constructor
  · rintro ⟨x, ⟨hx, hbound⟩, hkey, rfl⟩
    exact ⟨hx, hbound, hkey.symm⟩
  · rintro ⟨hu, hbound, hkey⟩
    exact ⟨u, ⟨hu, hbound⟩, hkey.symm, rfl⟩

/-- What is found at a place is an earlier external that was put there. -/
theorem of_lookup_takenBy {n : Nat} {u : ExternalVariable}
    (h : (takenBy s before).lookup (0, n) = some u) :
    u ∈ before ∧ isBound u = true ∧ flatBinding s u = n := by
  obtain ⟨front, back, hsplit, -⟩ := List.lookup_eq_some_iff.mp h
  have hmem : ((0, n), u) ∈ takenBy s before := by
    rw [hsplit]
    simp
  obtain ⟨hu, hbound, hkey⟩ := mem_takenBy.mp hmem
  exact ⟨hu, hbound, (Prod.mk.inj hkey).2.symm⟩

/-- A number is free where no variable before has it. -/
theorem lookup_takenBy_eq_none_iff {n : Nat} :
    (takenBy s before).lookup (0, n) = none ↔ n ∉ flatBindings s before := by
  rw [List.lookup_eq_none_iff, mem_flatBindings]
  constructor
  · rintro h ⟨u, hu, hbound, rfl⟩
    exact absurd (h _ (mem_takenBy.mpr ⟨hu, hbound, rfl⟩)) (by simp)
  · rintro h ⟨key, u⟩ hmem
    obtain ⟨hu, hbound, rfl⟩ := mem_takenBy.mp hmem
    simp only [bne_iff_ne, ne_eq, Prod.mk.injEq, true_and]
    exact fun heq => h ⟨u, hu, hbound, heq.symm⟩

/-- A number that is taken is a conflict with the variable that has it. -/
theorem place_of_meets (hwrites : s.writesBindings = true) (hsets : s.usesDescriptorSets = false)
    (hbound : isBound v = true) (h : flatBinding s v ∈ flatBindings s before) :
    ∃ u ∈ before, Meets s u v ∧ place s (takenBy s before) v = .error (conflict s u v) := by
  obtain ⟨u, hu⟩ := Option.ne_none_iff_exists'.mp
    fun hnone => lookup_takenBy_eq_none_iff.mp hnone h
  obtain ⟨hmem, hubound, hplace⟩ := of_lookup_takenBy hu
  refine ⟨u, hmem, ⟨hubound, hbound, hplace⟩, ?_⟩
  simp [place, isPlaced_eq hsets, hbound, hwrites, bindingKey_eq hsets, hu, conflict]

/-- An external that meets no earlier one gets its place. -/
theorem place_of_free (hwrites : s.writesBindings = true) (hsets : s.usesDescriptorSets = false)
    (h : isBound v = true → flatBinding s v ∉ flatBindings s before) :
    place s (takenBy s before) v = .ok (flatText s v, takenBy s (before ++ [v])) := by
  cases hbound : isBound v with
  | false => simp [place, isPlaced_eq hsets, hbound, flatText, takenBy]
  | true =>
      have hnone := lookup_takenBy_eq_none_iff.mpr (h hbound)
      have htaken : takenBy s (before ++ [v]) =
          ((0, flatBinding s v), v) :: takenBy s before := by
        simp [takenBy, hbound]
      simp [place, isPlaced_eq hsets, hbound, hwrites, bindingKey_eq hsets, hnone, flatText,
        bindingText, hsets, htaken]

/-- One more variable keeps the numbers apart where its own is free. -/
theorem nodup_flatBindings_snoc_iff :
    (flatBindings s (before ++ [v])).Nodup ↔
      (flatBindings s before).Nodup ∧
        (isBound v = true → flatBinding s v ∉ flatBindings s before) := by
  rw [flatBindings_append]
  cases hbound : isBound v with
  | false => simp [flatBindings, hbound]
  | true =>
      have hsnoc : flatBindings s [v] = [flatBinding s v] := by simp [flatBindings, hbound]
      rw [hsnoc, ← List.concat_eq_append, List.nodup_concat]
      simp [and_comm]

/-- Externals of different places are met by different ones. -/
theorem eq_of_meets (hnodup : (flatBindings s before).Nodup) {u u' : ExternalVariable}
    (hu : u ∈ before) (hu' : u' ∈ before) (h : Meets s u v) (h' : Meets s u' v) : u = u' :=
  List.inj_on_of_nodup_map hnodup (List.mem_filter.mpr ⟨hu, h.1⟩)
    (List.mem_filter.mpr ⟨hu', h'.1⟩) (h.2.2.trans h'.2.2.symm)

end Row

section Externals

variable {p : Program} {before vs : List ExternalVariable} {w : Writer}

/-- An external after those before it: it meets one of them, or it does not fit, or the rest is
written after its lines. -/
theorem writeExternals_cons (hwrites : p.settings.writesBindings = true)
    (hsets : p.settings.usesDescriptorSets = false) (hw : w.isOpen = false)
    (hnodup : (flatBindings p.settings before).Nodup) (v : ExternalVariable)
    (vs : List ExternalVariable) :
    (∃ u ∈ before, Meets p.settings u v ∧
      writeExternals p (takenBy p.settings before) (v :: vs) w =
        .error (conflict p.settings u v)) ∨
    (flatBindings p.settings (before ++ [v])).Nodup ∧
      (¬Fits p v ∧ (∃ e, writeExternals p (takenBy p.settings before) (v :: vs) w = .error e ∧
          ¬IsConflict e) ∨
        Fits p v ∧ writeExternals p (takenBy p.settings before) (v :: vs) w =
          writeExternals p (takenBy p.settings (before ++ [v])) vs
            ((flatLines p v).foldl Writer.line w)) := by
  rw [writeExternals]
  by_cases hfree : isBound v = true → flatBinding p.settings v ∉ flatBindings p.settings before
  · right
    refine ⟨nodup_flatBindings_snoc_iff.mpr ⟨hnodup, hfree⟩, ?_⟩
    rw [place_of_free hwrites hsets hfree]
    by_cases hfits : Fits p v
    · right
      simp only [Except.ok_bind, writeExternal_of_fits hsets hw hfits]
      exact ⟨hfits, trivial⟩
    · left
      obtain ⟨e, he, hconflict⟩ := writeExternal_of_not_fits (w := w) hfits
        (flatText p.settings v)
      simp only [Except.ok_bind, he]
      exact ⟨hfits, e, rfl, hconflict⟩
  · left
    push Not at hfree
    obtain ⟨u, hu, hmeets, hplace⟩ := place_of_meets hwrites hsets hfree.1 hfree.2
    rw [hplace]
    exact ⟨u, hu, hmeets, rfl⟩

/-- The section is written exactly if all externals fit and no two have the same place, and then
it is their lines, in source order. -/
theorem writeExternals_eq_ok_iff (hwrites : p.settings.writesBindings = true)
    (hsets : p.settings.usesDescriptorSets = false) (hw : w.isOpen = false)
    (hnodup : (flatBindings p.settings before).Nodup) {w' : Writer} :
    writeExternals p (takenBy p.settings before) vs w = .ok w' ↔
      (∀ v ∈ vs, Fits p v) ∧ (flatBindings p.settings (before ++ vs)).Nodup ∧
        w' = (vs.flatMap (flatLines p)).foldl Writer.line w := by
  induction vs generalizing before w with
  | nil => simp [writeExternals, pure, Except.pure, hnodup, eq_comm]
  | cons v vs ih =>
      rw [List.append_cons, List.forall_mem_cons, List.flatMap_cons, List.foldl_append]
      rcases writeExternals_cons hwrites hsets hw hnodup v vs with
        ⟨u, hu, hmeets, he⟩ | ⟨hsnoc, ⟨hfits, e, he, -⟩ | ⟨hfits, heq⟩⟩
      · rw [he]
        refine ⟨fun h => (by cases h), ?_⟩
        rintro ⟨-, hall, -⟩
        rw [flatBindings_append] at hall
        have hfree := (nodup_flatBindings_snoc_iff.mp hall.of_append_left).2 hmeets.2.1
        exact absurd (mem_flatBindings.mpr ⟨u, hu, hmeets.1, hmeets.2.2⟩) hfree
      · rw [he]
        refine ⟨fun h => (by cases h), ?_⟩
        rintro ⟨⟨h, -⟩, -⟩
        exact absurd h hfits
      · rw [heq, ih (isOpen_foldl_line hw _) hsnoc]
        simp only [hfits, true_and]

/-- The section ends with a conflict exactly if an external meets an earlier one and nothing is
wrong before. -/
theorem writeExternals_eq_conflict_iff (vs : List ExternalVariable)
    (hwrites : p.settings.writesBindings = true)
    (hsets : p.settings.usesDescriptorSets = false) (hw : w.isOpen = false)
    (hnodup : (flatBindings p.settings before).Nodup) {e : CodegenError} (he : IsConflict e) :
    writeExternals p (takenBy p.settings before) vs w = .error e ↔
      ∃ earlier v later, vs = earlier ++ v :: later ∧ (∀ x ∈ earlier, Fits p x) ∧
        (flatBindings p.settings (before ++ earlier)).Nodup ∧
        ∃ u ∈ before ++ earlier, Meets p.settings u v ∧ e = conflict p.settings u v := by
  induction vs generalizing before w with
  | nil => simp [writeExternals, pure, Except.pure]
  | cons v vs ih =>
      have hfirst (hsnoc : (flatBindings p.settings (before ++ [v])).Nodup)
          {u : ExternalVariable} (hu : u ∈ before) : ¬Meets p.settings u v := fun hmeets =>
        (nodup_flatBindings_snoc_iff.mp hsnoc).2 hmeets.2.1
          (mem_flatBindings.mpr ⟨u, hu, hmeets.1, hmeets.2.2⟩)
      rcases writeExternals_cons hwrites hsets hw hnodup v vs with
        ⟨u, hu, hmeets, herror⟩ | ⟨hsnoc, ⟨hfits, e', he', hother⟩ | ⟨hfits, heq⟩⟩
      · rw [herror]
        constructor
        · intro h
          cases h
          exact ⟨[], v, vs, rfl, by simp, by simpa using hnodup, u, by simpa using hu, hmeets, rfl⟩
        · rintro ⟨earlier, x, later, hvs, -, hall, y, hy, hyx, rfl⟩
          cases earlier with
          | nil =>
              cases hvs
              rw [eq_of_meets hnodup hu (by simpa using hy) hmeets hyx]
          | cons first earlier =>
              cases hvs
              rw [List.append_cons, flatBindings_append] at hall
              exact absurd hmeets (hfirst hall.of_append_left hu)
      · rw [he']
        constructor
        · intro h
          cases h
          exact absurd he hother
        · rintro ⟨earlier, x, later, hvs, hearlier, -, y, hy, hyx, rfl⟩
          cases earlier with
          | nil =>
              cases hvs
              exact absurd hyx (hfirst hsnoc (by simpa using hy))
          | cons first earlier =>
              cases hvs
              exact absurd (hearlier _ List.mem_cons_self) hfits
      · rw [heq, ih (isOpen_foldl_line hw _) hsnoc]
        constructor
        · rintro ⟨earlier, x, later, rfl, hearlier, hall, hmeet⟩
          rw [← List.append_cons] at hall hmeet
          exact ⟨v :: earlier, x, later, rfl, List.forall_mem_cons.mpr ⟨hfits, hearlier⟩, hall,
            hmeet⟩
        · rintro ⟨earlier, x, later, hvs, hearlier, hall, y, hy, hyx, rfl⟩
          cases earlier with
          | nil =>
              cases hvs
              exact absurd hyx (hfirst hsnoc (by simpa using hy))
          | cons first earlier =>
              cases hvs
              rw [List.append_cons] at hall hy
              exact ⟨earlier, x, later, rfl, (List.forall_mem_cons.mp hearlier).2, hall, y, hy,
                hyx, rfl⟩

/-- With bindings and without descriptor sets, whatever sets, bindings and numbers of bindings to
a set: the externals are written in source order, each sampler and each buffer with the place of
its own that it is put at, and a conflict is reported exactly if one of them is put at the place
of an earlier one, the first such one with the one it meets. -/
theorem writeExternals_flattened (p : Program) (vs : List ExternalVariable) (w : Writer)
    (hwrites : p.settings.writesBindings = true)
    (hsets : p.settings.usesDescriptorSets = false) (hw : w.isOpen = false) :
    (∀ w', writeExternals p [] vs w = .ok w' ↔
      (∀ v ∈ vs, Fits p v) ∧ (flatBindings p.settings vs).Nodup ∧
        w' = (vs.flatMap (flatLines p)).foldl Writer.line w) ∧
    ∀ first second n b b',
      writeExternals p [] vs w = .error (.bindingConflict first second n b b') ↔
        ∃ earlier v later, vs = earlier ++ v :: later ∧ (∀ x ∈ earlier, Fits p x) ∧
          (flatBindings p.settings earlier).Nodup ∧
          ∃ u ∈ earlier, Meets p.settings u v ∧ first = u.name ∧ second = v.name ∧
            n = flatBinding p.settings v ∧ b = v.span ∧ b' = u.span := by
  have hnodup : (flatBindings p.settings []).Nodup := List.nodup_nil
  constructor
  · intro w'
    exact writeExternals_eq_ok_iff hwrites hsets hw hnodup
  · intro first second n b b'
    have he : IsConflict (.bindingConflict first second n b b') := trivial
    have hiff := writeExternals_eq_conflict_iff vs hwrites hsets hw hnodup he
    simp only [List.nil_append, conflict, CodegenError.bindingConflict.injEq] at hiff
    exact hiff

/-- A sampler of a fragment stage. -/
def sampler (name : String) (set binding : Nat) : ExternalVariable :=
  ⟨name, .sampler .float .two, set, binding, false, Span.dummy⟩

/-- An empty fragment stage. -/
def emptyStage : Program :=
  ⟨.desktop, ⟨"main", [], .void, some ⟨.fragment, none⟩⟩, .fragment, []⟩

/-- Two samplers of one set have places of their own, and one of another set may not be put at
the place of an earlier one. -/
theorem samplers_flattened :
    writeExternals emptyStage [] [sampler "A" 2 1, sampler "B" 2 2] .empty =
        .ok ((Writer.empty.line "layout(binding = 33) uniform sampler2D A;").line
          "layout(binding = 34) uniform sampler2D B;") ∧
      writeExternals emptyStage [] [sampler "A" 2 1, sampler "B" 1 17] .empty =
        .error (.bindingConflict "A" "B" 33 Span.dummy Span.dummy) := by
  have hfits (name : String) (set binding : Nat) : Fits emptyStage (sampler name set binding) :=
    trivial
  constructor
  · apply ((writeExternals_flattened emptyStage [sampler "A" 2 1, sampler "B" 2 2] .empty
      (by decide) (by decide) rfl).1 _).mpr
    exact ⟨by simp [hfits], by decide, by rfl⟩
  · apply ((writeExternals_flattened emptyStage [sampler "A" 2 1, sampler "B" 1 17] .empty
      (by decide) (by decide) rfl).2 ..).mpr
    exact ⟨[sampler "A" 2 1], sampler "B" 1 17, [], rfl, by simp [hfits], by decide,
      sampler "A" 2 1, by simp, ⟨by decide, by decide, by decide⟩, rfl, rfl, by decide, rfl, rfl⟩

/-- Beyond the limit a place is not the exact one: a sampler is put at the limit, and two
samplers of different exact places are refused. -/
theorem samplers_beyond_limit :
    writeExternals emptyStage [] [sampler "A" 268435456 0] .empty =
        .ok (Writer.empty.line "layout(binding = 4294967295) uniform sampler2D A;") ∧
      exactBinding Settings.desktop (sampler "A" 268435456 0) = 4294967296 ∧
      writeExternals emptyStage [] [sampler "A" 268435456 0, sampler "B" 268435457 0] .empty =
        .error (.bindingConflict "A" "B" 4294967295 Span.dummy Span.dummy) ∧
      exactBinding Settings.desktop (sampler "B" 268435457 0) = 4294967312 :=
  ⟨by rfl, by decide, by rfl, by decide⟩

end Externals

end Glsl

end Shading
