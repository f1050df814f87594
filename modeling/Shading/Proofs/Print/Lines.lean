import Mathlib.Data.List.Chain
import Shading.Print.Emitter

/-!
# Texts that are fed in line by line

An emitter takes a text apart into lines and writes each of them with a line feed of its own.
What it has written is the text if and only if the last line of the text has its line feed and
no line ends with a carriage return, which would be taken for a part of the line end.
-/

namespace Shading

/-- No carriage return stands right before a line feed. -/
def Unpaired (cs : List Char) : Prop := cs.IsChain fun a b => a = '\r' → b ≠ '\n'

/-- The text is empty or its last line has its line feed. -/
def EndsLine (cs : List Char) : Prop := ∀ c ∈ cs.getLast?, c = '\n'

namespace Unpaired

variable {as bs : List Char}

/-- Unpaired texts stay so together, unless the first ends and the second begins a line ending of
two characters. -/
theorem append_iff : Unpaired (as ++ bs) ↔
    Unpaired as ∧ Unpaired bs ∧ (as.getLast? = some '\r' → bs.head? ≠ some '\n') := by
  rw [Unpaired, List.isChain_append]
  refine and_congr_right fun _ => and_congr_right fun _ => ?_
  constructor
  · intro h hlast hhead
    exact h '\r' hlast '\n' hhead rfl rfl
  · rintro h _ hlast _ hhead rfl rfl
    exact h hlast hhead

/-- Without a carriage return nothing is paired. -/
theorem of_notMem (h : '\r' ∉ as) : Unpaired as := by
  apply List.Pairwise.isChain
  apply List.pairwise_of_forall_mem_list
  rintro _ hr _ _ rfl
  exact absurd hr h

theorem of_notMem_newline (h : '\n' ∉ as) : Unpaired as := by
  apply List.Pairwise.isChain
  apply List.pairwise_of_forall_mem_list
  rintro _ _ _ hn _ rfl
  exact absurd hn h

theorem cons_newline : Unpaired ('\n' :: as) ↔ Unpaired as := by
  have hsingle : Unpaired ['\n'] := .of_notMem (by decide)
  rw [← List.singleton_append, append_iff]
  simp [hsingle]

end Unpaired

/-- What ends a line does so without what is before it. -/
theorem EndsLine.of_append {as bs : List Char} (h : EndsLine (as ++ bs)) : EndsLine bs := by
  intro c hc
  apply h
  rw [List.getLast?_append, hc]
  rfl

theorem EndsLine.tail {c : Char} {cs : List Char} (h : EndsLine (c :: cs)) : EndsLine cs := by
  rw [← List.singleton_append] at h
  exact h.of_append

namespace Emitter

/-- Lines with a line feed after each of them. -/
def joined (lines : List (List Char)) : List Char := lines.flatMap (· ++ ['\n'])

/-- Emitting a line appends it with a newline. -/
theorem text_emitLine (e : Emitter) (line : List Char) :
    (e.emitLine line).text = e.text ++ String.ofList (line ++ ['\n']) := by
  have hspaces : List.replicate (line.length - (line.dropWhile (· = ' ')).length) ' '
      = line.takeWhile (· = ' ') := by
    have hsplit : line.takeWhile (· = ' ') ++ line.dropWhile (· = ' ') = line :=
      List.takeWhile_append_dropWhile
    have hlength := congrArg List.length hsplit
    rw [List.length_append] at hlength
    symm
    rw [List.eq_replicate_iff]
    refine ⟨by omega, fun c hc => ?_⟩
    simpa using List.all_eq_true.mp List.all_takeWhile c hc
  calc (e.emitLine line).text
      = e.text ++ String.ofList (line.takeWhile (· = ' ')) ++
          String.ofList (line.dropWhile (· = ' ')) ++ String.ofList ['\n'] := by
        simp only [emitLine, newline, emit, indent, hspaces]
    _ = e.text ++ String.ofList
          (line.takeWhile (· = ' ') ++ line.dropWhile (· = ' ') ++ ['\n']) := by
        simp only [String.ofList_append, String.append_assoc]
    _ = e.text ++ String.ofList (line ++ ['\n']) := by rw [List.takeWhile_append_dropWhile]

/-- Emitting a text appends its lines, each with a newline. -/
theorem text_emitLines (e : Emitter) (text : String) :
    (e.emitLines text).text = e.text ++ String.ofList (joined (linesOf [] text.toList)) := by
  rw [emitLines]
  generalize linesOf [] text.toList = lines
  induction lines generalizing e with
  | nil => simp [joined]
  | cons line rest ih =>
      rw [List.foldl_cons, ih, text_emitLine, String.append_assoc, ← String.ofList_append]
      rfl

section Lines

variable {line cs : List Char}

theorem eq_nil_of_endsLine (hline : '\n' ∉ line) (h : EndsLine line.reverse) : line = [] := by
  cases line with
  | nil => rfl
  | cons c rest =>
      obtain rfl : c = '\n' := h c (by simp)
      exact absurd List.mem_cons_self hline

/-- A character that ends no line belongs to the line that is read. -/
theorem linesOf_cons {c : Char} (hc : c ≠ '\n') (line cs : List Char) :
    linesOf line (c :: cs) = linesOf (c :: line) cs := by
  rw [linesOf]
  exact hc

theorem joined_linesOf_newline (h : line.head? ≠ some '\r') (cs : List Char) :
    joined (linesOf line ('\n' :: cs)) = line.reverse ++ '\n' :: joined (linesOf [] cs) := by
  have hcontent : linesOf line ('\n' :: cs) = line.reverse :: linesOf [] cs := by
    rw [linesOf]
    rintro front rfl
    exact h rfl
  rw [hcontent]
  simp [joined]

theorem joined_linesOf_pair (line cs : List Char) :
    joined (linesOf ('\r' :: line) ('\n' :: cs)) =
      line.reverse ++ '\n' :: joined (linesOf [] cs) := by
  simp [joined, linesOf]

/-- Taking lines apart never makes a text longer: a line end has one character at least. -/
theorem length_joined_le (hline : '\n' ∉ line) (h : EndsLine (line.reverse ++ cs)) :
    (joined (linesOf line cs)).length ≤ line.length + cs.length := by
  induction cs generalizing line with
  | nil =>
      obtain rfl := eq_nil_of_endsLine hline (by simpa using h)
      rfl
  | cons c rest ih =>
      by_cases hc : c = '\n'
      · subst hc
        have hrest : (joined (linesOf [] rest)).length ≤ rest.length := by
          simpa using ih List.not_mem_nil h.of_append.tail
        by_cases hpair : line.head? = some '\r'
        · obtain ⟨front, rfl⟩ := List.head?_eq_some_iff.mp hpair
          rw [joined_linesOf_pair]
          simp only [List.length_append, List.length_reverse, List.length_cons]
          omega
        · rw [joined_linesOf_newline hpair]
          simp only [List.length_append, List.length_reverse, List.length_cons]
          omega
      · rw [linesOf_cons hc]
        have hmore := @ih (c :: line) (by simp [Ne.symm hc, hline]) (by simpa using h)
        simp only [List.length_cons] at hmore ⊢
        omega

/-- Lines put together again are the text they were taken from, unless a pair was among it. -/
theorem joined_linesOf_iff (hline : '\n' ∉ line) (h : EndsLine (line.reverse ++ cs)) :
    joined (linesOf line cs) = line.reverse ++ cs ↔ Unpaired (line.reverse ++ cs) := by
  induction cs generalizing line with
  | nil =>
      obtain rfl := eq_nil_of_endsLine hline (by simpa using h)
      simp [linesOf, joined, Unpaired]
  | cons c rest ih =>
      by_cases hc : c = '\n'
      · subst hc
        have hends : EndsLine rest := h.of_append.tail
        have hrest : joined (linesOf [] rest) = rest ↔ Unpaired rest := by
          simpa using ih List.not_mem_nil hends
        by_cases hpair : line.head? = some '\r'
        · obtain ⟨front, rfl⟩ := List.head?_eq_some_iff.mp hpair
          have hless := length_joined_le List.not_mem_nil (by simpa using hends)
          rw [joined_linesOf_pair]
          constructor
          · intro heq
            have hlength := congrArg List.length heq
            simp only [List.length_append, List.length_reverse, List.length_cons] at hlength
            simp only [List.length_nil] at hless
            omega
          · intro hunpaired
            have hlast := (Unpaired.append_iff.mp hunpaired).2.2
            exact absurd rfl (hlast (by simp))
        · have hfront : Unpaired line.reverse := .of_notMem_newline (by simpa using hline)
          rw [joined_linesOf_newline hpair, List.append_cancel_left_eq, List.cons.injEq, hrest,
            Unpaired.append_iff, Unpaired.cons_newline]
          simp [hfront, hpair]
      · rw [linesOf_cons hc]
        simpa using @ih (c :: line) (by simp [Ne.symm hc, hline]) (by simpa using h)

end Lines

/-- An emitter that is fed a text whose last line is closed has the text at its end, with nothing
lost or added, if and only if no line of the text ends with a carriage return. -/
theorem emitLines_eq_append_iff (e : Emitter) {text : String} (h : EndsLine text.toList) :
    e.emitLines text = ⟨e.text ++ text⟩ ↔ Unpaired text.toList := by
  have hlines := joined_linesOf_iff List.not_mem_nil (by simpa using h)
  rw [List.reverse_nil, List.nil_append] at hlines
  rw [← hlines]
  constructor
  · intro heq
    have htext := congrArg Emitter.text heq
    rw [text_emitLines, String.append_right_inj] at htext
    simpa using congrArg String.toList htext
  · intro heq
    rw [Emitter.mk.injEq]
    rw [text_emitLines, heq, String.ofList_toList]

end Emitter

end Shading
