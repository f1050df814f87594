import Shading.Proofs.Print.Expr

/-!
# What a writer has written

A writer that has spelled some tokens goes on spelling when a phrase is pushed: on a new line
the indentation comes first, on an open line the phrase has to start with something that may
stand there.
-/

namespace Shading

open Lexer (Phrase Starts breaks isFree Spells)

namespace Lexer

/-- What may follow an expression where no member does. -/
def separates (c : Char) : Bool := breaks c && isFree c

theorem isFree_of_separates {c : Char} (h : separates c = true) : isFree c = true :=
  (Bool.and_eq_true_iff.mp h).2

theorem Phrase.separated {s : String} {ks : List Kind} (h : Phrase breaks s ks) :
    Phrase separates s ks := h.mono fun _ hc => (Bool.and_eq_true_iff.mp hc).1

/-- A phrase with blanks before it. -/
theorem Phrase.indented {p : Char → Bool} {s : String} {ks : List Kind} (h : Phrase p s ks)
    (hstart : Starts isFree s) (n : Nat) :
    Phrase p (String.ofList (List.replicate n ' ') ++ s) ks ∧
      Starts isFree (String.ofList (List.replicate n ' ') ++ s) := by
  obtain ⟨c, hc, hfree⟩ := hstart
  obtain ⟨cs, hcs⟩ := List.head?_eq_some_iff.mp hc
  refine ⟨?_, ?_⟩
  · intro next hnext
    rw [String.toList_append, String.toList_ofList]
    refine Spells.blanks ?_ ?_ (h next hnext)
    · intro d hd
      obtain rfl := List.eq_of_mem_replicate hd
      rfl
    · rw [hcs]
      exact .cons (by simpa [isFree] using hfree)
  · cases n with
    | zero => exact ⟨c, by simp [hcs], hfree⟩
    | succ n => exact ⟨' ', by simp [List.replicate_succ], rfl⟩

end Lexer

open Lexer (separates)

namespace Writer

variable {p q : Char → Bool} {w : Writer} {s : String} {ks ls : List Kind}

theorem text_append (w : Writer) (s : String) : (w.append s).text = w.text ++ s := by
  simp [text, append, String.ofList_append]

theorem text_push_of_isOpen (h : w.isOpen = true) (s : String) : (w.push s).text = w.text ++ s := by
  simp only [push, h, if_true, text_append]

theorem text_push_of_not_isOpen (h : w.isOpen = false) (s : String) : (w.push s).text
    = w.text ++ (String.ofList (List.replicate (4 * w.depth) ' ') ++ s) := by
  simp [push, h, text, String.ofList_append]

/-- The text spells the tokens before a character with the property, and on a new line before
any character but a point. -/
structure Writes (p : Char → Bool) (w : Writer) (ks : List Kind) : Prop where
  phrase : Phrase p w.text ks
  closed : w.isOpen = false → Phrase isFree w.text ks

namespace Writes

theorem empty : Writes isFree Writer.empty [] := ⟨.empty, fun _ => .empty⟩

theorem indent (h : Writes p w ks) : Writes p w.indent ks := ⟨h.phrase, h.closed⟩

theorem dedent (h : Writes p w ks) : Writes p w.dedent ks := ⟨h.phrase, h.closed⟩

/-- The general rule for a phrase on the current line. -/
theorem pushed (h : Writes p w ks) (hs : Phrase q s ls) (hstart : Starts p s)
    (hfree : Starts isFree s) : Writes q (w.push s) (ks ++ ls) := by
  cases hopen : w.isOpen with
  | true =>
      refine ⟨?_, fun hclosed => ?_⟩
      · rw [text_push_of_isOpen hopen]
        exact h.phrase.append hs hstart
      · simp [push, hopen, append] at hclosed
  | false =>
      obtain ⟨hpad, hpadstart⟩ := hs.indented hfree (4 * w.depth)
      refine ⟨?_, fun hclosed => ?_⟩
      · rw [text_push_of_not_isOpen hopen]
        exact (h.closed hopen).append hpad hpadstart
      · simp [push, hopen] at hclosed

theorem push (h : Writes isFree w ks) (hs : Phrase q s ls) (hstart : Starts isFree s) :
    Writes q (w.push s) (ks ++ ls) := h.pushed hs hstart hstart

/-- After an expression, only what starts with a blank or a delimiter. -/
theorem pushAfter (h : Writes separates w ks) (hs : Phrase q s ls) (hstart : Starts separates s) :
    Writes q (w.push s) (ks ++ ls) :=
  h.pushed hs hstart (hstart.mono fun _ => Lexer.isFree_of_separates)

theorem space (h : Writes p w ks) (hp : p ' ' = true) : Writes isFree (w.append " ") ks := by
  have hblank : Phrase isFree " " [] := .fixed (by decide)
  have hphrase := h.phrase.append hblank ⟨' ', rfl, hp⟩
  rw [List.append_nil] at hphrase
  refine ⟨?_, fun _ => ?_⟩ <;> rwa [text_append]

theorem close (h : Writes p w ks) (hp : p '\n' = true) : Writes isFree w.close ks := by
  cases hopen : w.isOpen with
  | true =>
      have hline : Phrase isFree "\n" [] := .fixed (by decide)
      have hphrase := h.phrase.append hline ⟨'\n', rfl, hp⟩
      rw [List.append_nil] at hphrase
      have htext : w.close.text = w.text ++ "\n" := by
        simp [Writer.close, hopen, text]
      exact ⟨htext ▸ hphrase, fun _ => htext ▸ hphrase⟩
  | false =>
      have heq : w.close = w := by simp [Writer.close, hopen]
      rw [heq]
      exact ⟨h.closed hopen, h.closed⟩

theorem line (h : Writes isFree w ks) (hs : Phrase isFree s ls) (hstart : Starts isFree s) :
    Writes isFree (w.line s) (ks ++ ls) := (h.push hs hstart).close rfl

theorem lineAfter (h : Writes separates w ks) (hs : Phrase isFree s ls)
    (hstart : Starts separates s) : Writes isFree (w.line s) (ks ++ ls) :=
  (h.pushAfter hs hstart).close rfl

theorem follow (h : Writes p w ks) (hp : p ' ' = true) (hs : Phrase q s ls)
    (hstart : Starts isFree s) : Writes q (w.follow s) (ks ++ ls) := by
  unfold Writer.follow
  cases hopen : w.isOpen with
  | true => exact (h.space hp).push hs hstart
  | false =>
      have hclosed : Writes isFree w ks := ⟨h.closed hopen, h.closed⟩
      exact hclosed.push hs hstart

theorem blankLine (h : Writes isFree w ks) : Writes isFree w.blankLine ks := by
  have hclose := h.close rfl
  unfold Writer.blankLine
  dsimp only
  split
  · exact hclose
  · exact hclose
  · have hline : Phrase isFree "\n" [] := .fixed (by decide)
    have hphrase := hclose.phrase.append hline ⟨'\n', rfl, rfl⟩
    rw [List.append_nil] at hphrase
    have htext : ({ w.close with reversed := '\n' :: w.close.reversed } : Writer).text
        = w.close.text ++ "\n" := by
      simp [text]
    exact ⟨htext ▸ hphrase, fun _ => htext ▸ hphrase⟩

/-- Lines one after another. -/
theorem lines {α : Type} {f : α → String} {g : α → List Kind} {xs : List α}
    (hxs : ∀ x ∈ xs, Phrase isFree (f x) (g x) ∧ Starts isFree (f x)) (h : Writes isFree w ks) :
    Writes isFree ((xs.map f).foldl Writer.line w) (ks ++ xs.flatMap g) := by
  induction xs generalizing w ks with
  | nil => simpa using h
  | cons x xs ih =>
      obtain ⟨hx, hstart⟩ := hxs x (by simp)
      have htail := ih (fun y hy => hxs y (List.mem_cons_of_mem _ hy)) (h.line hx hstart)
      simpa using htail

end Writes

end Writer

end Shading
