import Shading.Proofs.Print.Kinds
import Shading.Proofs.Token.Reading

/-!
# Phrases

A phrase is a text that spells some tokens wherever a character of some kind, or nothing,
follows it. Printed text is put together from phrases.
-/

namespace Shading

namespace Lexer

/-- What may follow a word: a blank or a delimiter. -/
def breaks (c : Char) : Bool := isBlank c || isDelimiter c

/-- What may follow a blank: anything but a point. -/
def isFree (c : Char) : Bool := c ≠ '.'

/-- How the text of an expression starts. -/
def isOperandHead (c : Char) : Bool := c ≠ '.' && c ≠ '='

/-- The text is read as these tokens before the end of the text and before any such character. -/
def Phrase (p : Char → Bool) (s : String) (ks : List Kind) : Prop :=
  ∀ next, (∀ c ∈ next.head?, p c = true) → Spells next s.toList ks

/-- The text starts with such a character. -/
def Starts (p : Char → Bool) (s : String) : Prop := ∃ c ∈ s.toList.head?, p c = true

namespace Starts

variable {p q : Char → Bool} {s : String}

theorem mono (h : Starts p s) (hpq : ∀ c, p c = true → q c = true) : Starts q s := by
  obtain ⟨c, hc, hp⟩ := h
  exact ⟨c, hc, hpq c hp⟩

theorem append (h : Starts p s) (t : String) : Starts p (s ++ t) := by
  obtain ⟨c, hc, hp⟩ := h
  obtain ⟨cs, hcs⟩ := List.head?_eq_some_iff.mp hc
  exact ⟨c, by simp [hcs], hp⟩

end Starts

theorem mayPrecede_of_mem_delimiters {x : Symbol} (hx : x ∈ Symbol.delimiters) (c : Char) :
    (Kind.symbol x).mayPrecede c = true := by
  cases x <;> first | exact absurd hx (by decide) | simp [Kind.mayPrecede, Symbol.delimiters]

namespace Phrase

variable {p q : Char → Bool} {s t : String} {ks ls : List Kind}

theorem mono (h : Phrase p s ks) (hpq : ∀ c, q c = true → p c = true) : Phrase q s ks :=
  fun next hnext => h next fun c hc => hpq c (hnext c hc)

/-- Two phrases make one, where the second may follow the first. -/
theorem append (hs : Phrase p s ks) (ht : Phrase q t ls) (hstart : Starts p t) :
    Phrase q (s ++ t) (ks ++ ls) := by
  intro next hnext
  obtain ⟨c, hc, hp⟩ := hstart
  obtain ⟨cs, hcs⟩ := List.head?_eq_some_iff.mp hc
  have hleft : Spells (t.toList ++ next) s.toList ks := by
    apply hs
    intro d hd
    obtain rfl : c = d := by simpa [hcs] using hd
    exact hp
  rw [String.toList_append]
  exact hleft.append (ht next hnext)

theorem empty : Phrase p "" [] := fun _ _ => .nil

/-- A token that is no symbol, before a blank or a delimiter. -/
theorem word {k : Kind} (hs : s.toList = k.spelling) (hk : k.Spellable)
    (hsymbol : ∀ x, k ≠ .symbol x) : Phrase breaks s [k] := by
  intro next hnext
  rw [hs, ← List.append_nil k.spelling]
  refine .token hk ?_ .nil
  intro c hc
  have hbreaks : (isBlank c || isDelimiter c) = true := hnext c hc
  unfold Kind.mayPrecede
  split
  · exact absurd rfl (hsymbol _)
  · exact absurd rfl (hsymbol _)
  · exact hbreaks

theorem name (h : isName s = true) : Phrase breaks s [.ident s] :=
  word (k := .ident s) rfl h (by simp)

theorem keyword (k : Keyword) : Phrase breaks k.text [.keyword k] :=
  word (k := .keyword k) rfl trivial (by simp)

/-- A symbol before whatever may follow it. -/
theorem symbol {x : Symbol} (hs : s.toList = x.chars)
    (hx : ∀ c, p c = true → (Kind.symbol x).mayPrecede c = true) : Phrase p s [.symbol x] := by
  intro next hnext
  rw [hs, ← List.append_nil x.chars]
  exact .token (k := .symbol x) trivial (fun c hc => hx c (hnext c hc)) .nil

theorem delimiter {x : Symbol} (hs : s.toList = x.chars) (hx : x ∈ Symbol.delimiters) :
    Phrase p s [.symbol x] :=
  symbol hs fun c _ => mayPrecede_of_mem_delimiters hx c

end Phrase

/-- Whether a text is words and symbols, each with what may follow it, and ends with a blank
or a delimiter. -/
def spells (cs : List Char) : List Kind → Bool
  | [] => cs.all isBlank
  | k :: ks =>
    let cs := cs.dropWhile isBlank
    let rest := cs.drop k.spelling.length
    k.spelling.isPrefixOf cs &&
      (match k with
        | .ident name => isName name
        | .keyword _ => true
        | .symbol s => s != .dot
        | _ => false) &&
      (match rest with
        | [] => Symbol.delimiters.any (Kind.symbol · = k)
        | c :: _ => k.mayPrecede c) &&
      spells rest ks

/-- Blanks before a text do not change what it spells. -/
theorem Spells.blanks {next blanks cs : List Char} {ks : List Kind}
    (hblanks : ∀ c ∈ blanks, isBlank c = true) (hdot : Stops (· = '.') (cs ++ next))
    (h : Spells next cs ks) : Spells next (blanks ++ cs) ks := by
  induction blanks with
  | nil => exact h
  | cons c blanks ih =>
      have htail : ∀ d ∈ blanks, isBlank d = true := fun d hd =>
          hblanks d (List.mem_cons_of_mem _ hd)
      refine .blank (hblanks c (by simp)) ?_ (ih htail)
      cases blanks with
      | nil => exact hdot
      | cons d blanks =>
          refine .cons (decide_eq_false ?_)
          rintro rfl
          exact absurd (htail '.' (by simp)) (by decide)

theorem spells_of_spells_eq_true {next cs : List Char} {ks : List Kind} (h : spells cs ks = true)
    (hnext : ∀ c ∈ next.head?, isFree c = true) : Spells next cs ks := by
  have hstop : Stops (· = '.') next := by
    intro c hc
    have hfree := hnext c hc
    simpa [isFree] using hfree
  induction ks generalizing cs with
  | nil =>
      have hblanks : ∀ c ∈ cs, isBlank c = true := by simpa [spells] using h
      rw [← List.append_nil cs]
      exact Spells.blanks hblanks hstop .nil
  | cons k ks ih =>
      simp only [spells, Bool.and_eq_true, List.isPrefixOf_iff_prefix] at h
      obtain ⟨⟨⟨⟨rest, hrest⟩, hplain⟩, hbefore⟩, htail⟩ := h
      rw [← hrest, List.drop_left] at hbefore htail
      have hsplit : cs = cs.takeWhile isBlank ++ (k.spelling ++ rest) := by
        rw [hrest, List.takeWhile_append_dropWhile]
      have hk : k.Spellable := by
        cases k <;> first | exact hplain | trivial
      have hdot : k ≠ .symbol .dot := by
        rintro rfl
        exact absurd hplain (by decide)
      have hafter : k.Before (rest ++ next) := by
        intro c hc
        cases rest with
        | nil =>
            obtain ⟨x, hx, hxk⟩ := List.any_eq_true.mp hbefore
            obtain rfl : Kind.symbol x = k := by simpa using hxk
            exact mayPrecede_of_mem_delimiters hx c
        | cons d rest =>
            obtain rfl : d = c := by simpa using hc
            exact hbefore
      rw [hsplit]
      refine Spells.blanks (List.all_eq_true.mp List.all_takeWhile) ?_ (.token hk hafter (ih htail))
      obtain ⟨c, tail, hspell, -, hc⟩ := spelling_eq_cons hk
      rw [hspell]
      exact .cons (decide_eq_false fun hpoint => hdot (hc.mp hpoint))

/-- A fixed text that is checked. -/
theorem Phrase.fixed {s : String} {ks : List Kind} (h : spells s.toList ks = true) :
    Phrase isFree s ks :=
  fun _ hnext => spells_of_spells_eq_true h hnext

end Lexer

end Shading
