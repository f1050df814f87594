import Shading.Proofs.Binary32.Shortest
import Shading.Proofs.Token.Digits
import Shading.Token.Lexer

/-!
# Reading number literals

What the longest literal at the head of a text is when the text starts with the digits of
a number or with the text of a float.
-/

namespace Shading

/-- The text is empty or starts with a character that the test rejects. -/
def Stops (p : Char → Bool) (cs : List Char) : Prop := ∀ c ∈ cs.head?, p c = false

namespace Stops

variable {p : Char → Bool} {cs : List Char}

theorem nil : Stops p [] := by simp [Stops]

theorem cons {c : Char} (h : p c = false) : Stops p (c :: cs) := by simpa [Stops] using h

theorem mono {q : Char → Bool} (h : Stops p cs) (hq : ∀ c, q c = true → p c = true) :
    Stops q cs := by
  intro c hc
  have hp := h c hc
  cases hqc : q c with
  | false => rfl
  | true => exact absurd (hq c hqc) (by simp [hp])

theorem takeWhile_eq_nil (h : Stops p cs) : cs.takeWhile p = [] := by
  cases cs with
  | nil => rfl
  | cons c cs => simp [h c rfl]

/-- A run of accepted characters ends where the text stops. -/
theorem takeWhile_append (h : Stops p cs) {run : List Char} (hrun : ∀ c ∈ run, p c = true) :
    (run ++ cs).takeWhile p = run := by
  rw [List.takeWhile_append_of_pos hrun, h.takeWhile_eq_nil, List.append_nil]

end Stops

namespace Number

open Lexer (isWordChar isWordStart)

/-- A character that could continue decimal digits as digits or as a base. -/
def continuesDigits (c : Char) : Bool := isDigit c || c = 'x' || c = 'X'

/-- The literal of some decimal digits and what follows them. -/
def ofDigits (whole : List Char) : List Char → Literal
  | '.' :: rest =>
    let fraction := rest.takeWhile isDigit
    float (whole.length + 1 + fraction.length) whole fraction (rest.drop fraction.length)
  | rest =>
    if (exponent? rest).isSome then float whole.length whole [] rest
    else integer whole.length (value 10 whole) rest

/-- Decimal digits do not start a literal in base sixteen. -/
theorem hexDigits_eq_nil {whole tail : List Char} (hne : whole ≠ [])
    (hdigits : ∀ c ∈ whole, isDigit c = true) (hstop : Stops continuesDigits tail) (x : Char)
    (rest : List Char) (heq : whole ++ tail = '0' :: x :: rest) : ¬(x = 'x' ∨ x = 'X') := by
  match whole, hne with
  | [c], _ =>
    have htail : tail = x :: rest := by simpa using (List.cons.inj heq).2
    have hx := hstop x (by simp [htail])
    simp only [continuesDigits, Bool.or_eq_false_iff, decide_eq_false_iff_not] at hx
    tauto
  | c :: d :: ds, _ =>
    have hx : d = x := (List.cons.inj (List.cons.inj heq).2).1
    have hd := hdigits d (by simp)
    rintro (rfl | rfl) <;> subst hx <;> exact absurd hd (by decide)

/-- The literal at the head of a text that starts with decimal digits. -/
theorem literal?_of_digits {whole tail : List Char} (hne : whole ≠ [])
    (hdigits : ∀ c ∈ whole, isDigit c = true) (hstop : Stops continuesDigits tail) :
    literal? (whole ++ tail) = some (ofDigits whole tail) := by
  have hstop' : Stops isDigit tail := hstop.mono fun c hc => by simp [continuesDigits, hc]
  have hempty : whole.isEmpty = false := by simp [hne]
  have hplain : ∀ (out : Option Literal) (hex : List Char), hex = [] →
      (if hex.isEmpty = true then out
      else some (integer (2 + hex.length) (value 16 hex) ((whole ++ tail).drop (2 + hex.length))))
        = out := by
    rintro out hex rfl
    rfl
  unfold literal?
  simp only [hstop'.takeWhile_append hdigits, List.drop_left, hempty, Bool.false_eq_true, if_false]
  refine (hplain _ _ ?_).trans ?_
  · split
    · rename_i heq
      simp [hexDigits_eq_nil hne hdigits hstop _ _ heq]
    · rfl
  · split
    · rfl
    · rename_i hdot
      rw [ofDigits.eq_2 _ _ hdot]
      split
      · rfl
      · rfl

/-- Without a point, digits make an integer unless an exponent follows. -/
theorem ofDigits_of_ne_dot {whole tail : List Char} (h : Stops (· = '.') tail) :
    ofDigits whole tail = if (exponent? tail).isSome then float whole.length whole [] tail
      else integer whole.length (value 10 whole) tail := by
  refine ofDigits.eq_2 _ _ ?_
  rintro rest rfl
  exact absurd (h '.' rfl) (by decide)

theorem ofDigits_dot (whole : List Char) {fraction rest : List Char}
    (hfraction : ∀ c ∈ fraction, isDigit c = true) (hstop : Stops isDigit rest) :
    ofDigits whole ('.' :: (fraction ++ rest))
      = float (whole.length + 1 + fraction.length) whole fraction rest := by
  simp only [ofDigits, hstop.takeWhile_append hfraction, List.drop_left]

theorem exponent?_eq_none {cs : List Char} (h : Stops isWordChar cs) : exponent? cs = none := by
  cases cs with
  | nil => rfl
  | cons c cs =>
      have hc := h c rfl
      have hne : ¬(c = 'e' ∨ c = 'E') := by
        rintro (rfl | rfl) <;> exact absurd hc (by decide)
      simp [exponent?, hne]

theorem not_isDigit_of_not_isWordChar {cs : List Char} (h : Stops isWordChar cs) :
    Stops isDigit cs :=
  h.mono fun c hc => by simp [isWordChar, hc]

/-- The exponent part that a number is printed with. -/
theorem exponent?_text (e : Int) {rest : List Char} (hstop : Stops isDigit rest) :
    exponent? ('e' :: ((toString e).toList ++ rest)) = some
      (1 + (toString e).toList.length, e) := by
  have hdigits (n : Nat) : ((Nat.toDigits 10 n ++ rest).takeWhile isDigit) = Nat.toDigits 10 n :=
    hstop.takeWhile_append fun c => isDigit_of_mem_toDigits
  cases e with
  | ofNat n =>
      have htext : (toString (Int.ofNat n)).toList = Nat.toDigits 10 n := Nat.toList_repr
      obtain ⟨d, ds, hd⟩ := List.exists_cons_of_ne_nil (Nat.toDigits_ne_nil (n := n) (b := 10))
      have hdigit : isDigit d = true := isDigit_of_mem_toDigits (n := n) (by simp [hd])
      have hminus : d ≠ '-' := by
        rintro rfl
        exact absurd hdigit (by decide)
      have hplus : d ≠ '+' := by
        rintro rfl
        exact absurd hdigit (by decide)
      have hrun := hdigits n
      have hvalue := value_toDigits n
      rw [htext]
      rw [hd] at hrun hvalue ⊢
      simp only [exponent?, List.cons_append] at hrun ⊢
      simp [hminus, hplus, hrun, hvalue]
  | negSucc n =>
      have htext : (toString (Int.negSucc n)).toList = '-' :: Nat.toDigits 10 (n + 1) := by
        change ("-" ++ (n + 1).repr).toList = _
        simp
      have hrun := hdigits (n + 1)
      have hvalue := value_toDigits (n + 1)
      rw [htext]
      simp only [exponent?, List.cons_append]
      simp [hrun, hvalue]
      omega

end Number

end Shading
