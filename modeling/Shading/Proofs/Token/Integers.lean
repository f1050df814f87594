import Mathlib.Data.List.Induction
import Mathlib.Data.Nat.Digits.Defs
import Shading.Proofs.Token.Separated

/-!
# Integer literals of any length

The digits of an integer literal have the value of their positional notation, however many
there are. The lexer makes a token of them exactly if the value fits.
-/

namespace Shading

namespace Number

/-- The number of some digits in positional notation, the most significant digit first. -/
def positional (base : Nat) (digits : List Char) : Nat :=
  Nat.ofDigits base (digits.map digitValue).reverse

/-- The text of an integer literal up to its letter, and its value. -/
inductive Numeral : List Char → Nat → Prop
  | decimal {ds : List Char} (hne : ds ≠ []) (hds : ∀ c ∈ ds, isDigit c = true) :
      Numeral ds (positional 10 ds)
  | hex {x : Char} {ds : List Char} (hx : x = 'x' ∨ x = 'X') (hne : ds ≠ [])
      (hds : ∀ c ∈ ds, isHexDigit c = true) : Numeral ('0' :: x :: ds) (positional 16 ds)

/-- Digits are read by position. -/
theorem value_eq_positional (base : Nat) (ds : List Char) : value base ds = positional base ds := by
  induction ds using List.reverseRecOn with
  | nil => rfl
  | append_singleton ds c ih =>
      rw [value_append, ih, positional, positional, List.map_append, List.reverse_append]
      simp [Nat.ofDigits_cons, Nat.mul_comm, Nat.add_comm]

/-- A numeral starts with a digit. -/
theorem Numeral.exists_isDigit {text : List Char} {v : Nat} (h : Numeral text v) :
    ∃ c cs, text = c :: cs ∧ isDigit c = true := by
  cases h with
  | decimal hne hds =>
      obtain ⟨c, cs, rfl⟩ := List.exists_cons_of_ne_nil hne
      exact ⟨c, cs, rfl, hds c List.mem_cons_self⟩
  | hex hx hne hds => exact ⟨'0', _, rfl, rfl⟩

/-- A character that could continue the digits of a literal in either base, as an exponent or
as a fraction too. -/
def continuesNumeral (c : Char) : Bool := isHexDigit c || c = 'x' || c = 'X' || c = '.'

/-- Decimal digits are read as a whole to the first character that is none. -/
theorem literal?_decimal {ds rest : List Char} (hne : ds ≠ []) (hds : ∀ c ∈ ds, isDigit c = true)
    (hrest : Stops continuesNumeral rest) :
    literal? (ds ++ rest) = some (integer ds.length (positional 10 ds) rest) := by
  have hdigits : Stops continuesDigits rest := hrest.mono fun c hc => by
    simp only [continuesDigits, Bool.or_eq_true, decide_eq_true_eq] at hc
    simp only [continuesNumeral, isHexDigit, Bool.or_eq_true, decide_eq_true_eq]
    tauto
  have hdot : Stops (· = '.') rest := hrest.mono fun c hc => by
    simp only [continuesNumeral, Bool.or_eq_true]
    exact .inr hc
  have hexponent : exponent? rest = none := by
    cases rest with
    | nil => rfl
    | cons c rest =>
        have hc := hrest c rfl
        have hne : ¬(c = 'e' ∨ c = 'E') := by
          rintro (rfl | rfl) <;> exact absurd hc (by decide)
        simp [exponent?, hne]
  rw [literal?_of_digits hne hds hdigits, ofDigits_of_ne_dot hdot, hexponent,
    value_eq_positional]
  rfl

/-- Hexadecimal digits are read behind their prefix. -/
theorem literal?_hex {x : Char} {ds rest : List Char} (hx : x = 'x' ∨ x = 'X') (hne : ds ≠ [])
    (hds : ∀ c ∈ ds, isHexDigit c = true) (hrest : Stops continuesNumeral rest) :
    literal? ('0' :: x :: ds ++ rest)
      = some (integer ('0' :: x :: ds).length (positional 16 ds) rest) := by
  have hstop : Stops isHexDigit rest := hrest.mono fun c hc => by simp [continuesNumeral, hc]
  have hrun : (ds ++ rest).takeWhile isHexDigit = ds := hstop.takeWhile_append hds
  have hmark : isDigit x = false := by rcases hx with rfl | rfl <;> rfl
  have hwhole : ('0' :: x :: (ds ++ rest)).takeWhile isDigit = ['0'] := by
    simp [show isDigit '0' = true from rfl, hmark]
  have hlength : 2 + ds.length = ('0' :: x :: ds).length := by
    rw [List.length_cons, List.length_cons]
    omega
  have hdrop : ('0' :: x :: (ds ++ rest)).drop ('0' :: x :: ds).length = rest := by simp
  have hsome : ds.isEmpty = false := by simp [hne]
  have hbase : (decide (x = 'x') || decide (x = 'X')) = true := by simpa using hx
  simp only [List.cons_append, literal?, hwhole, hbase, if_true, hrun, hsome, hlength, hdrop,
    value_eq_positional]
  rfl

/-- Where its digits end, the literal has their value. -/
theorem Numeral.literal? {text rest : List Char} {v : Nat} (h : Numeral text v)
    (hrest : Stops continuesNumeral rest) :
    Number.literal? (text ++ rest) = some (integer text.length v rest) := by
  cases h with
  | decimal hne hds => exact literal?_decimal hne hds hrest
  | hex hx hne hds => exact literal?_hex hx hne hds hrest

end Number

namespace Lexer

open Number (Numeral)

/-- How a text is read that starts with a number: as the token of the number and what the rest
is read as, or as a fault that covers the number. -/
def ReadsNumber (text rest : List Char) (kind? : Option Kind) : Prop :=
  ∀ fuel offset position,
    scan (fuel + 1) offset position (text ++ rest) =
      match kind? with
      | some k => do
        let ts ← scan fuel (offset + byteLength text) (text.foldl Position.advance position) rest
        return ⟨k, Span.ofRange offset (offset + byteLength text), position⟩ :: ts
      | none =>
        .error ⟨.malformedNumber, String.ofList text,
          Span.ofRange offset (offset + byteLength text), position⟩

theorem Breaks.stops {rest : List Char} (h : Breaks rest) {p : Char → Bool}
    (hp : ∀ c, isBlank c = true → p c = false) : Stops p rest := fun c hc => hp c (h c hc)

theorem not_trailsNumber_of_isBlank {c : Char} (h : isBlank c = true) : trailsNumber c = false := by
  have hdot : c ≠ '.' := by
    rintro rfl
    exact absurd h (by decide)
  simp [trailsNumber, not_isWordChar_of_isBlank h, hdot]

theorem not_continuesNumeral_of_isBlank {c : Char} (h : isBlank c = true) :
    Number.continuesNumeral c = false := by
  simp only [isBlank, Bool.or_eq_true, decide_eq_true_eq] at h
  rcases h with (((rfl | rfl) | rfl) | rfl) | rfl <;> rfl

/-- A literal ends where a blank or nothing follows. -/
theorem number_of_breaks {rest : List Char} (hrest : Breaks rest) (text : List Char)
    (kind? : Option Kind) :
    number ⟨text.length, kind?⟩ (text ++ rest) = match kind? with
      | some k => .token k text.length
      | none => .fault .malformedNumber text.length := by
  have htrail : rest.takeWhile (fun c => isWordChar c || c = '.') = [] :=
    (hrest.stops fun _ => not_trailsNumber_of_isBlank).takeWhile_eq_nil
  cases kind? with
  | some k => simp only [number, List.drop_left, htrail, List.isEmpty_nil, if_true]
  | none => simp only [number, List.drop_left, htrail, List.isEmpty_nil, if_true]

/-- A literal before a break is read as one token. -/
theorem readsNumber_of_literal? {text rest : List Char} {kind? : Option Kind}
    (hhead : ∃ c cs, text = c :: cs ∧ Number.isDigit c = true) (hrest : Breaks rest)
    (h : Number.literal? (text ++ rest) = some ⟨text.length, kind?⟩) :
    ReadsNumber text rest kind? := by
  intro fuel offset position
  have hpiece : piece (text ++ rest) = number ⟨text.length, kind?⟩ (text ++ rest) := by
    obtain ⟨c, cs, rfl, hc⟩ := hhead
    exact piece_of_isDigit hc h
  rw [number_of_breaks hrest] at hpiece
  have htake : (text ++ rest).take text.length = text := List.take_left
  have hdrop : (text ++ rest).drop text.length = rest := List.drop_left
  clear h
  generalize text ++ rest = source at hpiece htake hdrop
  cases source with
  | nil =>
      obtain ⟨c, cs, rfl, -⟩ := hhead
      cases htake
  | cons c cs =>
      cases kind? with
      | some k => simp only [scan, hpiece, htake, hdrop]
      | none => simp only [scan, hpiece, htake]

/-- The lexer reads an integer literal exactly, with a letter or without. -/
theorem readsNumber_numeral {text rest : List Char} {v : Nat} (h : Numeral text v)
    (hrest : Breaks rest) :
    ReadsNumber text rest (if v ≤ Number.intLimit then some (.int v) else none) ∧
      ∀ u ∈ ['u', 'U'], ReadsNumber (text ++ [u]) rest
        (if v < Number.uintBound then some (.uint (UInt32.ofNat v)) else none) := by
  constructor
  · apply readsNumber_of_literal? h.exists_isDigit hrest
    rw [h.literal? (hrest.stops fun _ => not_continuesNumeral_of_isBlank)]
    unfold Number.integer
    split
    · exact absurd (hrest _ rfl) (by decide)
    · exact absurd (hrest _ rfl) (by decide)
    · rfl
  · intro u hu
    simp only [List.mem_cons, List.not_mem_nil, or_false] at hu
    have hstop : Stops Number.continuesNumeral (u :: rest) := by
      rcases hu with rfl | rfl <;> exact .cons (by decide)
    apply readsNumber_of_literal? _ hrest
    · rw [List.append_assoc, List.singleton_append, h.literal? hstop, List.length_append]
      rcases hu with rfl | rfl <;> rfl
    · obtain ⟨c, cs, rfl, hc⟩ := h.exists_isDigit
      exact ⟨c, cs ++ [u], rfl, hc⟩

end Lexer

end Shading
