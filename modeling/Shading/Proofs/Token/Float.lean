import Shading.Proofs.Token.Literal

/-!
# The text of a float is its literal

A finite number that is not negative is printed as a literal that is read as the number,
whatever follows it that does not continue a word.
-/

namespace Shading

namespace Number

open Lexer (isWordChar)

variable {x : Binary32} {whole fraction rest : List Char}

/-- Digits with a point read as the value of the decimal. -/
theorem float_plain (length : Nat) (hx : x.isFinite = true)
    (hread : Binary32.ofDecimal (value 10 (whole ++ fraction)) (-fraction.length) = x)
    (hstop : Stops isWordChar rest) :
    float length whole fraction rest = ⟨length, some (.float x)⟩ := by
  have hletter : ∀ tail, rest ≠ 'f' :: tail ∧ rest ≠ 'F' :: tail := by
    refine fun tail => ⟨?_, ?_⟩ <;> rintro rfl <;> exact absurd (hstop _ rfl) (by decide)
  simp only [float, exponent?_eq_none hstop, Option.getD_none, List.drop_zero, Int.zero_sub, hread,
    hx, if_true]
  split
  · exact absurd rfl (hletter _).1
  · exact absurd rfl (hletter _).2
  · rfl

/-- An exponent shifts the decimal point. -/
theorem float_exponent (length : Nat) {e : Int} (hx : x.isFinite = true)
    (hread : Binary32.ofDecimal (value 10 (whole ++ fraction)) (e - fraction.length) = x)
    (hstop : Stops isWordChar rest) :
    float length whole fraction ('e' :: ((toString e).toList ++ rest))
      = ⟨length + (1 + (toString e).toList.length), some (.float x)⟩ := by
  have hletter : ∀ tail, rest ≠ 'f' :: tail ∧ rest ≠ 'F' :: tail := by
    refine fun tail => ⟨?_, ?_⟩ <;> rintro rfl <;> exact absurd (hstop _ rfl) (by decide)
  have hdrop : ('e' :: ((toString e).toList ++ rest)).drop (1 + (toString e).toList.length)
      = rest := by
    rw [Nat.add_comm, List.drop_succ_cons, List.drop_left]
  simp only [float, exponent?_text e (not_isDigit_of_not_isWordChar hstop), Option.getD_some, hread,
    hx, if_true, hdrop]
  split
  · exact absurd rfl (hletter _).1
  · exact absurd rfl (hletter _).2
  · rfl

section Forms

variable {e : Int} (hx : x.isFinite = true) (hne : whole ≠ [])
  (hwhole : ∀ c ∈ whole, isDigit c = true) (hstop : Stops isWordChar rest)
include hx hne hwhole hstop

/-- Digits and an exponent. -/
theorem literal?_exponent (hread : Binary32.ofDecimal (value 10 whole) e = x) :
    literal? (whole ++ 'e' :: ((toString e).toList ++ rest))
      = some ⟨whole.length + (1 + (toString e).toList.length), some (.float x)⟩ := by
  have hsome := exponent?_text e (not_isDigit_of_not_isWordChar hstop)
  rw [literal?_of_digits hne hwhole (.cons (by decide)), ofDigits_of_ne_dot (.cons (by decide)),
    hsome, Option.isSome_some, if_pos rfl, float_exponent _ hx (by simpa using hread) hstop]

variable (hfraction : ∀ c ∈ fraction, isDigit c = true)
include hfraction

/-- Digits on both sides of a point. -/
theorem literal?_point
    (hread : Binary32.ofDecimal (value 10 (whole ++ fraction)) (-fraction.length) = x) :
    literal? (whole ++ '.' :: (fraction ++ rest))
      = some ⟨whole.length + 1 + fraction.length, some (.float x)⟩ := by
  rw [literal?_of_digits hne hwhole (.cons (by decide)),
    ofDigits_dot _ hfraction (not_isDigit_of_not_isWordChar hstop), float_plain _ hx hread hstop]

/-- Digits on both sides of a point and an exponent. -/
theorem literal?_point_exponent
    (hread : Binary32.ofDecimal (value 10 (whole ++ fraction)) (e - fraction.length) = x) :
    literal? (whole ++ '.' :: (fraction ++ 'e' :: ((toString e).toList ++ rest)))
      = some ⟨whole.length + 1 + fraction.length + (1 + (toString e).toList.length),
          some (.float x)⟩ := by
  rw [literal?_of_digits hne hwhole (.cons (by decide)),
    ofDigits_dot _ hfraction (.cons (by decide)),
    float_exponent _ hx hread hstop]

end Forms

section Layout

variable {e lead : Int} {ds : List Char} (hx : x.isFinite = true)
  (hds : ∀ d ∈ ds, isDigit d = true) (hne : ds ≠ [])
  (hread : Binary32.ofDecimal (value 10 ds) e = x) (hlead : lead = e + ds.length - 1)
  (hstop : Stops isWordChar rest)
include hx hds hne hread hlead hstop

/-- A number that is far from one has an exponent. -/
theorem literal?_layout_far (hfar : lead < -4 ∨ 16 ≤ lead) :
    literal? (Binary32.layout ds lead ++ rest)
      = some ⟨(Binary32.layout ds lead).length, some (.float x)⟩ := by
  obtain ⟨d, fs, rfl⟩ := List.exists_cons_of_ne_nil hne
  have hd : ∀ c ∈ [d], isDigit c = true := by simpa using hds d (by simp)
  cases fs with
  | nil =>
      have he : lead = e := by simpa using hlead
      have hform := literal?_exponent hx (List.cons_ne_nil d []) hd hstop (he ▸ hread)
      simpa [Binary32.layout, hfar, Nat.add_comm] using hform
  | cons f fs =>
      have he : e = lead - ((f :: fs).length : Int) := by
        simp only [List.length_cons] at hlead ⊢
        omega
      have hfs : ∀ c ∈ f :: fs, isDigit c = true := fun c hc => hds c (List.mem_cons_of_mem _ hc)
      have hform := literal?_point_exponent hx (List.cons_ne_nil d []) hd hstop hfs (he ▸ hread)
      simp only [Binary32.layout, hfar, if_true, List.drop_succ_cons, List.drop_zero,
        List.take_succ_cons, List.take_zero, List.isEmpty_cons, Bool.false_eq_true, if_false]
      simp only [List.append_assoc, List.cons_append, List.nil_append, List.length_append,
        List.length_cons, List.length_nil] at hform ⊢
      rw [hform]
      congr 2
      omega

omit hne in
/-- A number between `10 ^ -4` and one starts with a zero. -/
theorem literal?_layout_small (hfar : ¬(lead < -4 ∨ 16 ≤ lead)) (hsmall : lead < 0) :
    literal? (Binary32.layout ds lead ++ rest)
      = some ⟨(Binary32.layout ds lead).length, some (.float x)⟩ := by
  have hzeros : ∀ c ∈ List.replicate (-lead - 1).toNat '0' ++ ds, isDigit c = true := by
    intro c hc
    rcases List.mem_append.mp hc with hc | hc
    · obtain ⟨_, rfl⟩ := List.mem_replicate.mp hc
      rfl
    · exact hds c hc
  have hvalue : value 10 (['0'] ++ (List.replicate (-lead - 1).toNat '0' ++ ds)) = value 10 ds := by
    rw [← List.append_assoc, show ['0'] ++ List.replicate (-lead - 1).toNat '0'
      = List.replicate ((-lead - 1).toNat + 1) '0' from rfl, value_zeros_append]
  have hexp : -(((List.replicate (-lead - 1).toNat '0' ++ ds).length : Nat) : Int) = e := by
    simp only [List.length_append, List.length_replicate]
    omega
  have hform := literal?_point hx (List.cons_ne_nil '0' []) (by simp; rfl) hstop hzeros
    (by rw [hvalue, hexp, hread])
  simp only [Binary32.layout, hfar, hsmall, if_true, if_false]
  simp only [List.append_assoc, List.cons_append, List.nil_append, List.length_append,
    List.length_cons, List.length_nil] at hform ⊢
  rw [hform]
  congr 2
  omega

/-- A number from one on has its whole part before the point. -/
theorem literal?_layout_large (hfar : ¬(lead < -4 ∨ 16 ≤ lead)) (hlarge : ¬lead < 0) :
    literal? (Binary32.layout ds lead ++ rest)
      = some ⟨(Binary32.layout ds lead).length, some (.float x)⟩ := by
  obtain ⟨n, rfl⟩ : ∃ n : Nat, lead = n := ⟨lead.toNat, by omega⟩
  have htake : ∀ c ∈ ds.take (n + 1), isDigit c = true := fun c hc =>
      hds c (List.mem_of_mem_take hc)
  have hdrop : ∀ c ∈ ds.drop (n + 1), isDigit c = true := fun c hc =>
      hds c (List.mem_of_mem_drop hc)
  have hne' : ds.take (n + 1) ≠ [] := by
    cases ds with
    | nil => exact absurd rfl hne
    | cons d ds => simp
  simp only [Binary32.layout, hfar, hlarge, if_false, Int.toNat_natCast]
  by_cases hempty : ds.drop (n + 1) = []
  · -- The digits end before the point, so zeros fill up to it and one follows it.
    have hlen : ds.length ≤ n + 1 := List.drop_eq_nil_iff.mp hempty
    have hall : ds.take (n + 1) = ds := List.take_of_length_le hlen
    have hzeros : ∀ c ∈ ds ++ List.replicate (n + 1 - ds.length) '0', isDigit c = true := by
      intro c hc
      rcases List.mem_append.mp hc with hc | hc
      · exact hds c hc
      · obtain ⟨_, rfl⟩ := List.mem_replicate.mp hc
        rfl
    have hvalue : value 10 (ds ++ List.replicate (n + 1 - ds.length) '0' ++ ['0'])
        = value 10 ds * 10 ^ (n + 1 - ds.length + 1) := by
      rw [List.append_assoc, ← List.replicate_succ', value_append_zeros]
    have hexp : -((['0'].length : Nat) : Int) = e - ((n + 1 - ds.length + 1 : Nat) : Int) := by
      simp only [List.length_cons, List.length_nil]
      omega
    have hzero : ∀ c ∈ ['0'], isDigit c = true := List.forall_mem_singleton.mpr rfl
    have hform := literal?_point hx (by simp [hne]) hzeros hstop hzero
        (by rw [hvalue, hexp, Binary32.ofDecimal_pow, hread])
    simp only [hempty, hall, List.isEmpty_nil, if_true]
    simp only [List.append_assoc, List.cons_append, List.nil_append, List.length_append,
      List.length_cons, List.length_nil] at hform ⊢
    rw [hform]
    congr 2
  · have hlen : n + 1 < ds.length := by
      have := mt List.drop_eq_nil_iff.mpr hempty
      omega
    have hfill : n + 1 - ds.length = 0 := by omega
    have hexp : -(((ds.drop (n + 1)).length : Nat) : Int) = e := by
      simp only [List.length_drop]
      omega
    have hform := literal?_point hx hne' htake hstop hdrop
      (by rw [List.take_append_drop, hexp, hread])
    simp only [hfill, List.replicate_zero, List.append_nil, List.isEmpty_iff, hempty, if_false]
    simp only [List.append_assoc, List.cons_append, List.length_append, List.length_cons] at hform ⊢
    rw [hform]
    congr 2
    omega

/-- What is laid out is read back as the value. -/
theorem literal?_layout :
    literal? (Binary32.layout ds lead ++ rest)
      = some ⟨(Binary32.layout ds lead).length, some (.float x)⟩ := by
  by_cases hfar : lead < -4 ∨ 16 ≤ lead
  · exact literal?_layout_far hx hds hne hread hlead hstop hfar
  · by_cases hsmall : lead < 0
    · exact literal?_layout_small hx hds hread hlead hstop hfar hsmall
    · exact literal?_layout_large hx hds hne hread hlead hstop hfar hsmall

end Layout

/-- The characters of a finite number that is not negative. -/
theorem toList_text (hx : x.isFinite = true) (hsign : x.isNegative = false) :
    x.text.toList =
      if x.magnitude = 0 then ['0', '.', '0']
      else
        let digits := Decimal.digitsOf x.shortest.digits
        Binary32.layout digits (x.shortest.exponent + digits.length - 1) := by
  have hmag : x.magnitude < Binary32.infinityBits := of_decide_eq_true hx
  have hnan : x.isNaN = false := decide_eq_false (by omega)
  have hinf : x.isInfinite = false := decide_eq_false (by omega)
  have htext : x.text.toList = x.magnitudeChars := by simp [Binary32.text, hsign]
  simp only [htext, Binary32.magnitudeChars, hnan, hinf, Bool.false_eq_true, if_false]

/-- The text of a finite number that is not negative is its literal. -/
theorem literal?_text (hx : x.isFinite = true) (hsign : x.isNegative = false)
    (hstop : Stops isWordChar rest) :
    literal? (x.text.toList ++ rest) = some ⟨x.text.toList.length, some (.float x)⟩ := by
  rw [toList_text hx hsign]
  split
  · rename_i hzero
    have hread : Binary32.ofDecimal (value 10 (['0'] ++ ['0'])) (-(['0'].length : Nat)) = x := by
      refine Binary32.eq_of_magnitude_eq (Binary32.isNegative_ofDecimal _ _) hsign ?_
      rw [hzero]
      rfl
    have hdigit : ∀ c ∈ ['0'], isDigit c = true := List.forall_mem_singleton.mpr rfl
    exact literal?_point hx (List.cons_ne_nil '0' []) hdigit hstop hdigit hread
  · rename_i hpos
    have hread := Binary32.readAs_shortest hx hpos hsign
    refine literal?_layout hx (fun d => isDigit_of_mem_toDigits) Nat.toDigits_ne_nil ?_ rfl hstop
    exact (congrArg (Binary32.ofDecimal · _) (value_toDigits _)).trans hread.2

theorem layout_eq_cons {ds : List Char} (hds : ∀ d ∈ ds, isDigit d = true) (hne : ds ≠ [])
    (lead : Int) : ∃ c cs, Binary32.layout ds lead = c :: cs ∧ isDigit c = true := by
  obtain ⟨d, ds, rfl⟩ := List.exists_cons_of_ne_nil hne
  have hd := hds d List.mem_cons_self
  unfold Binary32.layout
  split
  · exact ⟨d, _, rfl, hd⟩
  · split
    · exact ⟨'0', _, rfl, rfl⟩
    · exact ⟨d, _, rfl, hd⟩

/-- A value without a sign is printed with a digit in front. -/
theorem text_eq_cons {x : Binary32} (hx : x.isFinite = true) (hsign : x.isNegative = false) :
    ∃ c cs, x.text.toList = c :: cs ∧ isDigit c = true := by
  rw [toList_text hx hsign]
  split
  · exact ⟨'0', _, rfl, rfl⟩
  · exact layout_eq_cons (fun d => isDigit_of_mem_toDigits) Nat.toDigits_ne_nil _

end Number

end Shading
