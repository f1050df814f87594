import Mathlib.Tactic.Ring
import Shading.Binary32.Rounding

/-!
# Rounding depends on the number only

A rational is rounded the same way however its fraction and its decimal are written, and
every number is the rounding of its own units.
-/

namespace Shading

namespace Binary32

/-- A common factor of both sides does not change how a quotient is rounded. -/
theorem roundHalfEven_scale {k : Nat} (hk : 0 < k) (num den : Nat) :
    roundHalfEven (k * num) (k * den) = roundHalfEven num den := by
  have hlow : 2 * (k * (num % den)) < k * den ↔ 2 * (num % den) < den := by
    rw [Nat.mul_left_comm]
    exact Nat.mul_lt_mul_left hk
  have hhigh : k * den < 2 * (k * (num % den)) ↔ den < 2 * (num % den) := by
    rw [Nat.mul_left_comm]
    exact Nat.mul_lt_mul_left hk
  simp only [roundHalfEven, Nat.mul_div_mul_left num den hk, Nat.mul_mod_mul_left, hlow, hhigh]

theorem roundHalfEven_mul_self {den : Nat} (hden : 0 < den) (n : Nat) :
    roundHalfEven (n * den) den = n := by
  simp [roundHalfEven, Nat.mul_div_cancel n hden, hden]

/-- Rounding to the nearest never goes below the quotient cut off. -/
theorem div_le_roundHalfEven (num den : Nat) : num / den ≤ roundHalfEven num den := by
  simp only [roundHalfEven]
  split
  · exact Nat.le_refl _
  · split
    · exact Nat.le_succ _
    · exact Nat.le_add_right _ _

/-- A common factor of both sides does not change how many units are counted. -/
theorem roundUnits_scale {k : Nat} (hk : 0 < k) (num den : Nat) :
    roundUnits (k * num) (k * den) = roundUnits num den := by
  simp only [roundUnits, Nat.mul_div_mul_left num den hk]
  rw [Nat.mul_assoc, roundHalfEven_scale hk]

/-- Less than half of the smallest unit rounds to zero. -/
theorem roundUnits_of_lt {num den : Nat} (h : 2 * num < den) : roundUnits num den = 0 := by
  have hdiv : num / den = 0 := Nat.div_eq_of_lt (by omega)
  have hmod : num % den = num := Nat.mod_eq_of_lt (by omega)
  have hlog : Nat.log2 0 = 0 := rfl
  simp [roundUnits, roundHalfEven, hdiv, hmod, hlog, h]

/-- From `2 ^ 277` units on every magnitude rounds to the infinity. -/
theorem roundUnits_of_le {k num den : Nat} (hk : 277 ≤ k) (h : 2 ^ k ≤ num / den) :
    roundUnits num den = infinityBits := by
  have hpos : num / den ≠ 0 := Nat.ne_of_gt (Nat.lt_of_lt_of_le (Nat.two_pow_pos k) h)
  have hlog : k ≤ Nat.log2 (num / den) := (Nat.le_log2 hpos).mpr h
  have hquot : 2 ^ 23 ≤ num / (den * Nat.pow 2 (Nat.log2 (num / den) - 23)) := by
    rw [← Nat.div_div_eq_div_mul]
    refine (Nat.le_div_iff_mul_le (Nat.two_pow_pos _)).mpr ?_
    change 2 ^ 23 * 2 ^ (Nat.log2 (num / den) - 23) ≤ num / den
    rw [← Nat.pow_add, show 23 + (Nat.log2 (num / den) - 23) = Nat.log2 (num / den) by omega]
    exact Nat.log2_self_le hpos
  have hround := Nat.le_trans hquot (div_le_roundHalfEven num _)
  simp only [roundUnits]
  refine Nat.min_eq_right ?_
  simp only [infinityBits, fractionCount]
  omega

theorem unitsOf_pos {m : Nat} (hm : m ≠ 0) : 0 < unitsOf m := by
  unfold unitsOf
  split
  · omega
  · exact Nat.mul_pos (by simp [fractionCount]) (Nat.two_pow_pos _)

/-- A coefficient with its leading bit at place 23, shifted. -/
theorem log2_normal {f e : Nat} (hf : f < fractionCount) :
    Nat.log2 ((fractionCount + f) * Nat.pow 2 e) = 23 + e := by
  have hne : (fractionCount + f) * Nat.pow 2 e ≠ 0 :=
    Nat.ne_of_gt (Nat.mul_pos (by simp [fractionCount]) (Nat.two_pow_pos _))
  refine (Nat.log2_eq_iff hne).mpr ⟨?_, ?_⟩
  · rw [Nat.pow_add]
    exact Nat.mul_le_mul_right _ (by simp [fractionCount])
  · rw [show 23 + e + 1 = 24 + e by omega, Nat.pow_add]
    refine Nat.mul_lt_mul_of_pos_right ?_ (Nat.two_pow_pos _)
    simp only [fractionCount] at hf ⊢
    omega

/-- A finite magnitude is what its units round to. -/
theorem roundUnits_unitsOf {m den : Nat} (hm : m < infinityBits) (hden : 0 < den) :
    roundUnits (unitsOf m * den) den = m := by
  simp only [roundUnits, Nat.mul_div_cancel _ hden]
  unfold unitsOf
  split
  · rename_i hsmall
    have hlog : Nat.log2 m - 23 = 0 := by
      by_cases h0 : m = 0
      · subst h0
        rfl
      · have := (Nat.log2_lt h0 (k := 23)).mpr (by simpa [fractionCount] using hsmall)
        omega
    have hone : Nat.pow 2 0 = 1 := rfl
    rw [hlog, hone, Nat.mul_one, roundHalfEven_mul_self hden]
    omega
  · rename_i hlarge
    have hfraction : m % fractionCount < fractionCount :=
      Nat.mod_lt _ (by simp [fractionCount])
    have hsplit := Nat.div_add_mod m fractionCount
    generalize hf : m % fractionCount = f at *
    generalize he : m / fractionCount = e at *
    have hepos : 1 ≤ e := by
      by_contra h0
      have : e = 0 := by omega
      subst this
      omega
    have hden' : 0 < den * Nat.pow 2 (e - 1) := Nat.mul_pos hden (Nat.two_pow_pos _)
    rw [log2_normal hfraction, show 23 + (e - 1) - 23 = e - 1 by omega,
      show (fractionCount + f) * Nat.pow 2 (e - 1) * den
        = (fractionCount + f) * (den * Nat.pow 2 (e - 1)) by ring,
      roundHalfEven_mul_self hden']
    obtain ⟨e, rfl⟩ : ∃ e', e = e' + 1 := ⟨e - 1, by omega⟩
    simp only [fractionCount, infinityBits] at *
    omega

theorem ofRatio_scale {k : Nat} (hk : 0 < k) (negative : Bool) (num den : Nat) :
    ofRatio negative (k * num) (k * den) = ofRatio negative num den := by
  simp only [ofRatio, Nat.mul_assoc, roundUnits_scale hk]

/-- A coefficient from `10 ^ 41` on is too large. -/
theorem ofRatio_of_large {c : Nat} (hc : 10 ^ 41 ≤ c) :
    ofRatio false c 1 = ofParts false infinityBits := by
  have hunits : 2 ^ (136 + 149) ≤ c * oneUnits / 1 := by
    rw [Nat.div_one, Nat.pow_add]
    exact Nat.mul_le_mul_right _ (Nat.le_trans (by decide) hc)
  rw [ofRatio, roundUnits_of_le (by decide) hunits]

/-- A number below `10 ^ -60` is nothing but zero. -/
theorem ofRatio_of_small {c m : Nat} (hc : Nat.log2 c + 61 < m) :
    ofRatio false c (10 ^ m) = zero := by
  have hlt : c < 2 ^ (m - 61) := by
    by_cases h0 : c = 0
    · rw [h0]
      exact Nat.two_pow_pos _
    · exact (Nat.log2_lt h0).mp (by omega)
  have hfive : 2 ^ 89 ≤ 5 ^ m :=
    Nat.le_trans (by decide) (Nat.pow_le_pow_right (by decide) (show 61 ≤ m by omega))
  have hsmall : 2 * (c * oneUnits) < 10 ^ m := by
    calc 2 * (c * oneUnits) < 2 * (2 ^ (m - 61) * 2 ^ 149) := by
          refine Nat.mul_lt_mul_of_pos_left ?_ (by decide)
          exact Nat.mul_lt_mul_of_pos_right hlt (Nat.two_pow_pos _)
      _ = 2 ^ m * 2 ^ 89 := by
          rw [← Nat.pow_add, ← Nat.pow_succ', ← Nat.pow_add]
          congr 1
          omega
      _ ≤ 2 ^ m * 5 ^ m := Nat.mul_le_mul_left _ hfive
      _ = 10 ^ m := by rw [← Nat.mul_pow]
  rw [ofRatio, roundUnits_of_lt hsmall]
  rfl

/-- A factor of ten adds three or four binary digits. -/
theorem log2_ten_mul {c : Nat} (hc : c ≠ 0) :
    Nat.log2 c + 3 ≤ Nat.log2 (10 * c) ∧ Nat.log2 (10 * c) < Nat.log2 c + 5 := by
  have hlow := Nat.log2_self_le hc
  have hhigh := (Nat.log2_lt hc).mp (Nat.lt_succ_self _)
  have hne : 10 * c ≠ 0 := by omega
  constructor
  · refine (Nat.le_log2 hne).mpr ?_
    rw [Nat.pow_add]
    omega
  · refine (Nat.log2_lt hne).mpr ?_
    rw [show Nat.log2 c + 5 = (Nat.log2 c).succ + 4 by omega, Nat.pow_add]
    omega

/-- A zero at the end of the coefficient may move into the exponent. -/
theorem ofDecimal_scale (c : Nat) (e : Int) : ofDecimal (10 * c) e = ofDecimal c (e + 1) := by
  by_cases h0 : c = 0
  · simp [ofDecimal, h0]
  have hlog := log2_ten_mul h0
  have hten : 10 * c ≠ 0 := by omega
  simp only [ofDecimal, h0, hten, if_false]
  by_cases hlarge : 40 < e
  · rw [if_pos hlarge, if_pos (by omega)]
  rw [if_neg hlarge]
  by_cases hedge : e = 40
  · subst hedge
    rw [if_neg (by omega), if_pos (by omega), if_pos (by omega)]
    refine ofRatio_of_large ?_
    change 10 * 10 ^ 40 ≤ 10 * c * 10 ^ 40
    exact Nat.mul_le_mul_right _ (by omega)
  rw [if_neg (show ¬40 < e + 1 by omega)]
  by_cases hsmall : (Nat.log2 c : Int) + 1 + (e + 1) < -60
  · rw [if_pos hsmall]
    split
    · rfl
    · rw [if_neg (by omega)]
      obtain ⟨m, rfl⟩ : ∃ m : Nat, e = -(m : Int) - 1 := ⟨(-e - 1).toNat, by omega⟩
      have hm : (-(-(m : Int) - 1)).toNat = m + 1 := by omega
      rw [hm, show Nat.pow 10 (m + 1) = 10 * 10 ^ m from Nat.pow_succ', ofRatio_scale (by decide)]
      exact ofRatio_of_small (by omega)
  · rw [if_neg hsmall, if_neg (by omega)]
    by_cases hsign : 0 ≤ e
    · rw [if_pos hsign, if_pos (by omega)]
      have hnat : (e + 1).toNat = e.toNat + 1 := by omega
      rw [hnat, show Nat.pow 10 (e.toNat + 1) = 10 * Nat.pow 10 e.toNat from Nat.pow_succ']
      congr 1
      ring
    · rw [if_neg hsign]
      by_cases hlast : e = -1
      · subst hlast
        have hten : (-(-1 : Int)).toNat = 1 := rfl
        have hone : (-1 + 1 : Int).toNat = 0 := rfl
        have hscale := ofRatio_scale (k := 10) (by decide) false c 1
        rw [if_pos (by omega), hten, hone]
        simpa using hscale
      · rw [if_neg (by omega)]
        obtain ⟨m, rfl⟩ : ∃ m : Nat, e = -(m : Int) - 1 := ⟨(-e - 1).toNat, by omega⟩
        have hm : (-(-(m : Int) - 1)).toNat = m + 1 := by omega
        have hm' : (-(-(m : Int) - 1 + 1)).toNat = m := by omega
        rw [hm, hm', show Nat.pow 10 (m + 1) = 10 * Nat.pow 10 m from Nat.pow_succ',
          ofRatio_scale (by decide)]

/-- Zeros at the end of the digits are a power of ten. -/
theorem ofDecimal_pow (c k : Nat) (e : Int) : ofDecimal (c * 10 ^ k) (e - k) = ofDecimal c e := by
  induction k generalizing e with
  | zero => simp
  | succ k ih =>
      have hexp : e - ((k + 1 : Nat) : Int) + 1 = e - k := by omega
      rw [Nat.pow_succ, ← Nat.mul_assoc, Nat.mul_comm _ 10, ofDecimal_scale, hexp, ih]

end Binary32

end Shading
