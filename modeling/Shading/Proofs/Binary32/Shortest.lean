import Shading.Binary32.Shortest
import Shading.Proofs.Binary32.Rounding

/-!
# The shortest decimal reads back

Whatever grid the search ends on, the decimal that it gives is read as the number, and
dropping the zeros at its end does not change what it is read as. A negative number is
written as a minus and the text of its magnitude.
-/

namespace Shading

namespace Binary32

theorem magnitude_lt (x : Binary32) : x.magnitude < signBit :=
  Nat.mod_lt _ (by simp [signBit])

theorem toNat_ofParts {m : Nat} (hm : m < signBit) : (ofParts false m).bits.toNat = m := by
  simp only [signBit] at hm
  simp only [ofParts, Bool.false_eq_true, if_false]
  exact UInt32.toNat_ofNat_of_lt' (by simp only [UInt32.size]; omega)

theorem roundUnits_le (num den : Nat) : roundUnits num den ≤ infinityBits :=
  Nat.min_le_right _ _

/-- A decimal has no sign, so no number that is read from one is negative. -/
theorem isNegative_ofDecimal (c : Nat) (e : Int) : (ofDecimal c e).isNegative = false := by
  have hparts {m : Nat} (hm : m ≤ infinityBits) : (ofParts false m).isNegative = false := by
    have hlt : m < signBit := by
      simp only [infinityBits] at hm
      simp only [signBit]
      omega
    simp only [isNegative, toNat_ofParts hlt]
    exact decide_eq_false (by omega)
  unfold ofDecimal
  split
  · rfl
  · split
    · exact hparts (Nat.le_refl _)
    · split
      · rfl
      · split
        · exact hparts (roundUnits_le _ _)
        · exact hparts (roundUnits_le _ _)

/-- Numbers of the same magnitude that are not negative are the same. -/
theorem eq_of_magnitude_eq {x y : Binary32} (hx : x.isNegative = false)
    (hy : y.isNegative = false) (h : x.magnitude = y.magnitude) : x = y := by
  have hplain {z : Binary32} (hz : z.isNegative = false) : z.magnitude = z.bits.toNat := by
    have hlt : ¬signBit ≤ z.bits.toNat := of_decide_eq_false hz
    exact Nat.mod_eq_of_lt (by omega)
  rw [hplain hx, hplain hy] at h
  cases x
  cases y
  exact congrArg _ (UInt32.toNat_inj.mp h)

/-- The decimal has a digit and is read as the number. -/
def ReadAs (d : Decimal) (x : Binary32) : Prop :=
  d.digits ≠ 0 ∧ ofDecimal d.digits d.exponent = x

section Reading

variable {x : Binary32}

/-- Digits that were found on the grid read as the value. -/
theorem readAs_of_nearestOnGrid? (hx : x.isNegative = false) {e : Int} {d : Decimal}
    (h : x.nearestOnGrid? e = some d) : ReadAs d x := by
  have hread {n : Nat} (hn : (n != 0 && (ofDecimal n e).magnitude == x.magnitude) = true) :
      ReadAs ⟨n, e⟩ x := by
    simp only [Bool.and_eq_true, bne_iff_ne, beq_iff_eq] at hn
    exact ⟨hn.1, eq_of_magnitude_eq (isNegative_ofDecimal n e) hx hn.2⟩
  simp only [nearestOnGrid?] at h
  generalize (if 0 ≤ e then x.ratio.1 else x.ratio.1 * Nat.pow 10 (-e).toNat) = num at h
  generalize (if 0 ≤ e then x.ratio.2 * Nat.pow 10 e.toNat else x.ratio.2) = den at h
  split at h
  · rename_i hbelow habove
    split at h <;> obtain rfl := Option.some.inj h
    · exact hread hbelow
    · exact hread habove
  · rename_i hbelow _
    obtain rfl := Option.some.inj h
    exact hread hbelow
  · rename_i _ habove
    obtain rfl := Option.some.inj h
    exact hread habove
  · cases h

variable (hfinite : x.isFinite = true) (hpos : x.magnitude ≠ 0)
include hfinite hpos

/-- The exact decimal is in the range where nothing is settled early. -/
theorem readAs_exactDecimal (hx : x.isNegative = false) : ReadAs x.exactDecimal x := by
  have hunits : 0 < x.units := unitsOf_pos hpos
  have hne : x.units * Nat.pow 5 149 ≠ 0 :=
    Nat.ne_of_gt (Nat.mul_pos hunits (Nat.pow_pos (by decide)))
  have hlog : 149 ≤ Nat.log2 (x.units * Nat.pow 5 149) := by
    refine (Nat.le_log2 hne).mpr ?_
    calc 2 ^ 149 ≤ 5 ^ 149 := Nat.pow_le_pow_left (by decide) _
      _ ≤ x.units * 5 ^ 149 := Nat.le_mul_of_pos_left _ hunits
  have hround : roundUnits (x.units * Nat.pow 5 149 * oneUnits) (Nat.pow 10 149) = x.magnitude := by
    have hten : Nat.pow 5 149 * oneUnits = Nat.pow 10 149 := by
      change 5 ^ 149 * 2 ^ 149 = 10 ^ 149
      rw [← Nat.mul_pow]
    rw [Nat.mul_assoc, hten]
    exact roundUnits_unitsOf (of_decide_eq_true hfinite) (Nat.pow_pos (by decide))
  refine ⟨hne, eq_of_magnitude_eq (isNegative_ofDecimal _ _) hx ?_⟩
  have hexp : (-(-149 : Int)).toNat = 149 := rfl
  have hread : ofDecimal x.exactDecimal.digits x.exactDecimal.exponent
      = ofParts false x.magnitude := by
    change ofDecimal (x.units * Nat.pow 5 149) (-149) = _
    unfold ofDecimal
    rw [if_neg hne, if_neg (by decide), if_neg (by omega), if_neg (by decide), hexp, ofRatio,
      hround]
  rw [hread, magnitude, toNat_ofParts x.magnitude_lt]
  exact Nat.mod_eq_of_lt x.magnitude_lt

/-- A search that goes to finer grids ends with digits that read as the value. -/
theorem readAs_searchGrid (hx : x.isNegative = false) (fuel : Nat) (e : Int) :
    ReadAs (x.searchGrid fuel e) x := by
  induction fuel generalizing e with
  | zero => exact readAs_exactDecimal hfinite hpos hx
  | succ fuel ih =>
      simp only [searchGrid]
      split
      · exact readAs_of_nearestOnGrid? hx ‹_›
      · exact ih (e - 1)

omit hfinite hpos in
/-- Dropping zeros at the end does not change what the digits read as. -/
theorem readAs_strip {d : Decimal} (h : ReadAs d x) (fuel : Nat) : ReadAs (d.strip fuel) x := by
  induction fuel generalizing d with
  | zero => exact h
  | succ fuel ih =>
      simp only [Decimal.strip]
      split
      · rename_i hzero
        have hdigits : 10 * (d.digits / 10) = d.digits := by omega
        refine ih ⟨by dsimp only; omega, ?_⟩
        rw [← ofDecimal_scale, hdigits]
        exact h.2
      · exact h

theorem readAs_shortest (hx : x.isNegative = false) : ReadAs x.shortest x :=
  readAs_strip (readAs_searchGrid hfinite hpos hx _ _) _

end Reading

section Magnitude

variable (x : Binary32)

theorem magnitude_ofParts : (ofParts false x.magnitude).magnitude = x.magnitude := by
  rw [magnitude, toNat_ofParts x.magnitude_lt, Nat.mod_eq_of_lt x.magnitude_lt]

theorem isNegative_ofParts : (ofParts false x.magnitude).isNegative = false := by
  rw [isNegative, toNat_ofParts x.magnitude_lt]
  exact decide_eq_false (Nat.not_le.mpr x.magnitude_lt)

theorem isFinite_ofParts : (ofParts false x.magnitude).isFinite = x.isFinite := by
  rw [isFinite, isFinite, magnitude_ofParts]

theorem ratio_ofParts : (ofParts false x.magnitude).ratio = x.ratio := by
  simp only [ratio, units, magnitude_ofParts]

theorem searchGrid_ofParts (fuel : Nat) (e : Int) :
    (ofParts false x.magnitude).searchGrid fuel e = x.searchGrid fuel e := by
  induction fuel generalizing e with
  | zero => simp only [searchGrid, exactDecimal, units, magnitude_ofParts]
  | succ fuel ih =>
      simp only [searchGrid, nearestOnGrid?, ratio_ofParts, magnitude_ofParts, ih]

theorem magnitudeChars_ofParts :
    (ofParts false x.magnitude).magnitudeChars = x.magnitudeChars := by
  have hshortest : (ofParts false x.magnitude).shortest = x.shortest := by
    simp only [shortest, ratio_ofParts, searchGrid_ofParts]
  simp only [magnitudeChars, isNaN, isInfinite, magnitude_ofParts, hshortest]

variable {x}

theorem ofParts_magnitude (h : x.isNegative = false) : ofParts false x.magnitude = x :=
  eq_of_magnitude_eq x.isNegative_ofParts h x.magnitude_ofParts

/-- A negative value is printed as its magnitude behind a sign. -/
theorem text_of_isNegative (hx : x.isFinite = true) (h : x.isNegative = true) :
    x.text = "-" ++ (ofParts false x.magnitude).text := by
  have hnan : x.isNaN = false := by
    have hlt : x.magnitude < infinityBits := of_decide_eq_true hx
    exact decide_eq_false (Nat.not_lt.mpr (Nat.le_of_lt hlt))
  simp only [text, h, hnan, isNegative_ofParts, magnitudeChars_ofParts, Bool.not_false,
    Bool.and_self, if_true, Bool.false_and, Bool.false_eq_true, if_false]
  rw [String.ofList_cons]
  rfl

end Magnitude

end Binary32

end Shading
