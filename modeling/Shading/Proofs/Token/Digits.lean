import Mathlib.Algebra.Group.Nat.Defs
import Shading.Token.Number

/-!
# Digits of a natural number

The digits that a number is written with are digits of the lexer, and their value is the
number.
-/

namespace Shading

namespace Number

theorem isDigit_eq (c : Char) : isDigit c = c.isDigit := by
  simp only [isDigit, Char.isDigit, Char.le_def, ge_iff_le]

theorem digitValue_of_isDigit {c : Char} (h : isDigit c = true) :
    digitValue c = c.toNat - '0'.toNat := by
  simp [digitValue, h]

theorem isDigit_of_mem_toDigits {n : Nat} {c : Char} (h : c ∈ Nat.toDigits 10 n) :
    isDigit c = true := by
  rw [isDigit_eq]
  exact Nat.isDigit_of_mem_toDigits (by decide) (by decide) h

theorem value_append (base : Nat) (xs ys : List Char) :
    value base (xs ++ ys) = ys.foldl (fun n c => n * base + digitValue c) (value base xs) := by
  simp [value]

/-- The value of decimal digits is the value that the library gives them. -/
theorem value_eq_ofDigitChars {ds : List Char} (h : ∀ c ∈ ds, isDigit c = true) :
    value 10 ds = Nat.ofDigitChars 10 ds 0 := by
  suffices hfold : ∀ n, ds.foldl (fun n c => n * 10 + digitValue c) n
      = Nat.ofDigitChars 10 ds n from hfold 0
  induction ds with
  | nil => simp
  | cons c cs ih =>
      intro n
      rw [Nat.ofDigitChars_cons, List.foldl_cons, ih fun d hd => h d (List.mem_cons_of_mem _ hd),
        digitValue_of_isDigit (h c List.mem_cons_self), Nat.mul_comm n]

theorem value_toDigits (n : Nat) : value 10 (Nat.toDigits 10 n) = n := by
  rw [value_eq_ofDigitChars fun c => isDigit_of_mem_toDigits, Nat.ofDigitChars_ten_toDigits]

theorem value_append_zeros (ds : List Char) (k : Nat) :
    value 10 (ds ++ List.replicate k '0') = value 10 ds * 10 ^ k := by
  induction k with
  | zero => simp
  | succ k ih =>
      have hzero : digitValue '0' = 0 := rfl
      rw [List.replicate_succ', ← List.append_assoc, value_append, ih, List.foldl_cons,
        List.foldl_nil, hzero, Nat.add_zero, Nat.mul_assoc, ← Nat.pow_succ]

/-- Zeros in front do not count. -/
theorem value_zeros_append (k : Nat) (ds : List Char) :
    value 10 (List.replicate k '0' ++ ds) = value 10 ds := by
  have hzeros : value 10 (List.replicate k '0') = 0 := by
    simpa [value] using value_append_zeros [] k
  rw [value_append, hzeros]
  rfl

end Number

end Shading
