import Shading.Options.Evaluate

/-!
# What operators mean

The operators of conditions on unbounded integers, and the operands that they are not defined
for. The operators on constants compute just this: they give the exact result, which then is in
range, and they give none exactly for such operands.
-/

namespace Shading

/-- A truth value, or an integer without a bound that stands for a signed or an unsigned one. -/
inductive Meaning where
  | bool (b : Bool)
  | int (i : Int)
  | uint (i : Int)
deriving DecidableEq

namespace BinaryOp

/-- The operators that compare by size. -/
def ordering : List BinaryOp := [.lt, .ltEq, .gt, .gtEq]

/-- The operators that can leave the range of 32 bits. -/
def arithmetic : List BinaryOp := [.add, .sub, .mul, .div, .rem]

/-- The operators on bit patterns. -/
def bitwise : List BinaryOp := [.bitAnd, .bitOr, .bitXor, .shl, .shr]

end BinaryOp

namespace Meaning

/-- The type that the value belongs to. -/
def kind : Meaning → Primitive
  | .bool _ => .bool
  | .int _ => .int
  | .uint _ => .uint

/-- Whether 32 bits hold the value. -/
def InRange : Meaning → Prop
  | .bool _ => True
  | .int i => -2147483648 ≤ i ∧ i < 2147483648
  | .uint i => 0 ≤ i ∧ i < 4294967296

/-- The two's complement of an integer. -/
def pattern (i : Int) : BitVec 32 := BitVec.ofInt 32 i

/-- The integer that a pattern stands for without a sign. -/
def unsigned (v : BitVec 32) : Int := v.toNat

/-- What an operator does to truth values. -/
def logic? (op : BinaryOp) (a b : Bool) : Option Bool :=
  match op with
  | .eq => some (a == b)
  | .notEq => some (a != b)
  | .and => some (a && b)
  | .or => some (a || b)
  | _ => none

/-- What an operator tells of two integers. -/
def comparison? (op : BinaryOp) (x y : Int) : Option Bool :=
  match op with
  | .eq => some (decide (x = y))
  | .notEq => some (decide (x ≠ y))
  | .lt => some (decide (x < y))
  | .ltEq => some (decide (x ≤ y))
  | .gt => some (decide (y < x))
  | .gtEq => some (decide (y ≤ x))
  | _ => none

/-- The exact number that an operator gives, where there is one: quotients are truncated,
patterns are read by `read`, and a shift to the right rounds down. -/
def number? (read : BitVec 32 → Int) (op : BinaryOp) (x y : Int) : Option Int :=
  match op with
  | .add => some (x + y)
  | .sub => some (x - y)
  | .mul => some (x * y)
  | .div => if y = 0 then none else some (x.tdiv y)
  | .rem => if y = 0 then none else some (x.tmod y)
  | .bitAnd => some (read (pattern x &&& pattern y))
  | .bitOr => some (read (pattern x ||| pattern y))
  | .bitXor => some (read (pattern x ^^^ pattern y))
  | .shl => if 0 ≤ y ∧ y < 32 then some (read (pattern (x * Nat.pow 2 y.toNat))) else none
  | .shr => if 0 ≤ y ∧ y < 32 then some (x / Nat.pow 2 y.toNat) else none
  | _ => none

/-- What an operator does to a value; a minus sign needs a signed integer. -/
def unary? (op : UnaryOp) (v : Meaning) : Option Meaning :=
  match op, v with
  | .not, .bool b => some (.bool !b)
  | .neg, .int i => some (.int (-i))
  | .bitNot, .int i => some (.int (~~~pattern i).toInt)
  | .bitNot, .uint i => some (.uint (unsigned (~~~pattern i)))
  | _, _ => none

/-- What an operator does to two values, which must be of one type. -/
def binary? (op : BinaryOp) (l r : Meaning) : Option Meaning :=
  match l, r with
  | .bool a, .bool b => (logic? op a b).map .bool
  | .int x, .int y => ((comparison? op x y).map .bool).or ((number? BitVec.toInt op x y).map .int)
  | .uint x, .uint y => ((comparison? op x y).map .bool).or ((number? unsigned op x y).map .uint)
  | _, _ => none

/-- The operands that a unary operator is not defined for. -/
inductive UnaryFault : UnaryOp → Meaning → Prop where
  | ofBool {op : UnaryOp} {b : Bool} (hop : op ≠ .not) : UnaryFault op (.bool b)
  | notNumber {v : Meaning} (hv : v.kind ≠ .bool) : UnaryFault .not v
  | minusUint {i : Int} : UnaryFault .neg (.uint i)
  | outOfRange {i : Int} (h : ¬(Meaning.int (-i)).InRange) : UnaryFault .neg (.int i)

/-- The operands that a binary operator is not defined for. -/
inductive BinaryFault : BinaryOp → Meaning → Meaning → Prop where
  | mixed {op : BinaryOp} {l r : Meaning} (h : l.kind ≠ r.kind) : BinaryFault op l r
  | ofBools {op : BinaryOp} {a b : Bool}
      (hop : op ∈ BinaryOp.ordering ++ BinaryOp.arithmetic ++ BinaryOp.bitwise) :
      BinaryFault op (.bool a) (.bool b)
  | logicOfNumbers {op : BinaryOp} {l r : Meaning} (hop : op = .and ∨ op = .or)
      (hl : l.kind ≠ .bool) : BinaryFault op l r
  | outOfRange {op : BinaryOp} {l r v : Meaning} (hop : op ∈ [BinaryOp.add, .sub, .mul])
      (hv : binary? op l r = some v) (h : ¬v.InRange) : BinaryFault op l r
  | zeroDivisor {op : BinaryOp} {l r : Meaning} (hop : op ∈ [BinaryOp.div, .rem])
      (hr : r = .int 0 ∨ r = .uint 0) : BinaryFault op l r
  | leastByMinusOne {op : BinaryOp} (hop : op ∈ [BinaryOp.div, .rem]) :
      BinaryFault op (.int (-2147483648)) (.int (-1))
  | shiftAmount {op : BinaryOp} {l r : Meaning} {k : Int} (hop : op ∈ [BinaryOp.shl, .shr])
      (hr : r = .int k ∨ r = .uint k) (hk : ¬(0 ≤ k ∧ k < 32)) : BinaryFault op l r

/-- The faults of two numbers of one kind, operator by operator. -/
theorem binaryFault_iff (op : BinaryOp) {l r : Meaning} (hkind : l.kind = r.kind)
    (hnumber : l.kind ≠ .bool) :
    BinaryFault op l r ↔ op = .and ∨ op = .or ∨
      (op ∈ [BinaryOp.add, .sub, .mul] ∧ ∃ v, binary? op l r = some v ∧ ¬v.InRange) ∨
      (op ∈ [BinaryOp.div, .rem] ∧
        (r = .int 0 ∨ r = .uint 0 ∨ l = .int (-2147483648) ∧ r = .int (-1))) ∨
      (op ∈ [BinaryOp.shl, .shr] ∧ ∃ k, (r = .int k ∨ r = .uint k) ∧ ¬(0 ≤ k ∧ k < 32)) := by
  constructor
  · intro h
    cases h with
    | mixed h => exact absurd hkind h
    | ofBools _ => exact absurd rfl hnumber
    | logicOfNumbers hop _ => exact hop.elim .inl fun h => .inr (.inl h)
    | outOfRange hop hv h => exact .inr (.inr (.inl ⟨hop, _, hv, h⟩))
    | zeroDivisor hop hr =>
        exact .inr (.inr (.inr (.inl ⟨hop, hr.elim .inl fun h => .inr (.inl h)⟩)))
    | leastByMinusOne hop => exact .inr (.inr (.inr (.inl ⟨hop, .inr (.inr ⟨rfl, rfl⟩)⟩)))
    | shiftAmount hop hr hk => exact .inr (.inr (.inr (.inr ⟨hop, _, hr, hk⟩)))
  · rintro (hop | hop | ⟨hop, v, hv, h⟩ | ⟨hop, hr | hr | ⟨rfl, rfl⟩⟩ | ⟨hop, k, hr, hk⟩)
    · exact .logicOfNumbers (.inl hop) hnumber
    · exact .logicOfNumbers (.inr hop) hnumber
    · exact .outOfRange hop hv h
    · exact .zeroDivisor hop (.inl hr)
    · exact .zeroDivisor hop (.inr hr)
    · exact .leastByMinusOne hop
    · exact .shiftAmount hop hr hk

/-- The negation of a truth value is always defined. -/
theorem not_unaryFault_not (b : Bool) : ¬UnaryFault .not (.bool b) := by
  intro h
  cases h with
  | ofBool hop => exact hop rfl
  | notNumber hv => exact hv rfl

/-- Negation fails where the negated integer is out of range. -/
theorem unaryFault_neg_iff {i : Int} : UnaryFault .neg (.int i) ↔ ¬(Meaning.int (-i)).InRange := by
  constructor
  · intro h
    cases h with
    | outOfRange h => exact h
  · exact .outOfRange

theorem not_unaryFault_bitNot {v : Meaning} (hv : v.kind ≠ .bool) : ¬UnaryFault .bitNot v := by
  intro h
  cases h with
  | ofBool _ => exact hv rfl

end Meaning

namespace Constant

open Meaning

/-- What a constant stands for; no float has a meaning here. -/
def meaning? : Constant → Option Meaning
  | .bool b => some (.bool b)
  | .int i => some (.int i.toInt)
  | .uint u => some (.uint u.toNat)
  | .float _ => none

theorem inRange_int (a : Int32) : (Meaning.int a.toInt).InRange := ⟨a.le_toInt, a.toInt_lt⟩

theorem inRange_uint (a : UInt32) : (Meaning.uint a.toNat).InRange :=
  ⟨Int.natCast_nonneg _, Int.ofNat_lt.mpr a.toNat_lt⟩

theorem inRange_of_meaning? {c : Constant} {v : Meaning} (h : c.meaning? = some v) :
    v.InRange := by
  cases c with
  | bool b =>
      cases h
      trivial
  | int i =>
      cases h
      exact inRange_int i
  | uint u =>
      cases h
      exact inRange_uint u
  | float x => cases h

/-- A result is the exact one: it has the exact meaning, and it is missing only for a fault. -/
inductive Renders (exact : Option Meaning) (fault : Prop) : Option Constant → Prop where
  | result {c : Constant} {v : Meaning} (hc : c.meaning? = some v) (hv : exact = some v)
      (h : ¬fault) : Renders exact fault (some c)
  | missing (h : fault) : Renders exact fault none

section Results

variable {exact : Option Meaning} {fault fault' : Prop} {result : Option Constant}

/-- The fault may be stated in any equivalent way. -/
theorem Renders.of_iff (h : Renders exact fault result) (hfault : fault ↔ fault') :
    Renders exact fault' result := by
  cases h with
  | result hc hv h => exact .result hc hv fun hf => h (hfault.mpr hf)
  | missing h => exact .missing (hfault.mp h)

theorem int?_of_inRange {i : Int} (h : (Meaning.int i).InRange) :
    ∃ a, int? i = some a ∧ a.toInt = i :=
  ⟨Int32.ofInt i, if_pos ⟨h.1, Int.le_of_lt_add_one h.2⟩, Int32.toInt_ofInt_of_le h.1 h.2⟩

theorem int?_of_not_inRange {i : Int} (h : ¬(Meaning.int i).InRange) : int? i = none :=
  if_neg fun hi => h ⟨hi.1, Int.lt_add_one_of_le hi.2⟩

theorem uint?_of_inRange {i : Int} (h : (Meaning.uint i).InRange) :
    ∃ a, uint? i = some a ∧ (a.toNat : Int) = i := by
  obtain ⟨hle, hlt⟩ := h
  have hword : (UInt32.ofNat i.toNat).toNat = i.toNat :=
    UInt32.toNat_ofNat_of_lt' (show i.toNat < 4294967296 by omega)
  exact ⟨UInt32.ofNat i.toNat, if_pos ⟨hle, hlt⟩, by rw [hword, Int.toNat_of_nonneg hle]⟩

theorem uint?_of_not_inRange {i : Int} (h : ¬(Meaning.uint i).InRange) : uint? i = none :=
  if_neg fun hi => h ⟨hi.1, hi.2⟩

/-- An integer is rendered as a word, or is out of range. Unsigned values are alike. -/
theorem renders_int? (i : Int) :
    Renders (some (.int i)) (¬(Meaning.int i).InRange) ((int? i).map .int) := by
  by_cases hi : (Meaning.int i).InRange
  · obtain ⟨a, ha, rfl⟩ := int?_of_inRange hi
    rw [ha]
    exact .result rfl rfl (not_not_intro hi)
  · rw [int?_of_not_inRange hi]
    exact .missing hi

theorem renders_uint? (i : Int) :
    Renders (some (.uint i)) (¬(Meaning.uint i).InRange) ((uint? i).map .uint) := by
  by_cases hi : (Meaning.uint i).InRange
  · obtain ⟨a, ha, rfl⟩ := uint?_of_inRange hi
    rw [ha]
    exact .result rfl rfl (not_not_intro hi)
  · rw [uint?_of_not_inRange hi]
    exact .missing hi

/-- An operator that is defined for some operands only. -/
theorem renders_ite {α β : Type} {f : α → Meaning} {g : β → Constant} {number : Option α}
    {result : Option β} {p q : Prop} [Decidable p] [Decidable q] (hpq : p ↔ q)
    (hfault : ¬p → fault) (h : p → Renders (number.map f) fault (result.map g)) :
    Renders ((if p then number else none).map f) fault
      ((if q then result else none).map g) := by
  by_cases hp : p
  · rw [if_pos hp, if_pos (hpq.mp hp)]
    exact h hp
  · rw [if_neg hp, if_neg fun hq => hp (hpq.mpr hq)]
    exact .missing (hfault hp)

/-- A comparison of numbers, or else an operator that gives a number. -/
theorem renders_numeric? {op : BinaryOp} {x y : Int} {number : Option Meaning}
    (hcomparison : comparison? op (some (compare x y)) = Meaning.comparison? op x y)
    (hfault : Meaning.comparison? op x y ≠ none → ¬fault)
    (hnumber : Meaning.comparison? op x y = none → Renders number fault result) :
    Renders (((Meaning.comparison? op x y).map .bool).or number) fault
      (numeric? op (some (compare x y)) result) := by
  rw [numeric?, hcomparison]
  cases hxy : Meaning.comparison? op x y with
  | none => exact hnumber hxy
  | some b => exact .result rfl rfl (hfault (by simp [hxy]))

/-- Comparing natural numbers as integers changes nothing. -/
theorem compare_natCast (m n : Nat) : compare (m : Int) n = compare m n := by
  rcases Nat.lt_trichotomy m n with h | h | h
  · rw [Nat.compare_eq_lt.mpr h, Int.compare_eq_lt.mpr (Int.ofNat_lt.mpr h)]
  · rw [Nat.compare_eq_eq.mpr h, Int.compare_eq_eq.mpr (Int.ofNat_inj.mpr h)]
  · rw [Nat.compare_eq_gt.mpr h, Int.compare_eq_gt.mpr (Int.ofNat_lt.mpr h)]

/-- A comparison of values is the comparison of their meanings. -/
theorem comparison?_compare (op : BinaryOp) (x y : Int) :
    comparison? op (some (compare x y)) = Meaning.comparison? op x y := by
  rcases Int.lt_trichotomy x y with h | h | h
  · have hne : x ≠ y := by omega
    have hle : x ≤ y := by omega
    rw [Int.compare_eq_lt.mpr h]
    cases op <;> simp [comparison?, Meaning.comparison?, h, hne, hle]
  · rw [Int.compare_eq_eq.mpr h, h]
    cases op <;> simp [comparison?, Meaning.comparison?]
  · have hne : x ≠ y := by omega
    have hge : y ≤ x := by omega
    rw [Int.compare_eq_gt.mpr h]
    cases op <;> simp [comparison?, Meaning.comparison?, h, hne, hge]

end Results

section Words

theorem pattern_toInt (a : Int32) : pattern a.toInt = a.toBitVec := BitVec.ofInt_toInt

theorem pattern_toNat (a : UInt32) : pattern a.toNat = a.toBitVec := by
  rw [pattern, BitVec.ofInt_natCast, ← UInt32.toNat_toBitVec, BitVec.ofNat_toNat]
  rfl

/-- An amount to shift by is within the width of a word, so that reducing it changes nothing. -/
theorem toNat_amount {b : Int32} (h : 0 ≤ b.toInt ∧ b.toInt < 32) :
    (b.toBitVec.smod 32).toNat = b.toInt.toNat := by
  have hsmod : (b.toBitVec.smod 32).toInt = b.toInt := by
    rw [BitVec.toInt_smod]
    change b.toInt.fmod 32 = b.toInt
    rw [Int.fmod_eq_emod_of_nonneg _ (by omega), Int.emod_eq_of_lt h.1 h.2]
  have hcases := BitVec.toInt_eq_toNat_cond (b.toBitVec.smod 32)
  have hlt := (b.toBitVec.smod 32).isLt
  split at hcases <;> omega

/-- Shifting left is a multiplication that is cut to the width of a word. -/
theorem toInt_shiftLeft {a b : Int32} (h : 0 ≤ b.toInt ∧ b.toInt < 32) :
    (a <<< b).toInt = (pattern (a.toInt * Nat.pow 2 b.toInt.toNat)).toInt := by
  have hpower : BitVec.ofNat 32 (Nat.pow 2 b.toInt.toNat) = BitVec.twoPow 32 b.toInt.toNat := by
    apply BitVec.eq_of_toNat_eq
    rw [BitVec.toNat_ofNat, BitVec.toNat_twoPow]
    rfl
  have hpattern : (a <<< b).toBitVec = pattern (a.toInt * Nat.pow 2 b.toInt.toNat) := by
    rw [pattern, BitVec.ofInt_mul, ← pattern, pattern_toInt, BitVec.ofInt_natCast, hpower,
      Int32.toBitVec_shiftLeft, BitVec.shiftLeft_eq', toNat_amount h,
      BitVec.shiftLeft_eq_mul_twoPow]
  rw [← Int32.toInt_toBitVec, hpattern]

/-- Shifting right divides by a power of two and rounds down. -/
theorem toInt_shiftRight {a b : Int32} (h : 0 ≤ b.toInt ∧ b.toInt < 32) :
    (a >>> b).toInt = a.toInt / Nat.pow 2 b.toInt.toNat := by
  rw [← Int32.toInt_toBitVec, Int32.toBitVec_shiftRight, BitVec.toInt_sshiftRight',
    toNat_amount h, Int.shiftRight_eq_div_pow, Int32.toInt_toBitVec]
  rfl

theorem toNat_shiftLeft {a b : UInt32} (h : (b.toNat : Int) < 32) :
    ((a <<< b).toNat : Int) = unsigned (pattern (a.toNat * Nat.pow 2 (b.toNat : Int).toNat)) := by
  have hamount : b.toNat % 32 = b.toNat := Nat.mod_eq_of_lt (by omega)
  rw [UInt32.toNat_shiftLeft, hamount, Nat.shiftLeft_eq, unsigned, pattern, Int.toNat_natCast,
    ← Int.natCast_mul, BitVec.ofInt_natCast, BitVec.toNat_ofNat]
  rfl

theorem toNat_shiftRight {a b : UInt32} (h : (b.toNat : Int) < 32) :
    ((a >>> b).toNat : Int) = a.toNat / Nat.pow 2 (b.toNat : Int).toNat := by
  have hamount : b.toNat % 32 = b.toNat := Nat.mod_eq_of_lt (by omega)
  rw [UInt32.toNat_shiftRight, hamount, Nat.shiftRight_eq_div_pow, Int.toNat_natCast,
    ← Int.natCast_ediv]
  rfl

/-- Truncated quotients are in range, except that of the least number by minus one. -/
theorem inRange_tdiv {x y : Int} (hx : (Meaning.int x).InRange) (hy : y ≠ 0)
    (hne : ¬(x = -2147483648 ∧ y = -1)) : (Meaning.int (x.tdiv y)).InRange := by
  have hquotient : (x.tdiv y).natAbs = x.natAbs / y.natAbs := Int.natAbs_tdiv x y
  simp only [InRange] at hx ⊢
  rcases Nat.lt_or_ge y.natAbs 2 with hone | htwo
  · obtain rfl | rfl : y = 1 ∨ y = -1 := by omega
    · rw [Int.tdiv_one]
      exact hx
    · rw [Int.tdiv_neg, Int.tdiv_one]
      omega
  · have hhalf : x.natAbs / y.natAbs ≤ x.natAbs / 2 := Nat.div_le_div_left htwo (by decide)
    omega

/-- What is no greater than an unsigned value in range is in range. -/
theorem inRange_natCast {m n : Nat} (hm : m ≤ n) (hn : (Meaning.uint n).InRange) :
    (Meaning.uint m).InRange := by
  simp only [InRange] at hn ⊢
  omega

/-- A remainder is smaller than its divisor, and hence in range. -/
theorem inRange_tmod {x y : Int} (hy : (Meaning.int y).InRange) (hne : y ≠ 0) :
    (Meaning.int (x.tmod y)).InRange := by
  have hrest : (x.tmod y).natAbs < y.natAbs := by
    rw [Int.natAbs_tmod]
    exact Nat.mod_lt _ (by omega)
  simp only [InRange] at hy ⊢
  omega

end Words

section Operators

/-- A prefix operator renders its exact meaning. -/
theorem renders_unary? (op : UnaryOp) {c : Constant} {v : Meaning} (hc : c.meaning? = some v) :
    Renders (Meaning.unary? op v) (UnaryFault op v) (unary? op c) := by
  cases c with
  | bool b =>
      cases hc
      cases op with
      | not => exact .result rfl rfl (not_unaryFault_not b)
      | neg => exact .missing (.ofBool (by simp))
      | bitNot => exact .missing (.ofBool (by simp))
  | int i =>
      cases hc
      cases op with
      | not => exact .missing (.notNumber (by simp [kind]))
      | neg => exact (renders_int? _).of_iff unaryFault_neg_iff.symm
      | bitNot =>
          refine .result (v := .int (~~~pattern i.toInt).toInt) ?_ rfl
            (not_unaryFault_bitNot (by simp [kind]))
          rw [pattern_toInt]
          rfl
  | uint u =>
      cases hc
      cases op with
      | not => exact .missing (.notNumber (by simp [kind]))
      | neg => exact .missing .minusUint
      | bitNot =>
          refine .result (v := .uint (unsigned (~~~pattern u.toNat))) ?_ rfl
            (not_unaryFault_bitNot (by simp [kind]))
          rw [pattern_toNat]
          rfl
  | float x => cases hc

/-- The operators on truth values render their exact meaning. -/
theorem renders_bools (op : BinaryOp) (a b : Bool) :
    Renders (Meaning.binary? op (.bool a) (.bool b)) (BinaryFault op (.bool a) (.bool b))
      (binary? op (.bool a) (.bool b)) := by
  have hfine (hop : op ∉ BinaryOp.ordering ++ BinaryOp.arithmetic ++ BinaryOp.bitwise) :
      ¬BinaryFault op (.bool a) (.bool b) := by
    intro h
    cases h with
    | mixed h => exact h rfl
    | ofBools h => exact hop h
    | logicOfNumbers _ h => exact h rfl
    | outOfRange h _ _ => exact hop (by revert h; cases op <;> decide)
    | zeroDivisor _ h => simp at h
    | shiftAmount _ h _ => simp at h
  cases op with
  | eq | notEq | and | or => exact .result rfl rfl (hfine (by decide))
  | _ => exact .missing (.ofBools (by decide))

/-- A division of signed numbers, the remainder too, needs the quotient to be in range. -/
theorem renders_division {op : BinaryOp} (hop : op ∈ [BinaryOp.div, .rem]) {a b : Int32}
    {exact : Int} {result : Int32 → Option Int32}
    (h : b.toInt ≠ 0 → ∀ q : Int32, q.toInt = a.toInt.tdiv b.toInt →
      ∃ m, result q = some m ∧ m.toInt = exact) :
    Renders ((if b.toInt = 0 then none else some exact).map .int)
      (BinaryFault op (.int a.toInt) (.int b.toInt))
      ((if b.toInt = 0 then none else (int? (a.toInt.tdiv b.toInt)).bind result).map .int) := by
  have hfault := binaryFault_iff op (l := .int a.toInt) (r := .int b.toInt)
    (by simp only [kind]) (by simp [kind])
  rw [← ite_not, ← ite_not (b.toInt = 0)]
  refine renders_ite .rfl (fun hzero => .zeroDivisor hop (.inl ?_)) fun hzero => ?_
  · rw [Decidable.not_not.mp hzero]
  by_cases hleast : a.toInt = -2147483648 ∧ b.toInt = -1
  · rw [hleast.1, hleast.2]
    exact .missing (.leastByMinusOne hop)
  · obtain ⟨q, hq, hquotient⟩ := int?_of_inRange (inRange_tdiv (inRange_int a) hzero hleast)
    obtain ⟨m, hm, rfl⟩ := h hzero q hquotient
    rw [hq, Option.bind_some, hm]
    refine .result rfl rfl ?_
    rw [hfault]
    grind

/-- The operators on signed integers render their exact meaning, and fail where it is out of range.
-/
theorem renders_ints (op : BinaryOp) (a b : Int32) :
    Renders (Meaning.binary? op (.int a.toInt) (.int b.toInt))
      (BinaryFault op (.int a.toInt) (.int b.toInt)) (binary? op (.int a) (.int b)) := by
  have hfault := binaryFault_iff op (l := .int a.toInt) (r := .int b.toInt)
    (by simp only [kind]) (by simp [kind])
  have hfine (h : op ∉ [BinaryOp.and, .or, .add, .sub, .mul, .div, .rem, .shl, .shr]) :
      ¬BinaryFault op (.int a.toInt) (.int b.toInt) := by
    rw [hfault]
    grind
  refine renders_numeric? (comparison?_compare op _ _) (fun h => ?_) fun h => ?_
  · apply hfine
    cases op <;> simp [Meaning.comparison?] at h ⊢
  · cases op with
    | add | sub | mul =>
        refine (renders_int? _).of_iff ?_
        simp [hfault, Meaning.binary?, Meaning.comparison?, number?]
    | div =>
        simp only [number?, intOp?]
        rw [← Option.bind_fun_some (int? _)]
        exact renders_division (by simp) fun _ q hq => ⟨q, rfl, hq⟩
    | rem =>
        simp only [number?, intOp?]
        exact renders_division (by simp) fun hzero _ _ =>
          int?_of_inRange (inRange_tmod (inRange_int b) hzero)
    | bitAnd | bitOr | bitXor =>
        simp only [number?, intOp?, pattern_toInt]
        exact .result rfl rfl (hfine (by simp))
    | shl =>
        simp only [number?, intOp?]
        refine renders_ite .rfl (.shiftAmount (by simp) (.inl rfl)) fun hamount => ?_
        rw [← toInt_shiftLeft hamount]
        exact .result rfl rfl (by simpa [hfault] using hamount)
    | shr =>
        simp only [number?, intOp?]
        refine renders_ite .rfl (.shiftAmount (by simp) (.inl rfl)) fun hamount => ?_
        rw [← toInt_shiftRight hamount]
        exact .result rfl rfl (by simpa [hfault] using hamount)
    | and => exact .missing (.logicOfNumbers (.inl rfl) (by simp [kind]))
    | or => exact .missing (.logicOfNumbers (.inr rfl) (by simp [kind]))
    | _ => simp [Meaning.comparison?] at h

/-- The operators on unsigned integers render their exact meaning, and fail where it is out of
range. -/
theorem renders_uints (op : BinaryOp) (a b : UInt32) :
    Renders (Meaning.binary? op (.uint a.toNat) (.uint b.toNat))
      (BinaryFault op (.uint a.toNat) (.uint b.toNat)) (binary? op (.uint a) (.uint b)) := by
  have hfault := binaryFault_iff op (l := .uint a.toNat) (r := .uint b.toNat)
    (by simp only [kind]) (by simp [kind])
  have hfine (h : op ∉ [BinaryOp.and, .or, .add, .sub, .mul, .div, .rem, .shl, .shr]) :
      ¬BinaryFault op (.uint a.toNat) (.uint b.toNat) := by
    rw [hfault]
    grind
  have hamount : (0 ≤ (b.toNat : Int) ∧ (b.toNat : Int) < 32) ↔ (b.toNat : Int) < 32 :=
    and_iff_right (Int.natCast_nonneg _)
  have hnumeric : binary? op (.uint a) (.uint b) =
      numeric? op (some (compare (a.toNat : Int) b.toNat)) ((uintOp? op a b).map .uint) := by
    rw [compare_natCast]
    rfl
  rw [hnumeric]
  refine renders_numeric? (comparison?_compare op _ _) (fun h => ?_) fun h => ?_
  · apply hfine
    cases op <;> simp [Meaning.comparison?] at h ⊢
  · cases op with
    | add | sub | mul =>
        refine (renders_uint? _).of_iff ?_
        simp [hfault, Meaning.binary?, Meaning.comparison?, number?]
    | div =>
        simp only [number?, uintOp?, ← ite_not ((b.toNat : Int) = 0), ← Int.ofNat_tdiv]
        refine renders_ite .rfl (fun h => .zeroDivisor (by simp) (.inr ?_)) fun hzero => ?_
        · rw [Decidable.not_not.mp h]
        obtain ⟨q, hq, hexact⟩ := uint?_of_inRange
          (inRange_natCast (Nat.div_le_self a.toNat b.toNat) (inRange_uint a))
        rw [hq, ← hexact]
        exact .result rfl rfl (by simpa [hfault] using hzero)
    | rem =>
        simp only [number?, uintOp?, ← ite_not ((b.toNat : Int) = 0), ← Int.ofNat_tmod]
        refine renders_ite .rfl (fun h => .zeroDivisor (by simp) (.inr ?_)) fun hzero => ?_
        · rw [Decidable.not_not.mp h]
        obtain ⟨m, hm, hexact⟩ := uint?_of_inRange
          (inRange_natCast (Nat.mod_le a.toNat b.toNat) (inRange_uint a))
        rw [hm, ← hexact]
        exact .result rfl rfl (by simpa [hfault] using hzero)
    | bitAnd | bitOr | bitXor =>
        simp only [number?, uintOp?, pattern_toNat]
        exact .result rfl rfl (hfine (by simp))
    | shl =>
        simp only [number?, uintOp?]
        refine renders_ite hamount (.shiftAmount (by simp) (.inr rfl)) fun h => ?_
        rw [← toNat_shiftLeft h.2]
        exact .result rfl rfl (by simpa [hfault] using h)
    | shr =>
        simp only [number?, uintOp?]
        refine renders_ite hamount (.shiftAmount (by simp) (.inr rfl)) fun h => ?_
        rw [← toNat_shiftRight h.2]
        exact .result rfl rfl (by simpa [hfault] using h)
    | and => exact .missing (.logicOfNumbers (.inl rfl) (by simp [kind]))
    | or => exact .missing (.logicOfNumbers (.inr rfl) (by simp [kind]))
    | _ => simp [Meaning.comparison?] at h

/-- The binary operators give the exact results, and none exactly for faults. -/
theorem renders_binary? (op : BinaryOp) {c d : Constant} {v w : Meaning}
    (hc : c.meaning? = some v) (hd : d.meaning? = some w) :
    Renders (Meaning.binary? op v w) (BinaryFault op v w) (binary? op c d) := by
  cases c with
  | float _ => cases hc
  | bool a =>
      cases hc
      cases d with
      | float _ => cases hd
      | bool b =>
          cases hd
          exact renders_bools op a b
      | int _ | uint _ =>
          cases hd
          exact .missing (.mixed (by simp [kind]))
  | int a =>
      cases hc
      cases d with
      | float _ => cases hd
      | int b =>
          cases hd
          exact renders_ints op a b
      | bool _ | uint _ =>
          cases hd
          exact .missing (.mixed (by simp [kind]))
  | uint a =>
      cases hc
      cases d with
      | float _ => cases hd
      | uint b =>
          cases hd
          exact renders_uints op a b
      | bool _ | int _ =>
          cases hd
          exact .missing (.mixed (by simp [kind]))

end Operators

end Constant

end Shading
