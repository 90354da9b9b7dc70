import Mathlib.Data.Nat.Bitwise

/-!
# Fields of bits

A register of equal fields is read one field at a time, and a field is replaced by clearing its
bits first. Reading and replacing one field are a lens on the register, and the lenses of
different fields do not touch each other.
-/

namespace WhiteRabbit.BitFields

/-- `reg & ~mask`. -/
def andNot (reg mask : ℕ) : ℕ := reg ^^^ (reg &&& mask)

@[simp] theorem testBit_andNot (reg mask i : ℕ) :
    (andNot reg mask).testBit i = (reg.testBit i && !mask.testBit i) := by
  rw [andNot, Nat.testBit_xor, Nat.testBit_and]
  cases reg.testBit i <;> cases mask.testBit i <;> rfl

/-- The field `k` of a register whose fields have `w` bits. -/
def field (w reg k : ℕ) : ℕ := reg >>> (w * k) &&& (2 ^ w - 1)

/-- Clear a field and put other bits there. -/
def setField (w reg k bits : ℕ) : ℕ := andNot reg ((2 ^ w - 1) <<< (w * k)) ||| bits <<< (w * k)

variable {w reg k j bits i : ℕ}

@[simp] theorem testBit_field (w reg k i : ℕ) :
    (field w reg k).testBit i = (decide (i < w) && reg.testBit (w * k + i)) := by
  simp [field]

theorem field_lt (w reg k : ℕ) : field w reg k < 2 ^ w :=
  Nat.lt_of_le_of_lt Nat.and_le_right (Nat.sub_lt (Nat.two_pow_pos w) Nat.one_pos)

theorem testBit_high (h : bits < 2 ^ w) (hi : w ≤ i) : bits.testBit i = false :=
  Nat.testBit_lt_two_pow (Nat.lt_of_lt_of_le h (Nat.pow_le_pow_right Nat.two_pos hi))

/-- Inside the field are the new bits, outside is the register as it was. -/
theorem testBit_setField (h : bits < 2 ^ w) (i : ℕ) : (setField w reg k bits).testBit i =
    if w * k ≤ i ∧ i < w * k + w then bits.testBit (i - w * k) else reg.testBit i := by
  simp only [setField, Nat.testBit_or, testBit_andNot, Nat.testBit_shiftLeft, Nat.testBit_two_pow_sub_one]
  by_cases hle : w * k ≤ i
  · by_cases hlt : i < w * k + w
    · have : i - w * k < w := by omega
      simp [hle, hlt, this]
    · have hhigh : bits.testBit (i - w * k) = false := testBit_high h (by omega)
      have : ¬ i - w * k < w := by omega
      simp [hle, hlt, this, hhigh]
  · simp [hle]

@[simp] theorem field_setField_self (h : bits < 2 ^ w) : field w (setField w reg k bits) k = bits := by
  refine Nat.eq_of_testBit_eq fun i => ?_
  rw [testBit_field, testBit_setField h]
  by_cases hi : i < w
  · simp [hi]
  · rw [testBit_high h (Nat.not_lt.mp hi), decide_eq_false hi, Bool.false_and]

/-- The bits of another field are outside. -/
theorem outside_field (hjk : j ≠ k) (hi : i < w) : ¬(w * k ≤ w * j + i ∧ w * j + i < w * k + w) := by
  rintro ⟨hle, hlt⟩
  rcases Nat.lt_or_gt_of_ne hjk with hlo | hhi
  · have := Nat.mul_le_mul_left w (Nat.succ_le_of_lt hlo)
    rw [Nat.mul_succ] at this
    omega
  · have := Nat.mul_le_mul_left w (Nat.succ_le_of_lt hhi)
    rw [Nat.mul_succ] at this
    omega

theorem field_setField_of_ne (h : bits < 2 ^ w) (hjk : j ≠ k) :
    field w (setField w reg k bits) j = field w reg j := by
  refine Nat.eq_of_testBit_eq fun i => ?_
  rw [testBit_field, testBit_field]
  by_cases hi : i < w
  · rw [testBit_setField h, if_neg (outside_field hjk hi)]
  · simp [hi]

@[simp] theorem setField_field (w reg k : ℕ) : setField w reg k (field w reg k) = reg := by
  refine Nat.eq_of_testBit_eq fun i => ?_
  rw [testBit_setField (field_lt w reg k), testBit_field]
  by_cases h : w * k ≤ i ∧ i < w * k + w
  · have hi : i - w * k < w := by omega
    rw [if_pos h, decide_eq_true hi, Bool.true_and, Nat.add_sub_cancel' h.1]
  · rw [if_neg h]

/-- What is above the field stays. -/
theorem setField_above (h : bits < 2 ^ w) {top : ℕ} (htop : w * k + w ≤ top) :
    setField w reg k bits >>> top = reg >>> top := by
  refine Nat.eq_of_testBit_eq fun i => ?_
  rw [Nat.testBit_shiftRight, Nat.testBit_shiftRight, testBit_setField h, if_neg (by omega)]

/-- Bits of one field are set, and the other fields stay. -/
theorem field_or_shiftLeft (h : bits < 2 ^ w) (reg k j : ℕ) :
    field w (reg ||| bits <<< (w * k)) j = if j = k then field w reg k ||| bits else field w reg j := by
  refine Nat.eq_of_testBit_eq fun i => ?_
  rw [testBit_field, Nat.testBit_or, Nat.testBit_shiftLeft]
  by_cases hi : i < w
  · split_ifs with hjk
    · simp [hjk, hi]
    · have hout : (decide (w * j + i ≥ w * k) && bits.testBit (w * j + i - w * k)) = false := by
        by_cases hle : w * k ≤ w * j + i
        · have hge : w * k + w ≤ w * j + i := Nat.not_lt.mp fun hlt => outside_field hjk hi ⟨hle, hlt⟩
          rw [testBit_high h (by omega), Bool.and_false]
        · rw [decide_eq_false hle, Bool.false_and]
      rw [hout, Bool.or_false, testBit_field]
  · split_ifs
    · simp [hi, testBit_high h (Nat.not_lt.mp hi)]
    · simp [hi]

theorem and_bit_eq_zero (bits i : ℕ) : bits &&& 1 <<< i = 0 ↔ bits.testBit i = false := by
  rw [Nat.one_shiftLeft, Nat.and_two_pow]
  cases bits.testBit i <;> simp

theorem testBit_toNat_shiftLeft (b : Bool) (k i : ℕ) : (b.toNat <<< k).testBit i = (b && decide (i = k)) := by
  cases b with
  | false => simp
  | true =>
    rw [Bool.toNat_true, Nat.one_shiftLeft, Nat.testBit_two_pow, Bool.true_and]
    exact decide_eq_decide.mpr eq_comm

end WhiteRabbit.BitFields
