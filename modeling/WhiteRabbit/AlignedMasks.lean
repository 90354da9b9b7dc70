import Mathlib.Data.Nat.Bitwise

/-!
# Masks for aligned addresses

The mask `2 ^ n - 2 ^ k` keeps the bits `k .. n - 1`. A number survives it unchanged
exactly when it is below `2 ^ n` and a multiple of `2 ^ k`; otherwise its low bits are
cleared, and a smaller number can be put in their place with a bitwise or.
-/

namespace WhiteRabbit.AlignedMasks

variable {n k a low : ℕ}

private theorem mask_eq_shiftLeft (h : k ≤ n) : 2 ^ n - 2 ^ k = (2 ^ (n - k) - 1) <<< k := by
  rw [Nat.shiftLeft_eq, Nat.sub_mul, ← Nat.pow_add, Nat.sub_add_cancel h, Nat.one_mul]

theorem and_mask (h : k ≤ n) (a : ℕ) :
    a &&& (2 ^ n - 2 ^ k) = a / 2 ^ k % 2 ^ (n - k) * 2 ^ k := by
  rw [mask_eq_shiftLeft h, ← Nat.shiftLeft_eq, ← Nat.shiftRight_eq_div_pow]
  apply Nat.eq_of_testBit_eq
  intro i
  simp only [Nat.testBit_and, Nat.testBit_shiftLeft, Nat.testBit_two_pow_sub_one,
    Nat.testBit_mod_two_pow, Nat.testBit_shiftRight]
  by_cases hi : k ≤ i
  · simp [hi, Bool.and_comm]
  · simp [hi]

/-- The mask clears the low bits of a number that is not too large. -/
theorem and_mask_of_lt (h : k ≤ n) (ha : a < 2 ^ n) : a &&& (2 ^ n - 2 ^ k) = a / 2 ^ k * 2 ^ k := by
  have hq : a / 2 ^ k < 2 ^ (n - k) := by
    rw [Nat.div_lt_iff_lt_mul (Nat.two_pow_pos k), ← Nat.pow_add, Nat.sub_add_cancel h]
    exact ha
  rw [and_mask h, Nat.mod_eq_of_lt hq]

/-- The check `(a & mask) == a` accepts exactly the aligned numbers in range. -/
theorem and_mask_eq_self_iff (h : k ≤ n) : a &&& (2 ^ n - 2 ^ k) = a ↔ a < 2 ^ n ∧ 2 ^ k ∣ a := by
  constructor
  · intro ha
    have hm : a / 2 ^ k % 2 ^ (n - k) * 2 ^ k = a := (and_mask h a).symm.trans ha
    have hlt : a / 2 ^ k % 2 ^ (n - k) < 2 ^ (n - k) := Nat.mod_lt _ (Nat.two_pow_pos _)
    refine ⟨?_, Dvd.intro_left _ hm⟩
    calc a = a / 2 ^ k % 2 ^ (n - k) * 2 ^ k := hm.symm
      _ < 2 ^ (n - k) * 2 ^ k := Nat.mul_lt_mul_of_pos_right hlt (Nat.two_pow_pos k)
      _ = 2 ^ n := by rw [← Nat.pow_add, Nat.sub_add_cancel h]
  · rintro ⟨ha, hd⟩
    rw [and_mask_of_lt h ha, Nat.div_mul_cancel hd]

/-- Filling cleared low bits. -/
theorem or_low (hd : 2 ^ k ∣ a) (hl : low < 2 ^ k) : a ||| low = a + low := by
  obtain ⟨q, rfl⟩ := hd
  exact (Nat.two_pow_add_eq_or_of_lt hl q).symm

end WhiteRabbit.AlignedMasks
