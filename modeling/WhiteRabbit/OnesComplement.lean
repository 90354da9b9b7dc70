import Mathlib.Algebra.BigOperators.Group.List.Basic
import Mathlib.Algebra.Ring.Nat

/-!
# One's complement sums

The sum of words of 16 bits, where a carry out of the top is added at the bottom. It is the
sum of the integers modulo 65535, with all ones for zero unless every word is zero.
-/

namespace WhiteRabbit.OnesComplement

/-- The words of some bytes; a byte that is left over is padded by a zero byte. -/
def words : List UInt8 → List ℕ
  | [] => []
  | [a] => [a.toNat * 256]
  | a :: b :: bytes => (a.toNat * 256 + b.toNat) :: words bytes

/-- The one's complement sum. -/
def onesSum (ws : List ℕ) : ℕ := ws.foldl (fun a w => if a + w < 2 ^ 16 then a + w else a + w - (2 ^ 16 - 1)) 0

theorem words_le : ∀ (bytes : List UInt8), ∀ w ∈ words bytes, w < 2 ^ 16
  | [], w, hw => absurd hw List.not_mem_nil
  | [a], w, hw => by
    have ha := a.toNat_lt
    rw [words, List.mem_singleton] at hw
    omega
  | a :: b :: bytes, w, hw => by
    have ha := a.toNat_lt
    have hb := b.toNat_lt
    rw [words, List.mem_cons] at hw
    rcases hw with rfl | hw
    · omega
    · exact words_le bytes w hw

theorem sum_words_le : ∀ bytes : List UInt8, (words bytes).sum ≤ (bytes.length + 1) / 2 * 65535
  | [] => Nat.zero_le _
  | [a] => by
    have ha := a.toNat_lt
    simp only [words, List.sum_cons, List.sum_nil, List.length_cons, List.length_nil]
    omega
  | a :: b :: bytes => by
    have ha := a.toNat_lt
    have hb := b.toNat_lt
    have ih := sum_words_le bytes
    simp only [words, List.sum_cons, List.length_cons]
    omega

theorem onesSum_eq {ws : List ℕ} (h : ∀ w ∈ ws, w < 2 ^ 16) :
    onesSum ws = if ws.sum = 0 then 0 else (ws.sum - 1) % 65535 + 1 := by
  have hfold : ∀ (ws : List ℕ) (x : ℕ), (∀ w ∈ ws, w < 2 ^ 16) →
      ws.foldl (fun a w => if a + w < 2 ^ 16 then a + w else a + w - (2 ^ 16 - 1))
        (if x = 0 then 0 else (x - 1) % 65535 + 1) =
      if x + ws.sum = 0 then 0 else (x + ws.sum - 1) % 65535 + 1 := by
    intro ws
    induction ws with
    | nil => exact fun x _ => by rw [List.sum_nil, Nat.add_zero]; rfl
    | cons w ws ih =>
      intro x hw
      have hlt := hw w (List.mem_cons_self ..)
      have hstep : (if (if x = 0 then 0 else (x - 1) % 65535 + 1) + w < 2 ^ 16 then
          (if x = 0 then 0 else (x - 1) % 65535 + 1) + w
          else (if x = 0 then 0 else (x - 1) % 65535 + 1) + w - (2 ^ 16 - 1)) =
          if x + w = 0 then 0 else (x + w - 1) % 65535 + 1 := by
        split_ifs <;> omega
      rw [List.foldl_cons, hstep, ih (x + w) fun v hv => hw v (List.mem_cons_of_mem _ hv),
        List.sum_cons, Nat.add_assoc]
  have hzero := hfold ws 0 h
  rw [if_pos rfl, Nat.zero_add] at hzero
  exact hzero

theorem onesSum_ones_iff {ws : List ℕ} (h : ∀ w ∈ ws, w < 2 ^ 16) (hpos : 0 < ws.sum) :
    onesSum ws = 0xFFFF ↔ 65535 ∣ ws.sum := by
  rw [onesSum_eq h, if_neg (Nat.ne_of_gt hpos)]
  omega

@[simp] theorem sum_words_pair (a b : UInt8) (bytes : List UInt8) :
    (words (a :: b :: bytes)).sum = a.toNat * 256 + b.toNat + (words bytes).sum := by
  rw [words, List.sum_cons]

/-- Two bytes of the number are the word of it. -/
theorem word_of_bytes {x : ℕ} (hx : x < 2 ^ 16) :
    (UInt8.ofNat (x >>> 8)).toNat * 256 + (UInt8.ofNat x).toNat = x := by
  rw [UInt8.toNat_ofNat', UInt8.toNat_ofNat', Nat.shiftRight_eq_div_pow]
  omega

/-- The words by their places. -/
theorem sum_words_even : ∀ bytes : List UInt8, bytes.length % 2 = 0 →
    ((List.range (bytes.length / 2)).map fun i =>
      (bytes.getD (2 * i) 0).toNat * 256 + (bytes.getD (2 * i + 1) 0).toNat).sum = (words bytes).sum
  | [], _ => rfl
  | [a], h => absurd h (by rw [List.length_singleton]; decide)
  | a :: b :: bytes, h => by
    have heven : bytes.length % 2 = 0 := by
      rw [List.length_cons, List.length_cons] at h
      omega
    have hlen : (a :: b :: bytes).length / 2 = bytes.length / 2 + 1 := by
      simp only [List.length_cons]
      omega
    have ih := sum_words_even bytes heven
    rw [hlen, List.range_succ_eq_map, List.map_cons, List.map_map, List.sum_cons, sum_words_pair, ← ih]
    rfl

end WhiteRabbit.OnesComplement
