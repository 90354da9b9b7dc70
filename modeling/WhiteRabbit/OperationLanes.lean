import WhiteRabbit.RecordAccesses

/-!
# Byte lanes of a checked operation

An operation that passed its check occupies `size` lanes of the data port. The select byte
names the lanes, the value is shifted onto them, and both sides rebuild the two addresses of
the operation from the aligned address and the lanes.
-/

namespace WhiteRabbit.Etherbone
open AlignedMasks BigEndian

variable {p : Port}

theorem Port.data_eq_pow (p : Port) : ∃ k ≤ 3, p.data = 2 ^ k := p.data_mem.eq_pow

theorem Port.data_dvd_space (p : Port) : p.data ∣ 256 ^ p.word := by
  obtain ⟨k, hk, h⟩ := p.data_eq_pow
  have hw : 3 ≤ 8 * p.word := by rcases p.word_mem with h | h | h <;> omega
  rw [h, show 256 ^ p.word = 2 ^ (8 * p.word) from (pow_mul 2 8 p.word).symm]
  exact Nat.pow_dvd_pow 2 (hk.trans hw)

theorem and_data_mask (p : Port) (a : ℕ) : a &&& (p.data - 1) = a % p.data := by
  obtain ⟨k, -, h⟩ := p.data_eq_pow
  rw [h, Nat.and_two_pow_sub_one_eq_mod]

/-- The address filter clears the low bits of an address in range. -/
theorem and_addressFilter {a : ℕ} (h : a < 256 ^ p.addr) :
    a &&& p.addressFilter = a / p.data * p.data := by
  obtain ⟨k, hk, hd⟩ := p.data_eq_pow
  have hn : 256 ^ p.addr = 2 ^ (8 * p.addr) := (pow_mul 2 8 p.addr).symm
  have hk' : k ≤ 8 * p.addr := by have := p.addr_mem.pos; omega
  have h1 : 1 ≤ 2 ^ k := Nat.one_le_two_pow
  have hf : p.addressFilter = 2 ^ (8 * p.addr) - 2 ^ k := by
    rw [Port.addressFilter, p.addressMask_eq, hn, hd]
    omega
  rw [hf, hd]
  exact and_mask_of_lt hk' (hn ▸ h)

theorem or_lane (a : ℕ) {low : ℕ} (h : low < p.data) :
    a / p.data * p.data ||| low = a / p.data * p.data + low := by
  obtain ⟨k, -, hd⟩ := p.data_eq_pow
  rw [hd] at h ⊢
  exact or_low (Nat.dvd_mul_left _ _) h

/-- Adding the stride keeps the low bits and moves to the next port word. -/
theorem advance_word (p : Port) (a : ℕ) {low : ℕ} (h : low < p.data) :
    (a / p.data * p.data + low + p.stride) % 256 ^ p.word =
      (a + p.stride) % 256 ^ p.word / p.data * p.data + low := by
  have hd : 0 < p.data := p.data_pos
  obtain ⟨m, hm⟩ := p.data_dvd_space
  have hs : p.stride = p.data := rfl
  have hnext : (a + p.data) / p.data = a / p.data + 1 := Nat.add_div_right a hd
  rw [hm, hs, Nat.mod_mul_right_div_self, hnext, Nat.mod_mul]
  have hq : (a / p.data * p.data + low + p.data) / p.data = a / p.data + 1 := by
    rw [Nat.add_div_right _ hd, Nat.mul_comm, Nat.mul_add_div hd, Nat.div_eq_of_lt h, Nat.add_zero]
  have hr : (a / p.data * p.data + low + p.data) % p.data = low := by
    rw [Nat.add_mod_right, Nat.mul_add_mod', Nat.mod_eq_of_lt h]
  rw [hq, hr, Nat.mul_comm p.data, Nat.add_comm]

/-- Adding the stride does not change the low address bits. -/
theorem advance_low (p : Port) (fifo : Bool) (a : ℕ) :
    p.advance fifo a % p.data = a % p.data := by
  cases fifo with
  | true => rfl
  | false =>
    have hs : p.stride = p.data := rfl
    simp only [Port.advance, Bool.false_eq_true, if_false]
    rw [Nat.mod_mod_of_dvd _ p.data_dvd_space, hs, Nat.add_mod_right]

namespace Formatted

variable {op : Operation}

theorem size_pos (h : Formatted p op) : 0 < op.size := h.size_mem.pos

theorem size_dvd (h : Formatted p op) : op.size ∣ p.data := h.size_mem.dvd_of_le p.data_mem h.size_le

theorem lowAddr_eq (_ : Formatted p op) : op.lowAddr p = op.address % p.data := and_data_mask p _

theorem size_dvd_low (h : Formatted p op) : op.size ∣ op.lowAddr p := by
  rw [h.lowAddr_eq]
  exact (Nat.dvd_mod_iff h.size_dvd).mpr h.aligned

/-- An aligned operation does not cross the end of the port. -/
theorem low_add_size (h : Formatted p op) : op.lowAddr p + op.size ≤ p.data := by
  have hlt : op.lowAddr p < p.data := by rw [h.lowAddr_eq]; exact Nat.mod_lt _ p.data_pos
  obtain ⟨i, hi⟩ := h.size_dvd_low
  obtain ⟨j, hj⟩ := h.size_dvd
  have hij : i < j := by
    rw [hi, hj] at hlt
    exact Nat.lt_of_mul_lt_mul_left hlt
  calc op.lowAddr p + op.size = op.size * (i + 1) := by rw [hi]; ring
    _ ≤ op.size * j := Nat.mul_le_mul_left _ hij
    _ = p.data := hj.symm

/-- How far the operation is shifted on the port. -/
theorem shift_spec (h : Formatted p op) :
    op.size ∣ opShift p op.format (op.lowAddr p) ∧
      opShift p op.format (op.lowAddr p) + op.size ≤ p.data := by
  have hl := h.low_add_size
  have hd := h.size_dvd_low
  change op.size ∣ (if op.endian = ebBigEndian then p.data - (op.lowAddr p + op.size)
      else op.lowAddr p) ∧ (if op.endian = ebBigEndian then p.data - (op.lowAddr p + op.size)
      else op.lowAddr p) + op.size ≤ p.data
  split
  · exact ⟨Nat.dvd_sub h.size_dvd (Nat.dvd_add hd (Nat.dvd_refl _)), by omega⟩
  · exact ⟨hd, hl⟩

theorem decodeSelect_eq (h : Formatted p op) :
    decodeSelect p.data (selectByte op.size (opShift p op.format (op.lowAddr p))) =
      ⟨true, opShift p op.format (op.lowAddr p), op.size⟩ :=
  decodeSelect_selectByte p.data_mem h.size_mem h.shift_spec.1 h.shift_spec.2

/-- The value on its lanes is not cut by the word, and is recovered from it. -/
theorem value_lanes (h : Formatted p op) (hw : op.isWrite = true) :
    let shift := opShift p op.format (op.lowAddr p)
    op.value <<< (shift <<< 3) < 256 ^ p.data ∧
      ((op.value <<< (shift <<< 3)) >>> (shift <<< 3)) &&& p.dataMask op.size = op.value := by
  intro shift
  have hv := h.value_lt hw
  have hle := h.shift_spec.2
  have h3 : shift <<< 3 = 8 * shift := by rw [Nat.shiftLeft_eq]; ring
  constructor
  · rw [h3, Nat.shiftLeft_eq, pow_mul]
    calc op.value * (2 ^ 8) ^ shift < 256 ^ op.size * 256 ^ shift :=
          Nat.mul_lt_mul_of_pos_right hv (Nat.pow_pos (by decide))
      _ = 256 ^ (op.size + shift) := (pow_add 256 _ _).symm
      _ ≤ 256 ^ p.data := Nat.pow_le_pow_right (by decide) (by omega)
  · have hp : (256 : ℕ) ^ op.size = 2 ^ (8 * op.size) := (pow_mul 2 8 op.size).symm
    rw [← Nat.shiftLeft_shiftRight op.value (shift <<< 3)] at hv
    rw [p.dataMask_eq h.size_le, hp, Nat.and_two_pow_sub_one_eq_mod, Nat.mod_eq_of_lt (hp ▸ hv),
      Nat.shiftLeft_shiftRight]

/-- The operation's own address is the one of its endian. -/
theorem busAddress_eq (h : Formatted p op) (hb : op.cfgSpace = false) :
    let shift := opShift p op.format (op.lowAddr p)
    let word := op.address &&& p.addressFilter
    op.busAddress (word ||| (p.data - (shift + op.size))) (word ||| shift) = op.address := by
  intro shift word
  have hlow := h.low_add_size
  have hpos := h.size_pos
  have hlt : op.lowAddr p < p.data := by omega
  have hword : word ||| op.lowAddr p = op.address := by
    rw [show word = op.address / p.data * p.data from and_addressFilter (h.bus_lt hb),
      or_lane _ hlt, h.lowAddr_eq, Nat.div_add_mod']
  have hle : ebLittleEndian ≠ ebBigEndian := by decide
  by_cases hend : op.endian = ebLittleEndian
  · have hs : shift = op.lowAddr p := if_neg (fun hb' => hle (hend.symm.trans hb'))
    rw [Operation.busAddress, if_pos hend, hs, hword]
  · rw [Operation.busAddress, if_neg hend]
    have hs : p.data - (shift + op.size) = op.lowAddr p := by
      rcases h.endian_mem with ⟨hfull, h0⟩ | ⟨-, hbig | hlit⟩
      · have hs : shift = op.lowAddr p := if_neg (by
          intro hb'
          have : ebBigEndian = 0 := hb'.symm.trans h0
          exact absurd this (by decide))
        omega
      · have hs : shift = p.data - (op.lowAddr p + op.size) := if_pos hbig
        omega
      · exact absurd hlit hend
    rw [hs, hword]

/-- Every address fits a record word. -/
theorem address_lt (h : Formatted p op) : op.address < 256 ^ p.alignment := by
  cases hc : op.cfgSpace with
  | false =>
    exact (h.bus_lt hc).trans_le (Nat.pow_le_pow_right (by decide) p.addr_le_alignment)
  | true =>
    have h2 : 2 ≤ p.alignment := by rcases p.alignment_mem with h | h | h <;> omega
    calc op.address < 2 ^ 16 := h.cfg_lt hc
      _ = 256 ^ 2 := by norm_num
      _ ≤ 256 ^ p.alignment := Nat.pow_le_pow_right (by decide) h2

/-- The read loop performs the operation. -/
theorem readAccess_eq (h : Formatted p op) (hr : op.isRead = true) :
    readAccess p (selectByte op.size (opShift p op.format (op.lowAddr p))) op.cfgSpace op.address =
      op.access p := by
  have hw : op.isWrite = false := by simpa [Operation.isRead] using hr
  simp only [readAccess, h.decodeSelect_eq, Operation.access, hw]
  cases op.cfgSpace <;> simp

end Formatted

end WhiteRabbit.Etherbone
