import Mathlib.Data.Nat.Bitwise
import Mathlib.Tactic.IntervalCases

/-!
# Bus widths

A width mask carries one bit for every supported data size in its low nibble and one for
every supported address size in its high nibble. A refined mask has exactly one bit in
each nibble, so its nibbles are the sizes in bytes. `Port` is a refined width together
with the word size the library was compiled for.
-/

namespace WhiteRabbit.Etherbone

def ebDataX : ℕ := 0x0f

def ebWidthPossible (width : ℕ) : Bool :=
  let data := width &&& 0xf
  let addr := width >>> 4
  data != 0 && addr != 0

def ebWidthRefined (width : ℕ) : Bool :=
  let data := width &&& 0xf
  let addr := width >>> 4
  data != 0 && addr != 0 && data &&& (data - 1) == 0 && addr &&& (addr - 1) == 0

/-- Keep the highest bit of each nibble. -/
def ebWidthRefine (width : ℕ) : ℕ :=
  let data := width &&& 0xf
  let addr := width >>> 4
  let addr := addr ||| addr >>> 1
  let addr := addr ||| addr >>> 2
  let addr := (addr + 1) >>> 1
  let data := data ||| data >>> 1
  let data := data ||| data >>> 2
  let data := (data + 1) >>> 1
  addr <<< 4 ||| data

theorem ebWidthRefine_lt : ∀ width < 256, ebWidthRefine width < 256 := by decide +kernel

theorem ebWidthRefined_refine : ∀ width < 256,
    ebWidthRefined (ebWidthRefine width) = ebWidthPossible width := by decide +kernel

theorem ebWidthPossible_refine : ∀ width < 256, ebWidthPossible (ebWidthRefine width) = ebWidthPossible width := by
  decide +kernel

/-- Refining only removes bits. -/
theorem ebWidthRefine_and : ∀ width < 256, ebWidthRefine width &&& width = ebWidthRefine width := by
  decide +kernel

theorem ebWidthRefine_of_refined : ∀ width < 256, ebWidthRefined width = true →
    ebWidthRefine width = width := by decide +kernel

theorem ebWidthPossible_of_refined (width : ℕ) (h : ebWidthRefined width = true) :
    ebWidthPossible width = true := by
  simp only [ebWidthRefined, Bool.and_eq_true] at h
  simp only [ebWidthPossible, Bool.and_eq_true]
  exact h.1.1

def IsSize (n : ℕ) : Prop := n = 1 ∨ n = 2 ∨ n = 4 ∨ n = 8

instance (n : ℕ) : Decidable (IsSize n) := inferInstanceAs (Decidable (_ ∨ _))

theorem IsSize.pos {n : ℕ} (h : IsSize n) : 0 < n := by
  rcases h with rfl | rfl | rfl | rfl <;> decide

theorem IsSize.eq_pow {n : ℕ} (h : IsSize n) : ∃ k ≤ 3, n = 2 ^ k := by
  rcases h with rfl | rfl | rfl | rfl
  exacts [⟨0, by decide, rfl⟩, ⟨1, by decide, rfl⟩, ⟨2, by decide, rfl⟩, ⟨3, by decide, rfl⟩]

theorem IsSize.dvd_of_le {m n : ℕ} (hm : IsSize m) (hn : IsSize n) (h : m ≤ n) : m ∣ n := by
  obtain ⟨i, -, rfl⟩ := hm.eq_pow
  obtain ⟨j, -, rfl⟩ := hn.eq_pow
  exact Nat.pow_dvd_pow 2 ((Nat.pow_le_pow_iff_right (by decide)).mp h)

/-- A refined width on a build whose `eb_address_t` and `eb_data_t` have `word` bytes. -/
structure Port where
  word : ℕ
  addr : ℕ
  data : ℕ
  word_mem : word = 2 ∨ word = 4 ∨ word = 8
  addr_mem : IsSize addr
  data_mem : IsSize data
  addr_le : addr ≤ word
  data_le : data ≤ word

namespace Port

def ofSizes (word addr data : ℕ) (h : (word = 2 ∨ word = 4 ∨ word = 8) ∧ IsSize addr ∧ IsSize data ∧
    addr ≤ word ∧ data ≤ word) : Port :=
  ⟨word, addr, data, h.1, h.2.1, h.2.2.1, h.2.2.2.1, h.2.2.2.2⟩

variable (p : Port)

/-- The width byte: address size in the high nibble, data size in the low one. -/
def widths : ℕ := p.addr <<< 4 ||| p.data

def biggest : ℕ := p.addr ||| p.data

def alignment : ℕ :=
  2 + (if 4 ≤ p.biggest then 2 else 0) + (if 8 ≤ p.biggest then 4 else 0)

def recordAlignment : ℕ := 4 + (if 8 ≤ p.biggest then 4 else 0)

def headerAlignment : ℕ := p.recordAlignment

/-- FIFO stride size. -/
def stride : ℕ := p.data

/-- `sizeof(buffer)`: big enough for the worst-case record. -/
def bufferSize : ℕ := p.word * (255 + 255 + 1 + 1) + 8

/-- `~(eb_address_t)0`, shifted down to the address width. -/
def addressMask : ℕ := (256 ^ p.word - 1) >>> ((p.word - p.addr) <<< 3)

/-- `~(eb_data_t)0`, shifted down to `size` bytes. -/
def dataMask (size : ℕ) : ℕ := (256 ^ p.word - 1) >>> ((p.word - size) <<< 3)

private theorem ones_shift {word n : ℕ} (h : n ≤ word) :
    (256 ^ word - 1) >>> ((word - n) <<< 3) = 256 ^ n - 1 := by
  have hs : (word - n) <<< 3 = 8 * (word - n) := by rw [Nat.shiftLeft_eq]; omega
  have hp : 256 ^ word = 256 ^ n * 256 ^ (word - n) := by rw [← pow_add]; congr 1; omega
  have h8 : 2 ^ (8 * (word - n)) = 256 ^ (word - n) := pow_mul 2 8 (word - n)
  have hn : 0 < 256 ^ n := Nat.pow_pos (by decide)
  have hw : 0 < 256 ^ (word - n) := Nat.pow_pos (by decide)
  rw [hs, Nat.shiftRight_eq_div_pow, h8, hp]
  have he : 256 ^ n * 256 ^ (word - n) - 1 =
      256 ^ (word - n) - 1 + 256 ^ (word - n) * (256 ^ n - 1) := by
    rw [Nat.mul_sub, Nat.mul_one, Nat.mul_comm (256 ^ (word - n))]
    have : 256 ^ (word - n) ≤ 256 ^ n * 256 ^ (word - n) := Nat.le_mul_of_pos_left _ hn
    omega
  rw [he, Nat.add_mul_div_left _ _ hw, Nat.div_eq_of_lt (by omega), Nat.zero_add]

theorem addressMask_eq : p.addressMask = 256 ^ p.addr - 1 := ones_shift p.addr_le

theorem dataMask_of_le_word {size : ℕ} (h : size ≤ p.word) : p.dataMask size = 256 ^ size - 1 := ones_shift h

theorem dataMask_eq {size : ℕ} (h : size ≤ p.data) : p.dataMask size = 256 ^ size - 1 :=
  p.dataMask_of_le_word (h.trans p.data_le)

theorem data_pos : 0 < p.data := p.data_mem.pos

theorem alignment_mem : p.alignment = 2 ∨ p.alignment = 4 ∨ p.alignment = 8 := by
  unfold alignment
  split <;> split <;> omega

theorem recordAlignment_mem : p.recordAlignment = 4 ∨ p.recordAlignment = 8 := by
  unfold recordAlignment
  split <;> omega

private theorem sizes_cases : (p.addr ≤ p.alignment ∧ p.data ≤ p.alignment ∧
    p.alignment ≤ p.word ∧ p.recordAlignment + 512 * p.alignment ≤ p.bufferSize) := by
  obtain ⟨word, addr, data, hw, ha, hd, hal, hdl⟩ := p
  simp only [alignment, recordAlignment, bufferSize, biggest]
  rcases hw with rfl | rfl | rfl <;> rcases ha with rfl | rfl | rfl | rfl <;>
    rcases hd with rfl | rfl | rfl | rfl <;> first | (exfalso; omega) | simp

theorem addr_le_alignment : p.addr ≤ p.alignment := p.sizes_cases.1

theorem data_le_alignment : p.data ≤ p.alignment := p.sizes_cases.2.1

/-- The largest record fits the buffer of both sides. -/
theorem record_fits : p.recordAlignment + 512 * p.alignment ≤ p.bufferSize := p.sizes_cases.2.2.2

private theorem nibbles {addr data : ℕ} (ha : IsSize addr) (hd : IsSize data) :
    (addr <<< 4 ||| data) &&& ebDataX = data ∧ (addr <<< 4 ||| data) >>> 4 = addr ∧
      ebWidthRefined (addr <<< 4 ||| data) = true ∧ addr <<< 4 ||| data < 256 := by
  rcases ha with rfl | rfl | rfl | rfl <;> rcases hd with rfl | rfl | rfl | rfl <;> decide

theorem widths_data : p.widths &&& ebDataX = p.data := (nibbles p.addr_mem p.data_mem).1

theorem widths_addr : p.widths >>> 4 = p.addr := (nibbles p.addr_mem p.data_mem).2.1

theorem widths_refined : ebWidthRefined p.widths = true := (nibbles p.addr_mem p.data_mem).2.2.1

theorem widths_lt : p.widths < 256 := (nibbles p.addr_mem p.data_mem).2.2.2

end Port

end WhiteRabbit.Etherbone
