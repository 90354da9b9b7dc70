import WhiteRabbit.BusOperations
import WhiteRabbit.MemoryWords

/-!
# The formats of the tools

The tools look for the sizes of their operations in the mask of those which both the device and
the line support. They take the largest bit of a mask, or its smallest one. Bytes become words, and
words bytes, by shifts in the order of the endian.
-/

namespace WhiteRabbit.Etherbone

open BigEndian MemoryWords

/-- `((line_width & EB_DATAX) << 1) - 1`: the link can support any access up to its width. -/
def lineWidths (p : Port) : ℕ := (p.widths &&& ebDataX) <<< 1 - 1

/-- Fill in all sizes under the largest. -/
def fillSizes (sizes : ℕ) : ℕ :=
  let sizes := sizes ||| sizes >>> 1
  sizes ||| sizes >>> 2

def largestSize (sizes : ℕ) : ℕ := fillSizes sizes ^^^ fillSizes sizes >>> 1

/-- `sizes & -sizes`, on bytes. -/
def smallestSize (sizes : ℕ) : ℕ := sizes &&& (256 - sizes)

/-- A mask of sizes that is not empty. -/
structure IsMask (sizes : ℕ) : Prop where
  pos : sizes ≠ 0
  lt : sizes < 16

theorem lineWidths_eq (p : Port) : lineWidths p = 2 * p.data - 1 := by
  rw [lineWidths, p.widths_data, Nat.shiftLeft_eq, Nat.mul_comm]

private theorem picks : ∀ sizes < 16, sizes ≠ 0 →
    (IsSize (largestSize sizes) ∧ largestSize sizes ≤ sizes ∧ largestSize sizes &&& sizes ≠ 0) ∧
    IsSize (smallestSize sizes) ∧ smallestSize sizes ≤ largestSize sizes ∧
      smallestSize sizes &&& sizes ≠ 0 := by
  decide

namespace IsMask

variable {sizes : ℕ} (h : IsMask sizes)

include h

theorem largest_mem : IsSize (largestSize sizes) := (picks sizes h.lt h.pos).1.1

theorem largest_le : largestSize sizes ≤ sizes := (picks sizes h.lt h.pos).1.2.1

theorem smallest_mem : IsSize (smallestSize sizes) := (picks sizes h.lt h.pos).2.1

theorem smallest_le : smallestSize sizes ≤ largestSize sizes := (picks sizes h.lt h.pos).2.2.1

end IsMask

theorem and_lineWidths_le (p : Port) (support : ℕ) : lineWidths p &&& support ≤ 2 * p.data - 1 :=
  Nat.and_le_left.trans_eq (lineWidths_eq p)

/-- The sizes that a line can use. -/
theorem isMask_and_lineWidths {p : Port} {support : ℕ} (h : lineWidths p &&& support ≠ 0) :
    IsMask (lineWidths p &&& support) where
  pos := h
  lt := by
    have hle := and_lineWidths_le p support
    rcases p.data_mem with hd | hd | hd | hd <;> omega

/-- Two supported sizes, the smaller one for the edges of an interval. -/
structure AccessSizes (p : Port) where
  edge : ℕ
  bulk : ℕ
  edge_mem : IsSize edge
  bulk_mem : IsSize bulk
  edge_le : edge ≤ bulk
  bulk_le : bulk ≤ p.data

namespace AccessSizes

variable {p : Port}

private theorem largest_le_data {sizes data : ℕ} (hs : IsSize sizes) (hd : IsSize data)
    (h : sizes ≤ 2 * data - 1) : sizes ≤ data := by
  rcases hs with rfl | rfl | rfl | rfl <;> rcases hd with rfl | rfl | rfl | rfl <;> omega

/-- The sizes that the tools pick for a device, unless it requires larger accesses than the line
supports. -/
def ofSupport (support : ℕ) (h : lineWidths p &&& support ≠ 0) : AccessSizes p where
  edge := smallestSize (lineWidths p &&& support)
  bulk := largestSize (lineWidths p &&& support)
  edge_mem := (isMask_and_lineWidths h).smallest_mem
  bulk_mem := (isMask_and_lineWidths h).largest_mem
  edge_le := (isMask_and_lineWidths h).smallest_le
  bulk_le :=
    largest_le_data (isMask_and_lineWidths h).largest_mem p.data_mem
      ((isMask_and_lineWidths h).largest_le.trans (and_lineWidths_le p support))

private theorem picks_pair {edge bulk data : ℕ} (he : IsSize edge) (hb : IsSize bulk) (hd : IsSize data)
    (heb : edge ≤ bulk) (hbd : bulk ≤ data) :
    (2 * data - 1) &&& (edge ||| bulk) ≠ 0 ∧
      smallestSize ((2 * data - 1) &&& (edge ||| bulk)) = edge ∧
      largestSize ((2 * data - 1) &&& (edge ||| bulk)) = bulk := by
  rcases he with rfl | rfl | rfl | rfl <;> rcases hb with rfl | rfl | rfl | rfl <;>
    rcases hd with rfl | rfl | rfl | rfl <;> first | (exfalso; omega) | decide

end AccessSizes

section Boundaries

variable {p : Port}

theorem size_dvd_range {size : ℕ} (h : IsSize size) : size ∣ 256 ^ p.word := by
  obtain ⟨k, hk, rfl⟩ := h.eq_pow
  have hword : 0 < p.word := by
    rcases p.word_mem with h | h | h <;> omega
  have hbyte : 2 ^ k ∣ 2 ^ 8 := Nat.pow_dvd_pow 2 (by omega)
  exact hbyte.trans (dvd_pow_self 256 hword.ne')

theorem and_size {size : ℕ} (h : IsSize size) (a : ℕ) : a &&& (size - 1) = a % size := by
  obtain ⟨k, -, rfl⟩ := h.eq_pow
  exact Nat.and_two_pow_sub_one_eq_mod a k

theorem and_range {size a : ℕ} (h : IsSize size) (ha : a < 256 ^ p.word) :
    a &&& (256 ^ p.word - size) = a / size * size := by
  have hle : size ≤ 256 ^ p.word := Nat.le_of_dvd (Nat.pow_pos (by decide)) (size_dvd_range h)
  obtain ⟨k, -, rfl⟩ := h.eq_pow
  have hrange : 256 ^ p.word = 2 ^ (8 * p.word) := by rw [pow_mul]; rfl
  rw [hrange] at ha hle ⊢
  exact AlignedMasks.and_mask_of_lt ((Nat.pow_le_pow_iff_right (by decide)).mp hle) ha

/-- Two multiples of a size are that size apart. -/
theorem add_le_of_dvd {d a b : ℕ} (ha : d ∣ a) (hb : d ∣ b) (h : a < b) : a + d ≤ b := by
  have hsub : d ∣ b - a := Nat.dvd_sub hb ha
  have hle := Nat.le_of_dvd (by omega) hsub
  omega

end Boundaries

section Endians

/-- `EB_BIG_ENDIAN` or `EB_LITTLE_ENDIAN`. -/
def endianBits : Endian → ℕ
  | .big => ebBigEndian
  | .little => ebLittleEndian

variable (p : Port) (endian : Endian)

/-- `data <<= 8; data |= buffer[j]`, from the high byte on. -/
def bufferData (buffer : Bytes) : ℕ :=
  match endian with
  | .big => shiftIn (256 ^ p.word) buffer
  | .little => shiftIn (256 ^ p.word) buffer.reverse

/-- `buffer[j] = data & 0xFF; data >>= 8`, from the low byte on. -/
def dataBuffer (size data : ℕ) : Bytes :=
  match endian with
  | .big => (lowBytes size data).reverse
  | .little => lowBytes size data

theorem bufferData_eq {buffer : Bytes} (h : buffer.length ≤ p.word) :
    bufferData p endian buffer = endian.value buffer := by
  have hpow : 256 ^ buffer.length ≤ 256 ^ p.word := Nat.pow_le_pow_right (by decide) h
  cases endian with
  | big => exact shiftIn_eq buffer hpow
  | little => exact shiftIn_eq buffer.reverse (by rwa [List.length_reverse])

theorem dataBuffer_eq (size data : ℕ) : dataBuffer endian size data = endian.bytes size data := by
  cases endian with
  | big => rw [dataBuffer, lowBytes_eq, List.reverse_reverse, Endian.bytes]
  | little => exact lowBytes_eq size data

theorem format_size {size : ℕ} (h : IsSize size) : (endianBits endian ||| size) &&& ebDataX = size := by
  cases endian <;> rcases h with rfl | rfl | rfl | rfl <;> rfl

theorem format_endian {size : ℕ} (h : IsSize size) :
    (endianBits endian ||| size) &&& ebEndianMask = endianBits endian := by
  cases endian <;> rcases h with rfl | rfl | rfl | rfl <;> rfl

end Endians

end WhiteRabbit.Etherbone
