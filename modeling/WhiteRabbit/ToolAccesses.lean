import WhiteRabbit.SnoopMemory

/-!
# eb-write and eb-read

The two tools access a word of a size that the device, or the line to it, may not support. Then they
use several smaller operations, or one larger operation around the word. Writing into a larger word
reads it first.
-/

namespace WhiteRabbit.Etherbone.Tools

open BigEndian MemoryWords

/-- What the tools find out from the record. -/
def deviceSupport (busSpecific : ℕ) : ℕ :=
  (if busSpecific &&& sdbWishboneLittleEndian ≠ 0 then ebLittleEndian else ebBigEndian) |||
    busSpecific &&& ebDataX

/-- Select the probed endian, unless the user asked for one. -/
def toolEndian (support userEndian : ℕ) : ℕ :=
  if userEndian = 0 then support &&& ebEndianMask else userEndian

/-- The checks of the argument `<address>/<size>`. -/
def acceptsArgument (p : Port) (address size : ℕ) : Bool :=
  decide (IsSize size) && (address &&& (size - 1) == 0) && decide (size ≤ p.word)

def writeOperation (address format value : ℕ) : Operation :=
  { address, value, kind := .write, cfgSpace := false, format }

def readOperation (address format : ℕ) : Operation :=
  { address, value := 0, kind := .readVal, cfgSpace := false, format }

/-- How far a word has to be shifted in a larger one, in bytes. Without an endian it is not known. -/
def widenedShift (format completeSize fragmentSize offset : ℕ) : Option ℕ :=
  if format &&& ebEndianMask = ebBigEndian then some (completeSize - fragmentSize - offset)
  else if format &&& ebEndianMask = ebLittleEndian then some offset
  else none

/-- `address & ~(complete_size-1)`. -/
def alignAddress (p : Port) (address completeSize : ℕ) : ℕ := address &&& (256 ^ p.word - completeSize)

section Write

variable (p : Port)

/-- One cycle of writes, or a read whose answer goes into the write after it. -/
inductive WritePlan where
  | cycle (ops : List Operation)
  | modify (read : Operation) (inject : ℕ → Operation)

/-- The loop over the fragments, none when it takes more turns. -/
def writeLoop (format fragmentSize addressEnd data : ℕ) (shiftStep : ℤ) :
    ℕ → ℕ → ℤ → Option (List Operation)
  | 0, _, _ => none
  | fuel + 1, address, shift =>
    if address ≠ addressEnd then
      let partialData := data >>> shift.toNat &&& p.dataMask fragmentSize
      (writeLoop format fragmentSize addressEnd data shiftStep fuel
        ((address + fragmentSize) % 256 ^ p.word) (shift + shiftStep)).map fun ops =>
          writeOperation address format partialData :: ops
    else some []

def writeFragments (endian writeSizes address size data : ℕ) : Option (List Operation) :=
  let completeSize := largestSize size
  let fragmentSize := largestSize (fillSizes size &&& writeSizes)
  let format := endian ||| fragmentSize
  let addressEnd := (address + completeSize) % 256 ^ p.word
  if format &&& ebEndianMask = ebBigEndian then
    writeLoop p format fragmentSize addressEnd data (-(fragmentSize * 8)) (completeSize + 1) address
      ((completeSize - fragmentSize) * 8)
  else if format &&& ebEndianMask = ebLittleEndian then
    writeLoop p format fragmentSize addressEnd data (fragmentSize * 8) (completeSize + 1) address 0
  else none

def writeWidened (endian writeSizes address size data : ℕ) : Option WritePlan :=
  let fragmentSize := largestSize size
  let completeSize := smallestSize writeSizes
  let format := endian ||| completeSize
  let alignedAddress := alignAddress p address completeSize
  (widenedShift format completeSize fragmentSize (address - alignedAddress)).map fun shift =>
    let mask := (p.dataMask size <<< (shift * 8)) % 256 ^ p.word
    let data := (data <<< (shift * 8)) % 256 ^ p.word
    .modify (readOperation alignedAddress format) fun originalData =>
      writeOperation alignedAddress format (data ||| originalData &&& (256 ^ p.word - 1 - mask))

/-- What `eb-write` does. None is an error that the tool reports. -/
def writePlan (support userEndian : ℕ) (fidelity : Bool) (address size data : ℕ) : Option WritePlan :=
  let endian := toolEndian support userEndian
  let writeSizes := lineWidths p &&& support
  if acceptsArgument p address size = false ∨ data &&& p.dataMask size ≠ data then none
  else if writeSizes = 0 then none
  else if size &&& writeSizes = 0 then
    if fidelity then none
    else if fillSizes size &&& writeSizes ≠ 0 then
      (writeFragments p endian writeSizes address size data).map .cycle
    else writeWidened p endian writeSizes address size data
  else
    let format := endian ||| size &&& writeSizes
    if format &&& p.widths &&& ebDataX = 0 ∧ format &&& ebEndianMask = 0 then none
    else some (.cycle [writeOperation address format data])

def WritePlan.run (s : Snoop) : WritePlan → Snoop
  | .cycle ops => (runCycle p s ops).1
  | .modify read inject =>
    let answered := runOperation p s read
    (runCycle p answered.1 [inject answered.2.value]).1

def ebWrite (support userEndian : ℕ) (fidelity : Bool) (address size data : ℕ) (s : Snoop) : Option Snoop :=
  (writePlan p support userEndian fidelity address size data).map (WritePlan.run p s)

end Write

section Read

variable (p : Port)

/-- `for (; count > 0; --count)`, with a stride that may be negative. -/
def readLoop (format : ℕ) (stride : ℤ) : ℕ → ℕ → List Operation
  | 0, _ => []
  | count + 1, address =>
    readOperation address format ::
      readLoop format stride count ((address + stride) % (256 ^ p.word : ℕ)).toNat

def readFragments (endian readSizes address size : ℕ) : Option (List Operation) :=
  let completeSize := largestSize size
  let fragmentSize := largestSize (fillSizes size &&& readSizes)
  let format := endian ||| fragmentSize
  let chunk := format &&& ebDataX
  let count := completeSize / chunk
  if format &&& ebEndianMask = ebBigEndian then some (readLoop p format chunk count address)
  else if format &&& ebEndianMask = ebLittleEndian then
    some (readLoop p format (-chunk) count ((address + chunk * (count - 1)) % 256 ^ p.word))
  else none

/-- The operations of `eb-read`, and how far the answer has to be shifted back, in bytes. -/
def readPlan (support userEndian : ℕ) (fidelity : Bool) (address size : ℕ) : Option (List Operation × ℕ) :=
  let endian := toolEndian support userEndian
  let readSizes := lineWidths p &&& support
  if acceptsArgument p address size = false then none
  else if readSizes = 0 then none
  else if size &&& readSizes = 0 then
    if fidelity then none
    else if fillSizes size &&& readSizes ≠ 0 then
      (readFragments p endian readSizes address size).map fun ops => (ops, 0)
    else
      let fragmentSize := largestSize size
      let completeSize := smallestSize readSizes
      let format := endian ||| completeSize
      let alignedAddress := alignAddress p address completeSize
      (widenedShift format completeSize fragmentSize (address - alignedAddress)).map fun shift =>
        ([readOperation alignedAddress format], shift)
  else
    let format := endian ||| size &&& readSizes
    if format &&& p.widths &&& ebDataX = 0 ∧ format &&& ebEndianMask = 0 then none
    else some ([readOperation address format], 0)

/-- `set_stop`: the answers of a cycle, high bits first. -/
def setStop (data : ℕ) (ops : List Operation) : ℕ :=
  ops.foldl (fun data op => (data <<< (op.size * 8)) % 256 ^ p.word ||| op.value) data

/-- What `eb-read` prints. -/
def ebRead (support userEndian : ℕ) (fidelity : Bool) (address size : ℕ) (s : Snoop) : Option ℕ :=
  (readPlan p support userEndian fidelity address size).map fun plan =>
    setStop p 0 (runCycle p s plan.1).2 >>> (plan.2 * 8) &&& p.dataMask size

end Read

section Sizes

variable {p : Port}

theorem deviceSupport_busSpecific (s : Snoop) {width : ℕ} (h : width < 16) :
    deviceSupport (s.busSpecific width) = endianBits s.endian ||| width := by
  have hall : ∀ width < 16, deviceSupport width = ebBigEndian ||| width ∧
      deviceSupport (sdbWishboneLittleEndian ||| width) = ebLittleEndian ||| width := by decide
  obtain ⟨hbig, hlittle⟩ := hall width h
  rw [Snoop.busSpecific]
  cases s.endian with
  | big => simpa [endianBits] using hbig
  | little => simpa [endianBits] using hlittle

theorem toolEndian_probed (endian : Endian) {width : ℕ} (h : width < 16) :
    toolEndian (endianBits endian ||| width) 0 = endianBits endian := by
  have hall : ∀ width < 16, (ebBigEndian ||| width) &&& ebEndianMask = ebBigEndian ∧
      (ebLittleEndian ||| width) &&& ebEndianMask = ebLittleEndian := by decide
  rw [toolEndian, if_pos rfl]
  cases endian with
  | big => exact (hall width h).1
  | little => exact (hall width h).2

theorem format_endian_ne (endian : Endian) {size : ℕ} (hs : IsSize size) :
    ¬ (endianBits endian ||| size) &&& ebEndianMask = 0 := by
  rw [format_endian endian hs]
  cases endian <;> decide

/-- The endian does not look like a size. -/
theorem and_endianBits (endian : Endian) (width : ℕ) :
    lineWidths p &&& (endianBits endian ||| width) = lineWidths p &&& width := by
  have hzero : lineWidths p &&& endianBits endian = 0 := by
    rw [lineWidths_eq]
    rcases p.data_mem with h | h | h | h <;> rw [h] <;> cases endian <;> rfl
  rw [Nat.and_or_distrib_left, hzero, Nat.zero_or]

theorem direct_size {size : ℕ} (hs : IsSize size) (sizes : ℕ) (h : size &&& sizes ≠ 0) :
    size &&& sizes = size := by
  obtain ⟨k, -, rfl⟩ := hs.eq_pow
  rw [Nat.two_pow_and] at h ⊢
  cases hbit : sizes.testBit k with
  | false => simp [hbit] at h
  | true => simp

private theorem strategies : ∀ sizes < 16, ∀ size ∈ [1, 2, 4, 8], size &&& sizes = 0 →
    (fillSizes size &&& sizes ≠ 0 →
      IsSize (largestSize (fillSizes size &&& sizes)) ∧ largestSize (fillSizes size &&& sizes) < size) ∧
    (fillSizes size &&& sizes = 0 → sizes ≠ 0 → size < smallestSize sizes) := by
  decide

theorem fragment_size {sizes size : ℕ} (hm : IsMask sizes) (hs : IsSize size) (h : size &&& sizes = 0)
    (hfill : fillSizes size &&& sizes ≠ 0) :
    IsSize (largestSize (fillSizes size &&& sizes)) ∧ largestSize (fillSizes size &&& sizes) < size :=
  (strategies sizes hm.lt size (by simpa [IsSize] using hs) h).1 hfill

theorem widened_size {sizes size : ℕ} (hm : IsMask sizes) (hs : IsSize size) (h : size &&& sizes = 0)
    (hfill : fillSizes size &&& sizes = 0) : size < smallestSize sizes :=
  (strategies sizes hm.lt size (by simpa [IsSize] using hs) h).2 hfill hm.pos

theorem largestSize_of_size {size : ℕ} (hs : IsSize size) : largestSize size = size := by
  rcases hs with rfl | rfl | rfl | rfl <;> rfl

end Sizes

section Fragments

variable {p : Port} {endian : Endian} {f k a data : ℕ}

theorem byte_pow (n : ℕ) : 256 ^ n = 2 ^ (n * 8) := by
  rw [Nat.mul_comm, pow_mul]
  rfl

theorem shift_mask (n : ℕ) (h : f ≤ p.word) :
    data >>> (n * 8) &&& p.dataMask f = data / 256 ^ n % 256 ^ f := by
  rw [p.dataMask_of_le_word h, Nat.shiftRight_eq_div_pow, ← byte_pow, byte_pow f, Nat.and_two_pow_sub_one_eq_mod]

theorem lt_range (p : Port) : p.word < 256 ^ p.word := Nat.lt_pow_self (by decide)

theorem writeOperation_size (endian : Endian) (hf : IsSize f) (value : ℕ) :
    (writeOperation a (endianBits endian ||| f) value).size = f := format_size endian hf

theorem readOperation_size (endian : Endian) (hf : IsSize f) :
    (readOperation a (endianBits endian ||| f)).size = f := format_size endian hf

theorem writeOperation_performable (endian : Endian) (hf : IsSize f) (hword : f ≤ p.word)
    (ha : a + f ≤ 256 ^ p.word) (value : ℕ) :
    Performable p (writeOperation a (endianBits endian ||| f) value) := by
  constructor <;> rw [writeOperation_size endian hf]
  exacts [hf, hword, ha]

theorem readOperation_performable (endian : Endian) (hf : IsSize f) (hword : f ≤ p.word)
    (ha : a + f ≤ 256 ^ p.word) : Performable p (readOperation a (endianBits endian ||| f)) := by
  constructor <;> rw [readOperation_size endian hf]
  exacts [hf, hword, ha]

/-- A cycle of one write. -/
theorem runCycle_write {s : Snoop} (hf : IsSize f) (hword : f ≤ p.word) (ha : a + f ≤ 256 ^ p.word) (v : ℕ) :
    (runCycle p s [writeOperation a (endianBits s.endian ||| f) v]).1.bytes p =
        store (s.bytes p) a (s.endian.bytes f v) ∧
      (runCycle p s [writeOperation a (endianBits s.endian ||| f) v]).1.endian = s.endian := by
  have hrun := runOperation_write (s := s) (show (writeOperation a (endianBits s.endian ||| f) v).isWrite = true from rfl)
    (writeOperation_performable s.endian hf hword ha v)
  rw [writeOperation_size s.endian hf] at hrun
  exact hrun

/-- Writes that store the bytes `bs` at `a`. -/
structure Places (p : Port) (endian : Endian) (a : ℕ) (bs : Bytes) (ops : List Operation) : Prop where
  writes : ∀ op ∈ ops, op.isWrite = true ∧ Performable p op
  stores_eq : ∀ m, stores endian m ops = store m a bs

theorem Places.cons {bs : Bytes} {ops : List Operation} (hf : IsSize f) (hword : f ≤ p.word)
    (ha : a + f ≤ 256 ^ p.word) (v : ℕ) (h : Places p endian (a + f) bs ops) :
    Places p endian a (endian.bytes f v ++ bs) (writeOperation a (endianBits endian ||| f) (v % 256 ^ f) :: ops) where
  writes := by
    intro op hop
    rcases List.mem_cons.mp hop with rfl | hop
    · exact ⟨rfl, writeOperation_performable endian hf hword ha _⟩
    · exact h.writes op hop
  stores_eq := by
    intro m
    have hrest := h.stores_eq (store m a (endian.bytes f (v % 256 ^ f)))
    rw [stores, List.foldl_cons, writeOperation_size endian hf]
    rw [store_append, endian.length_bytes, ← endian.bytes_mod f v]
    exact hrest

theorem ne_add_mod {r n : ℕ} (ha : a < r) (hpos : 0 < n) (hn : n < r) : a ≠ (a + n) % r := by
  rcases Nat.lt_or_ge (a + n) r with h | h
  · rw [Nat.mod_eq_of_lt h]
    omega
  · rw [Nat.mod_eq_sub_mod h, Nat.mod_eq_of_lt (by omega)]
    omega

/-- The fragments of a big endian word, the high bytes first. -/
theorem writeLoop_big (data : ℕ) {fuel : ℕ} (hf : IsSize f) (hk : k * f ≤ p.word) (ha : a + k * f ≤ 256 ^ p.word)
    (hfuel : k < fuel) :
    ∃ ops, writeLoop p (endianBits .big ||| f) f ((a + k * f) % 256 ^ p.word) data (-(f * 8)) fuel
        (a % 256 ^ p.word) (((k * f : ℕ) - f) * 8) = some ops ∧
      Places p .big a (Endian.big.bytes (k * f) data) ops := by
  induction k generalizing fuel a with
  | zero =>
    obtain ⟨fuel, rfl⟩ := Nat.exists_eq_succ_of_ne_zero (by omega : fuel ≠ 0)
    refine ⟨[], by simp [writeLoop], by simp, fun m => ?_⟩
    simp [stores, Endian.bytes, encode]
  | succ k ih =>
    obtain ⟨fuel, rfl⟩ := Nat.exists_eq_succ_of_ne_zero (by omega : fuel ≠ 0)
    have hpos := hf.pos
    have hmul : (k + 1) * f = f + k * f := by ring
    have hlt := lt_range p
    have hmod : a % 256 ^ p.word = a := Nat.mod_eq_of_lt (by omega)
    have hne : a ≠ (a + (k + 1) * f) % 256 ^ p.word := ne_add_mod (by omega) (by omega) (by omega)
    have hnext : a + (k + 1) * f = a + f + k * f := by omega
    have hshift : ((((k + 1) * f : ℕ) : ℤ) - f) * 8 = (k * f * 8 : ℕ) := by
      rw [hmul]
      push_cast
      ring
    have hrest : ((k * f * 8 : ℕ) : ℤ) + -(f * 8) = ((k * f : ℕ) - f) * 8 := by
      push_cast
      ring
    have hk' : k * f ≤ p.word := by omega
    have ha' : a + f + k * f ≤ 256 ^ p.word := by omega
    obtain ⟨ops, hops, hplaces⟩ := ih hk' ha' (Nat.lt_of_succ_lt_succ hfuel)
    rw [writeLoop, hmod, if_pos hne, hshift, Int.toNat_natCast, hrest, shift_mask _ (by omega), hnext, hops]
    refine ⟨_, rfl, ?_⟩
    rw [hmul, bytes_add_big]
    exact hplaces.cons hf (by omega) (by omega) _

/-- The fragments of a little endian word, the low bytes first. -/
theorem writeLoop_little (data j : ℕ) {fuel : ℕ} (hf : IsSize f) (hk : k * f ≤ p.word)
    (ha : a + k * f ≤ 256 ^ p.word)
    (hfuel : k < fuel) :
    ∃ ops, writeLoop p (endianBits .little ||| f) f ((a + k * f) % 256 ^ p.word) data (f * 8) fuel
        (a % 256 ^ p.word) ((j : ℤ) * 8) = some ops ∧
      Places p .little a (Endian.little.bytes (k * f) (data / 256 ^ j)) ops := by
  induction k generalizing fuel a j with
  | zero =>
    obtain ⟨fuel, rfl⟩ := Nat.exists_eq_succ_of_ne_zero (by omega : fuel ≠ 0)
    refine ⟨[], by simp [writeLoop], by simp, fun m => ?_⟩
    simp [stores, Endian.bytes, encode]
  | succ k ih =>
    obtain ⟨fuel, rfl⟩ := Nat.exists_eq_succ_of_ne_zero (by omega : fuel ≠ 0)
    have hpos := hf.pos
    have hmul : (k + 1) * f = f + k * f := by ring
    have hlt := lt_range p
    have hmod : a % 256 ^ p.word = a := Nat.mod_eq_of_lt (by omega)
    have hne : a ≠ (a + (k + 1) * f) % 256 ^ p.word := ne_add_mod (by omega) (by omega) (by omega)
    have hnext : a + (k + 1) * f = a + f + k * f := by omega
    have hshift : (j : ℤ) * 8 = (j * 8 : ℕ) := by push_cast; ring
    have hrest : ((j * 8 : ℕ) : ℤ) + f * 8 = ((j + f : ℕ) : ℤ) * 8 := by
      push_cast
      ring
    have hk' : k * f ≤ p.word := by omega
    have ha' : a + f + k * f ≤ 256 ^ p.word := by omega
    obtain ⟨ops, hops, hplaces⟩ := ih (j + f) hk' ha' (Nat.lt_of_succ_lt_succ hfuel)
    rw [writeLoop, hmod, if_pos hne, hshift, Int.toNat_natCast, hrest, shift_mask _ (by omega), hnext, hops]
    refine ⟨_, rfl, ?_⟩
    rw [hmul, bytes_add_little, Nat.div_div_eq_div_mul, ← pow_add]
    exact hplaces.cons hf (by omega) (by omega) _

/-- A word written in fragments. -/
theorem writeFragments_places (endian : Endian) (data : ℕ) {sizes size : ℕ} (hm : IsMask sizes) (hs : IsSize size)
    (hword : size ≤ p.word) (ha : a + size ≤ 256 ^ p.word) (hnot : size &&& sizes = 0)
    (hfill : fillSizes size &&& sizes ≠ 0) :
    ∃ ops, writeFragments p (endianBits endian) sizes a size data = some ops ∧
      Places p endian a (endian.bytes size data) ops := by
  obtain ⟨hf, hlt⟩ := fragment_size hm hs hnot hfill
  obtain ⟨k, hk⟩ := hf.dvd_of_le hs hlt.le
  have hpos := hf.pos
  have hspos := hs.pos
  have hmod : a % 256 ^ p.word = a := Nat.mod_eq_of_lt (by omega)
  rw [writeFragments, largestSize_of_size hs]
  generalize largestSize (fillSizes size &&& sizes) = f at *
  rw [Nat.mul_comm] at hk
  subst hk
  have hfuel : k < k * f + 1 := Nat.lt_succ_of_le (Nat.le_mul_of_pos_right k hpos)
  simp only [format_endian endian hf]
  cases endian with
  | big =>
    have hloop := writeLoop_big data hf hword ha hfuel
    rw [hmod] at hloop
    rw [if_pos (by rfl)]
    exact hloop
  | little =>
    have hloop := writeLoop_little data 0 hf hword ha hfuel
    rw [hmod, pow_zero, Nat.div_one] at hloop
    rw [if_neg (by decide), if_pos (by rfl)]
    simpa using hloop

end Fragments

section Answers

variable {p : Port} {s : Snoop} {f k a n : ℕ}

/-- Reads whose answers are the word of `n` bytes at `a`, after the bytes collected before. -/
structure Collects (p : Port) (s : Snoop) (a n : ℕ) (ops : List Operation) : Prop where
  reads : ∀ op ∈ ops, op.isWrite = false ∧ Performable p op
  value : ∀ data j, data < 256 ^ j → j + n ≤ p.word →
    setStop p data (ops.map fun op => { op with value := s.word p op }) =
      data * 256 ^ n + s.endian.value (window (s.bytes p) a n)

theorem Collects.nil : Collects p s a 0 [] where
  reads := by simp
  value := by
    intro data j _ _
    simp [setStop, window]

/-- One turn of the loop of `set_stop`. -/
theorem setStop_cons {data j : ℕ} (hf : IsSize f) (hdata : data < 256 ^ j) (hword : j + f ≤ p.word)
    (ops : List Operation) :
    setStop p data ((readOperation a (endianBits s.endian ||| f) :: ops).map
        fun op => { op with value := s.word p op }) =
      setStop p (data * 256 ^ f + s.endian.value (window (s.bytes p) a f))
        (ops.map fun op => { op with value := s.word p op }) := by
  have hpow := byte_pow f
  have hvalue := s.endian.value_lt (window (s.bytes p) a f)
  have hshift : data <<< (f * 8) < 256 ^ p.word := by
    rw [Nat.shiftLeft_eq, ← hpow]
    calc data * 256 ^ f < 256 ^ j * 256 ^ f := Nat.mul_lt_mul_of_pos_right hdata (Nat.pow_pos (by decide))
      _ = 256 ^ (j + f) := (pow_add 256 j f).symm
      _ ≤ 256 ^ p.word := Nat.pow_le_pow_right (by decide) hword
  rw [length_window, hpow] at hvalue
  rw [List.map_cons, setStop, List.foldl_cons]
  simp only [Operation.size, Snoop.word, readOperation, format_size s.endian hf]
  rw [Nat.mod_eq_of_lt hshift, ← Nat.shiftLeft_add_eq_or_of_lt hvalue, Nat.shiftLeft_eq, ← hpow]
  rfl

theorem collected_lt {data j : ℕ} (s : Snoop) (a : ℕ) (hdata : data < 256 ^ j) :
    data * 256 ^ f + s.endian.value (window (s.bytes p) a f) < 256 ^ (j + f) := by
  have hvalue := s.endian.value_lt (window (s.bytes p) a f)
  rw [length_window] at hvalue
  calc data * 256 ^ f + s.endian.value (window (s.bytes p) a f)
    _ < data * 256 ^ f + 256 ^ f := Nat.add_lt_add_left hvalue _
    _ = (data + 1) * 256 ^ f := by ring
    _ ≤ 256 ^ j * 256 ^ f := Nat.mul_le_mul_right _ hdata
    _ = 256 ^ (j + f) := (pow_add 256 j f).symm

theorem Collects.cons {endian : Endian} {ops : List Operation} {b c : ℕ} (hs : s.endian = endian)
    (hf : IsSize f) (hword : f ≤ p.word)
    (ha : a + f ≤ 256 ^ p.word) (h : Collects p s b n ops)
    (hvalue : s.endian.value (window (s.bytes p) c (f + n)) =
      s.endian.value (window (s.bytes p) a f) * 256 ^ n + s.endian.value (window (s.bytes p) b n)) :
    Collects p s c (f + n) (readOperation a (endianBits endian ||| f) :: ops) where
  reads := by
    intro op hop
    subst hs
    rcases List.mem_cons.mp hop with rfl | hop
    · exact ⟨rfl, readOperation_performable s.endian hf hword ha⟩
    · exact h.reads op hop
  value := by
    intro data j hdata hle
    subst hs
    rw [setStop_cons hf hdata (by omega), h.value _ (j + f) (collected_lt s a hdata) (by omega), hvalue, pow_add]
    ring

/-- The word that big endian reads at ascending addresses collect. -/
theorem readLoop_big (hs : s.endian = .big) (hf : IsSize f) (hword : f ≤ p.word) (ha : a + k * f ≤ 256 ^ p.word) :
    Collects p s a (k * f) (readLoop p (endianBits .big ||| f) f k (a % 256 ^ p.word)) := by
  induction k generalizing a with
  | zero => simpa [readLoop] using Collects.nil
  | succ k ih =>
    have hmul : (k + 1) * f = f + k * f := by ring
    have hpos := hf.pos
    have hmod : a % 256 ^ p.word = a := Nat.mod_eq_of_lt (by omega)
    have hnext : (((a : ℤ) + f) % (256 ^ p.word : ℕ)).toNat = (a + f) % 256 ^ p.word := by
      rw [← Nat.cast_add, ← Int.natCast_mod, Int.toNat_natCast]
    rw [hmod, readLoop, hnext, hmul]
    have ha' : a + f + k * f ≤ 256 ^ p.word := by omega
    refine (ih ha').cons hs hf hword (by omega) ?_
    rw [window_add, hs, value_append_big, length_window]

/-- The word that little endian reads at descending addresses collect. -/
theorem readLoop_little (hs : s.endian = .little) (hf : IsSize f) (hword : f ≤ p.word)
    (ha : a + k * f ≤ 256 ^ p.word) :
    Collects p s a (k * f)
      (readLoop p (endianBits .little ||| f) (-f) k ((a + f * (k - 1)) % 256 ^ p.word)) := by
  induction k with
  | zero => simpa [readLoop] using Collects.nil
  | succ k ih =>
    have hmul : (k + 1) * f = f + k * f := by ring
    have hpos := hf.pos
    have hlast : a + f * (k + 1 - 1) = a + k * f := by rw [Nat.add_sub_cancel, Nat.mul_comm]
    have hmod : (a + k * f) % 256 ^ p.word = a + k * f := Nat.mod_eq_of_lt (by omega)
    have hnext : readLoop p (endianBits .little ||| f) (-f) k
          ((((a + k * f : ℕ) : ℤ) + -f) % (256 ^ p.word : ℕ)).toNat =
        readLoop p (endianBits .little ||| f) (-f) k ((a + f * (k - 1)) % 256 ^ p.word) := by
      cases k with
      | zero => rfl
      | succ k =>
        have hback : ((a + (k + 1) * f : ℕ) : ℤ) + -f = (a + f * (k + 1 - 1) : ℕ) := by
          rw [Nat.add_sub_cancel]
          push_cast
          ring
        rw [hback, ← Int.natCast_mod, Int.toNat_natCast]
    rw [hlast, hmod, readLoop, hnext, hmul]
    have ha' : a + k * f ≤ 256 ^ p.word := by omega
    refine (ih ha').cons hs hf hword (by omega) ?_
    rw [Nat.add_comm f, window_add, hs, value_append_little, length_window]

/-- A word read in fragments. -/
theorem readFragments_collects {sizes size : ℕ} (hm : IsMask sizes) (hs : IsSize size) (hword : size ≤ p.word)
    (ha : a + size ≤ 256 ^ p.word) (hnot : size &&& sizes = 0) (hfill : fillSizes size &&& sizes ≠ 0) :
    ∃ ops, readFragments p (endianBits s.endian) sizes a size = some ops ∧ Collects p s a size ops := by
  obtain ⟨hf, hlt⟩ := fragment_size hm hs hnot hfill
  obtain ⟨k, hk⟩ := hf.dvd_of_le hs hlt.le
  have hpos := hf.pos
  have hspos := hs.pos
  have hmod : a % 256 ^ p.word = a := Nat.mod_eq_of_lt (by omega)
  rw [readFragments, largestSize_of_size hs]
  simp only [format_endian s.endian hf, format_size s.endian hf]
  generalize largestSize (fillSizes size &&& sizes) = f at *
  rw [Nat.mul_comm] at hk
  subst hk
  have hfword : f ≤ p.word := hlt.le.trans hword
  rw [Nat.mul_div_cancel k hpos]
  cases he : s.endian with
  | big =>
    have hloop := readLoop_big he hf hfword ha
    rw [hmod] at hloop
    exact ⟨_, if_pos (by rfl), hloop⟩
  | little =>
    have hloop := readLoop_little he hf hfword ha
    rw [if_neg (by decide), if_pos (by rfl)]
    exact ⟨_, rfl, hloop⟩

end Answers

section Widened

variable {p : Port}

/-- In the word around them, the bytes of a smaller word are the field at the shift. -/
theorem widenedShift_field (endian : Endian) {c size : ℕ} (hc : IsSize c) (before after : Bytes)
    (hlen : before.length + size + after.length = c) :
    ∃ shift high low, widenedShift (endianBits endian ||| c) c size before.length = some shift ∧
      shift + size ≤ c ∧ low < 2 ^ (shift * 8) ∧
      ∀ bs : Bytes, bs.length = size → endian.value (before ++ bs ++ after) =
        2 ^ (shift * 8) * (2 ^ (size * 8) * high + endian.value bs) + low := by
  rw [widenedShift, format_endian endian hc]
  cases endian with
  | big =>
    refine ⟨after.length, Endian.big.value before, Endian.big.value after, ?_, by omega, ?_, fun bs hbs => ?_⟩
    · rw [if_pos (by rfl), ← hlen]
      congr 1
      omega
    · rw [← byte_pow]
      exact Endian.big.value_lt after
    · rw [value_append_big, value_append_big, hbs, ← byte_pow, ← byte_pow]
      ring
  | little =>
    refine ⟨before.length, Endian.little.value after, Endian.little.value before,
      ?_, by omega, ?_, fun bs hbs => ?_⟩
    · rw [if_neg (by decide), if_pos (by rfl)]
    · rw [← byte_pow]
      exact Endian.little.value_lt before
    · rw [value_append_little, value_append_little, List.length_append, hbs, ← byte_pow, ← byte_pow, pow_add]
      ring

/-- A larger word around a smaller one. -/
structure Around (p : Port) (a size c : ℕ) : Prop where
  size_mem : IsSize size
  complete_mem : IsSize c
  complete_le : c ≤ p.word
  aligned_le : alignAddress p a c ≤ a
  end_le : a + size ≤ alignAddress p a c + c
  inside : alignAddress p a c + c ≤ 256 ^ p.word

theorem around_of_lt {a size c : ℕ} (hs : IsSize size) (hc : IsSize c) (hlt : size < c) (hword : c ≤ p.word)
    (hdvd : size ∣ a) (ha : a < 256 ^ p.word) : Around p a size c := by
  have halign : alignAddress p a c = a / c * c := and_range hc ha
  have hdiv := Nat.div_add_mod' a c
  have hmod := Nat.mod_lt a hc.pos
  have hsc := hs.dvd_of_le hc hlt.le
  refine ⟨hs, hc, hword, ?_, ?_, ?_⟩
  · rw [halign]
    exact Nat.div_mul_le_self a c
  · have hmodle := add_le_of_dvd ((Nat.dvd_mod_iff hsc).mpr hdvd) hsc hmod
    rw [halign]
    omega
  · have hrange := add_le_of_dvd (Nat.dvd_mul_left c (a / c)) (size_dvd_range (p := p) hc)
      (Nat.lt_of_le_of_lt (Nat.div_mul_le_self a c) ha)
    rw [halign]
    exact hrange

section Device

variable {s : Snoop} {a size c data : ℕ}

/-- A value put into the larger word changes only its own bytes. -/
theorem Around.fields (h : Around p a size c) (endian : Endian) (m : Memory) :
    ∃ shift high low, widenedShift (endianBits endian ||| c) c size (a - alignAddress p a c) = some shift ∧
      shift + size ≤ c ∧ low < 2 ^ (shift * 8) ∧
      endian.value (window m (alignAddress p a c) c) =
        2 ^ (shift * 8) * (2 ^ (size * 8) * high + endian.value (window m a size)) + low ∧
      ∀ bs : Bytes, bs.length = size → store m (alignAddress p a c) (endian.bytes c
        (2 ^ (shift * 8) * (2 ^ (size * 8) * high + endian.value bs) + low)) = store m a bs := by
  have hle := h.aligned_le
  have hend := h.end_le
  have hstart : alignAddress p a c + (a - alignAddress p a c) = a := Nat.add_sub_cancel' hle
  generalize alignAddress p a c = b at *
  have hrest : a - b + size + (c - (a - b) - size) = c := by omega
  have hlens : (window m b (a - b)).length + size + (window m (a + size) (c - (a - b) - size)).length = c := by
    rw [length_window, length_window]
    exact hrest
  obtain ⟨shift, high, low, hshift, hfit, hlow, hvalue⟩ := widenedShift_field endian h.complete_mem _ _ hlens
  rw [length_window] at hshift
  refine ⟨shift, high, low, hshift, hfit, hlow, ?_, fun bs hbs => ?_⟩
  · rw [← hvalue _ (length_window m a size)]
    conv_lhs => rw [← hrest, window_add, window_add, ← Nat.add_assoc, hstart]
  · have hbytes := endian.bytes_value (window m b (a - b) ++ bs ++ window m (a + size) (c - (a - b) - size))
    have hlen : (window m b (a - b) ++ bs ++ window m (a + size) (c - (a - b) - size)).length = c := by
      rw [List.length_append, List.length_append, length_window, length_window, hbs]
      exact hrest
    have hbetween := store_between m b (a - b) (c - (a - b) - size) bs
    rw [hlen] at hbytes
    rw [hstart, hbs] at hbetween
    rw [← hvalue bs hbs, hbytes, hbetween]

theorem Around.performable (h : Around p a size c) (endian : Endian) :
    Performable p (readOperation (alignAddress p a c) (endianBits endian ||| c)) :=
  readOperation_performable endian h.complete_mem h.complete_le h.inside

/-- The word around an address, as a read finds it. -/
theorem Around.word_eq (h : Around p a size c) :
    s.word p (readOperation (alignAddress p a c) (endianBits s.endian ||| c)) =
      s.endian.value (window (s.bytes p) (alignAddress p a c) c) := by
  rw [Snoop.word, readOperation_size s.endian h.complete_mem]
  rfl

/-- Read-modify-write of a larger word. -/
theorem writeWidened_run {sizes : ℕ} (h : Around p a size (smallestSize sizes)) (hdata : data < 256 ^ size) :
    ∃ plan, writeWidened p (endianBits s.endian) sizes a size data = some plan ∧
      (plan.run p s).bytes p = store (s.bytes p) a (s.endian.bytes size data) ∧
      (plan.run p s).endian = s.endian := by
  obtain ⟨shift, high, low, hshift, hfit, hlow, hword, hstore⟩ := h.fields s.endian (s.bytes p)
  have hcle := h.complete_le
  have hsize : size ≤ p.word := by omega
  have hmid := s.endian.value_lt (window (s.bytes p) a size)
  have hwhole :=
    s.endian.value_lt (window (s.bytes p) (alignAddress p a (smallestSize sizes)) (smallestSize sizes))
  rw [length_window, byte_pow] at hmid hwhole
  rw [byte_pow] at hdata
  have hfits : ∀ v, v < 2 ^ (size * 8) → v <<< (shift * 8) < 2 ^ (p.word * 8) := by
    intro v hv
    rw [Nat.shiftLeft_eq]
    calc v * 2 ^ (shift * 8) < 2 ^ (size * 8) * 2 ^ (shift * 8) :=
          Nat.mul_lt_mul_of_pos_right hv (Nat.two_pow_pos _)
      _ = 2 ^ (size * 8 + shift * 8) := (pow_add 2 _ _).symm
      _ ≤ 2 ^ (p.word * 8) := Nat.pow_le_pow_right (by decide) (by omega)
  have hones : 2 ^ (size * 8) - 1 < 2 ^ (size * 8) := Nat.sub_lt (Nat.two_pow_pos _) Nat.one_pos
  have hvalue : s.endian.value (s.endian.bytes size data) = data := by
    rw [Endian.value_bytes, Nat.mod_eq_of_lt (by rwa [byte_pow])]
  have hfield := replace_field (w := p.word * 8) hlow hmid hdata
    (hword ▸ hwhole.trans_le (Nat.pow_le_pow_right (by decide) (by omega))) (by omega)
  have hinject : (data <<< (shift * 8)) % 256 ^ p.word |||
      s.word p (readOperation (alignAddress p a (smallestSize sizes)) (endianBits s.endian ||| smallestSize sizes)) &&&
        (256 ^ p.word - 1 - (p.dataMask size <<< (shift * 8)) % 256 ^ p.word) =
      2 ^ (shift * 8) * (2 ^ (size * 8) * high + s.endian.value (s.endian.bytes size data)) + low := by
    rw [h.word_eq, hword, hvalue, p.dataMask_of_le_word hsize, byte_pow, byte_pow,
      Nat.mod_eq_of_lt (hfits data hdata), Nat.mod_eq_of_lt (hfits _ hones), hfield]
  rw [writeWidened, largestSize_of_size h.size_mem]
  simp only [hshift, Option.map_some]
  refine ⟨_, rfl, ?_⟩
  rw [WritePlan.run, runOperation_read rfl (h.performable s.endian)]
  simp only [hinject]
  obtain ⟨hbytes, hendian⟩ := runCycle_write h.complete_mem hcle h.inside
    (2 ^ (shift * 8) * (2 ^ (size * 8) * high + s.endian.value (s.endian.bytes size data)) + low)
  exact ⟨hbytes.trans (hstore _ (s.endian.length_bytes size data)), hendian⟩

end Device

/-- Reading a larger word. -/
theorem readWidened_value (h : Around p a size c) :
    ∃ shift, widenedShift (endianBits s.endian ||| c) c size (a - alignAddress p a c) = some shift ∧
      setStop p 0 (runCycle p s [readOperation (alignAddress p a c) (endianBits s.endian ||| c)]).2 >>> (shift * 8) &&&
        p.dataMask size = s.endian.value (window (s.bytes p) a size) := by
  obtain ⟨shift, high, low, hshift, hfit, hlow, hword, -⟩ := h.fields s.endian (s.bytes p)
  have hcle := h.complete_le
  have hmid := s.endian.value_lt (window (s.bytes p) a size)
  have hreads : ∀ op ∈ [readOperation (alignAddress p a c) (endianBits s.endian ||| c)],
      op.isWrite = false ∧ Performable p op := by
    intro op hop
    rw [List.mem_singleton.mp hop]
    exact ⟨rfl, h.performable s.endian⟩
  have hzero : 0 < 256 ^ 0 := by decide
  have hstop := setStop_cons (p := p) (s := s) (a := alignAddress p a c) h.complete_mem hzero (by omega) []
  rw [length_window, byte_pow] at hmid
  rw [Nat.zero_mul, Nat.zero_add, List.map_nil] at hstop
  refine ⟨shift, hshift, ?_⟩
  rw [runCycle_reads hreads, hstop, setStop, List.foldl_nil, hword, p.dataMask_of_le_word (by omega), byte_pow,
    shift_field hlow hmid]

end Widened

section Tools

variable {p : Port} {s : Snoop} {width address size data : ℕ}

/-- A size-aligned word on a device with some usable size. -/
structure Usable (p : Port) (width address size : ℕ) : Prop where
  width_lt : width < 16
  shared : lineWidths p &&& width ≠ 0
  size_mem : IsSize size
  size_le : size ≤ p.word
  aligned : size ∣ address
  address_lt : address < 256 ^ p.word

namespace Usable

variable (h : Usable p width address size)

include h

theorem accepts : acceptsArgument p address size = true := by
  simp [acceptsArgument, h.size_mem, h.size_le, and_size h.size_mem, Nat.mod_eq_zero_of_dvd h.aligned]

theorem inside : address + size ≤ 256 ^ p.word :=
  add_le_of_dvd h.aligned (size_dvd_range h.size_mem) h.address_lt

theorem and_mask {v : ℕ} (hv : v < 256 ^ size) : v &&& p.dataMask size = v := by
  rw [p.dataMask_of_le_word h.size_le, byte_pow, Nat.and_two_pow_sub_one_eq_mod,
    Nat.mod_eq_of_lt (by rwa [← byte_pow])]

theorem isMask : IsMask (lineWidths p &&& width) := isMask_and_lineWidths h.shared

theorem support (s : Snoop) : toolEndian (deviceSupport (s.busSpecific width)) 0 = endianBits s.endian ∧
    lineWidths p &&& deviceSupport (s.busSpecific width) = lineWidths p &&& width := by
  rw [deviceSupport_busSpecific s h.width_lt]
  exact ⟨toolEndian_probed s.endian h.width_lt, and_endianBits s.endian width⟩

theorem around (hnot : size &&& (lineWidths p &&& width) = 0)
    (hfill : fillSizes size &&& (lineWidths p &&& width) = 0) :
    Around p address size (smallestSize (lineWidths p &&& width)) := by
  have hlt := widened_size h.isMask h.size_mem hnot hfill
  have hedge := (AccessSizes.ofSupport width h.shared).edge_le.trans
    ((AccessSizes.ofSupport width h.shared).bulk_le.trans p.data_le)
  exact around_of_lt h.size_mem h.isMask.smallest_mem hlt hedge h.aligned h.address_lt

end Usable

/-- `eb-write` stores the word. -/
theorem ebWrite_stores (h : Usable p width address size) (hdata : data < 256 ^ size) :
    ∃ s', ebWrite p (deviceSupport (s.busSpecific width)) 0 false address size data s = some s' ∧
      s'.bytes p = store (s.bytes p) address (s.endian.bytes size data) ∧ s'.endian = s.endian := by
  obtain ⟨hendian, hsizes⟩ := h.support s
  rw [ebWrite, writePlan, hendian, hsizes, h.accepts, h.and_mask hdata, if_neg (by simp), if_neg h.shared]
  split
  · rename_i hnot
    rw [if_neg (by simp)]
    split
    · rename_i hfill
      obtain ⟨ops, hops, hplaces⟩ := writeFragments_places s.endian data h.isMask h.size_mem h.size_le
        h.inside hnot hfill
      obtain ⟨hbytes, hend⟩ := runCycle_writes (s := s) hplaces.writes
      rw [hops]
      exact ⟨_, rfl, hbytes.trans (hplaces.stores_eq _), hend⟩
    · rename_i hfill
      obtain ⟨plan, hplan, hbytes, hend⟩ :=
        writeWidened_run (s := s) (h.around hnot (not_not.mp hfill)) hdata
      rw [hplan]
      exact ⟨_, rfl, hbytes, hend⟩
  · rename_i hdirect
    obtain ⟨hbytes, hend⟩ := runCycle_write (s := s) h.size_mem h.size_le h.inside data
    rw [direct_size h.size_mem _ hdirect]
    simp only [format_endian_ne s.endian h.size_mem, and_false, if_false]
    exact ⟨_, rfl, hbytes, hend⟩

/-- `eb-read` returns the word. -/
theorem ebRead_word (h : Usable p width address size) (s : Snoop) :
    ebRead p (deviceSupport (s.busSpecific width)) 0 false address size s =
      some (s.endian.value (window (s.bytes p) address size)) := by
  obtain ⟨hendian, hsizes⟩ := h.support s
  have hvalue : s.endian.value (window (s.bytes p) address size) < 256 ^ size := by
    simpa using s.endian.value_lt (window (s.bytes p) address size)
  -- without widening the collected word is the answer
  have hdone : ∀ ops, Collects p s address size ops →
      setStop p 0 (runCycle p s ops).2 >>> (0 * 8) &&& p.dataMask size =
        s.endian.value (window (s.bytes p) address size) := by
    intro ops hops
    rw [runCycle_reads hops.reads, hops.value 0 0 (by decide) (by simpa using h.size_le),
      Nat.zero_mul, Nat.zero_add, Nat.zero_mul, Nat.shiftRight_zero, h.and_mask hvalue]
  rw [ebRead, readPlan, hendian, hsizes, h.accepts, if_neg (by simp), if_neg h.shared]
  split
  · rename_i hnot
    rw [if_neg (by simp)]
    split
    · rename_i hfill
      obtain ⟨ops, hops, hcollects⟩ :=
        readFragments_collects (s := s) h.isMask h.size_mem h.size_le h.inside hnot hfill
      rw [hops, ← hdone ops hcollects]
      rfl
    · rename_i hfill
      have haround := h.around hnot (not_not.mp hfill)
      obtain ⟨shift, hshift, hstop⟩ := readWidened_value (s := s) haround
      simp only [largestSize_of_size h.size_mem, hshift, Option.map_some, hstop]
  · rename_i hdirect
    have hsingle : Collects p s address size [readOperation address (endianBits s.endian ||| size)] :=
      (Collects.nil (a := address)).cons rfl h.size_mem h.size_le h.inside (by simp [window])
    rw [direct_size h.size_mem _ hdirect]
    simp only [format_endian_ne s.endian h.size_mem, and_false, if_false, Option.map_some, hdone _ hsingle]

/-- What `eb-write` leaves in the memory is the word, and `eb-read` finds whatever word is there, so
that reading back gives the value. -/
theorem tools_compose (h : Usable p width address size) (hdata : data < 256 ^ size) (s : Snoop) :
    (∃ s', ebWrite p (deviceSupport (s.busSpecific width)) 0 false address size data s = some s' ∧
      s'.bytes p = store (s.bytes p) address (s.endian.bytes size data) ∧
      ebRead p (deviceSupport (s'.busSpecific width)) 0 false address size s' = some data) ∧
    ebRead p (deviceSupport (s.busSpecific width)) 0 false address size s =
      some (s.endian.value (window (s.bytes p) address size)) := by
  obtain ⟨s', hwrite, hbytes, hendian⟩ := ebWrite_stores (s := s) h hdata
  refine ⟨⟨s', hwrite, hbytes, ?_⟩, ebRead_word h s⟩
  have hback := window_store (s.bytes p) address (s.endian.bytes size data)
  rw [s.endian.length_bytes] at hback
  rw [ebRead_word h s', hbytes, hback, hendian, Endian.value_bytes, Nat.mod_eq_of_lt hdata]

/-- A 16-bit word through 32-bit accesses only, on a 32-bit line. -/
theorem tools_compose_widened :
    ∃ s', ebWrite (Port.ofSizes 8 4 4 (by decide)) (deviceSupport ((⟨0x4000, .big, fun _ => 7⟩ : Snoop).busSpecific 4)) 0
        false 0x4002 2 0x1234 ⟨0x4000, .big, fun _ => 7⟩ = some s' ∧
      ebRead (Port.ofSizes 8 4 4 (by decide)) (deviceSupport (s'.busSpecific 4)) 0 false 0x4002 2 s' = some 0x1234 := by
  have husable : Usable (Port.ofSizes 8 4 4 (by decide)) 4 0x4002 2 :=
    ⟨by decide, by decide, by decide, by decide, by decide, by decide⟩
  obtain ⟨⟨s', hwrite, -, hread⟩, -⟩ :=
    tools_compose husable (show 0x1234 < 256 ^ 2 by decide) ⟨0x4000, .big, fun _ => 7⟩
  exact ⟨s', hwrite, hread⟩

end Tools

end WhiteRabbit.Etherbone.Tools
