import Mathlib.Data.Nat.ModEq
import WhiteRabbit.ToolFormats

/-!
# The memory of eb-snoop

`eb-snoop` is a device that is only memory. Its two callbacks index an array that starts at the
address of the device. Seen from the bus they read and store words in the endian of the device.
-/

namespace WhiteRabbit.Etherbone

open BigEndian MemoryWords

structure Snoop where
  address : ℕ
  endian : Endian
  memory : ℕ → UInt8

def sdbWishboneLittleEndian : ℕ := 0x80

/-- What the record of the device says about its bus, with the sizes given by `-w`. -/
def Snoop.busSpecific (s : Snoop) (width : ℕ) : ℕ :=
  (if s.endian = .little then sdbWishboneLittleEndian else 0) ||| width

variable (p : Port)

/-- `req_address -= address`, and an index from there. -/
def Snoop.index (s : Snoop) (reqAddress i : ℕ) : ℕ :=
  ((reqAddress + (256 ^ p.word - s.address)) % 256 ^ p.word + i) % 256 ^ p.word

/-- The indices of a word, from its high byte to its low one. -/
def byteOrder (endian : Endian) (width : ℕ) : List ℕ :=
  match endian with
  | .big => List.range width
  | .little => (List.range width).reverse

def myRead (s : Snoop) (reqAddress width : ℕ) : ℕ :=
  let width := width &&& ebDataX
  shiftIn (256 ^ p.word) ((byteOrder s.endian width).map fun i => s.memory (s.index p reqAddress i))

/-- `my_memory[req_address+i] = data & 0xff; data >>= 8`, for one index after the other. -/
def storeLoop (s : Snoop) (reqAddress : ℕ) : List ℕ → ℕ → (ℕ → UInt8) → ℕ → UInt8
  | [], _, memory => memory
  | i :: is, data, memory =>
    storeLoop s reqAddress is (data >>> 8)
      (Function.update memory (s.index p reqAddress i) (UInt8.ofNat (data &&& 0xff)))

def myWrite (s : Snoop) (reqAddress width data : ℕ) : Snoop :=
  let width := width &&& ebDataX
  { s with memory := storeLoop p s reqAddress (byteOrder s.endian width).reverse data s.memory }

/-- The call of a queued operation. What a read returns becomes the value of the operation. -/
def runOperation (s : Snoop) (op : Operation) : Snoop × Operation :=
  if op.isWrite then (myWrite p s op.address op.size op.value, op)
  else (s, { op with value := myRead p s op.address op.size })

/-- The operations of a cycle, in order. -/
def runCycle : Snoop → List Operation → Snoop × List Operation
  | s, [] => (s, [])
  | s, op :: ops =>
    let done := runOperation p s op
    let rest := runCycle done.1 ops
    (rest.1, done.2 :: rest.2)

section Bytes

/-- An array by addresses of the bus. -/
def Snoop.view (s : Snoop) (memory : ℕ → UInt8) : Memory := fun x =>
  if x < 256 ^ p.word then memory (s.index p x 0) else 0

/-- What the bus sees of the device. -/
def Snoop.bytes (s : Snoop) : Memory := s.view p s.memory

variable {p} {s : Snoop} {a w : ℕ}

theorem Snoop.index_add (s : Snoop) (a i : ℕ) : s.index p a i = s.index p (a + i) 0 := by
  simp only [Snoop.index, Nat.mod_add_mod, Nat.add_zero, Nat.mod_mod]
  congr 1
  omega

theorem Snoop.index_inj {x y : ℕ} (hx : x < 256 ^ p.word) (hy : y < 256 ^ p.word)
    (h : s.index p x 0 = s.index p y 0) : x = y := by
  simp only [Snoop.index, Nat.add_zero, Nat.mod_mod] at h
  have hmod : x % 256 ^ p.word = y % 256 ^ p.word := Nat.ModEq.add_right_cancel' _ h
  rwa [Nat.mod_eq_of_lt hx, Nat.mod_eq_of_lt hy] at hmod

theorem size_and {size : ℕ} (h : IsSize size) : size &&& ebDataX = size := by
  rcases h with rfl | rfl | rfl | rfl <;> rfl

/-- A read returns the word in the memory. -/
theorem myRead_eq (hw : IsSize w) (hword : w ≤ p.word) (ha : a + w ≤ 256 ^ p.word) :
    myRead p s a w = s.endian.value (window (s.bytes p) a w) := by
  have hwindow : (List.range w).map (fun i => s.memory (s.index p a i)) = window (s.bytes p) a w := by
    apply List.map_congr_left
    intro i hi
    have hlt := List.mem_range.mp hi
    rw [Snoop.bytes, Snoop.view, if_pos (by omega), Snoop.index_add]
  have hpow : 256 ^ w ≤ 256 ^ p.word := Nat.pow_le_pow_right (by decide) hword
  rw [myRead, size_and hw]
  cases s.endian with
  | big =>
    rw [byteOrder, hwindow, shiftIn_eq _ (by rwa [length_window])]
    rfl
  | little =>
    rw [byteOrder, List.map_reverse, hwindow, shiftIn_eq _ (by rwa [List.length_reverse, length_window])]
    rfl

/-- One turn of the store loop, seen from the bus. -/
theorem view_update (s : Snoop) (memory : ℕ → UInt8) (b : UInt8) {i : ℕ} (hi : a + i < 256 ^ p.word) :
    s.view p (Function.update memory (s.index p a i) b) = store (s.view p memory) (a + i) [b] := by
  rw [store_singleton, Snoop.index_add]
  funext x
  by_cases hx : x = a + i
  · rw [hx, Function.update_self, Snoop.view, if_pos hi, Function.update_self]
  · rw [Function.update_of_ne hx, Snoop.view, Snoop.view]
    split
    · rename_i hlt
      rw [Function.update_of_ne fun h => hx (Snoop.index_inj hlt hi h)]
    · rfl

theorem view_down (s : Snoop) (memory : ℕ → UInt8) {n data : ℕ} (h : a + n ≤ 256 ^ p.word) :
    s.view p (storeLoop p s a (List.range n).reverse data memory) = store (s.view p memory) a (encode n data) := by
  induction n generalizing data memory with
  | zero => simp [storeLoop, encode]
  | succ n ih =>
    rw [List.range_succ, List.reverse_append, List.reverse_singleton, List.singleton_append, storeLoop,
      ih _ (by omega), view_update s memory _ (by omega), ofNat_and, encode_concat, store_append', length_encode,
      Nat.shiftRight_eq_div_pow]

theorem view_up (s : Snoop) (memory : ℕ → UInt8) (k data : ℕ) {n : ℕ} (h : a + k + n ≤ 256 ^ p.word) :
    s.view p (storeLoop p s a (List.range' k n) data memory) =
      store (s.view p memory) (a + k) (lowBytes n data) := by
  induction n generalizing data memory k with
  | zero => simp [storeLoop, lowBytes]
  | succ n ih =>
    have hcons := store_append (s.view p memory) (a + k) [UInt8.ofNat (data &&& 0xff)] (lowBytes n (data >>> 8))
    rw [List.singleton_append, List.length_singleton] at hcons
    rw [List.range'_succ, storeLoop, ih _ _ _ (by omega), view_update s memory _ (by omega),
      lowBytes, hcons, Nat.add_assoc]

/-- A write stores the word, and keeps the device. -/
theorem myWrite_bytes (s : Snoop) {data : ℕ} (hw : IsSize w) (ha : a + w ≤ 256 ^ p.word) :
    (myWrite p s a w data).bytes p = store (s.bytes p) a (s.endian.bytes w data) ∧
      (myWrite p s a w data).endian = s.endian := by
  refine ⟨?_, rfl⟩
  rw [myWrite, size_and hw]
  change s.view p (storeLoop p s a _ data s.memory) = _
  cases hs : s.endian with
  | big => exact view_down s s.memory ha
  | little =>
    have hup := view_up s s.memory 0 data ha
    rw [byteOrder, List.reverse_reverse, List.range_eq_range', hup, lowBytes_eq]
    rfl

end Bytes

section Cycles

variable {p} {s : Snoop}

/-- An operation that the device can perform: of a size that fits a word, inside the address space. -/
structure Performable (p : Port) (op : Operation) : Prop where
  size_mem : IsSize op.size
  size_le : op.size ≤ p.word
  inside : op.address + op.size ≤ 256 ^ p.word

/-- What writes do to a memory. -/
def stores (endian : Endian) (m : Memory) (ops : List Operation) : Memory :=
  ops.foldl (fun m op => store m op.address (endian.bytes op.size op.value)) m

/-- The word that a read finds. -/
def Snoop.word (p : Port) (s : Snoop) (op : Operation) : ℕ :=
  s.endian.value (window (s.bytes p) op.address op.size)

theorem runOperation_write {op : Operation} (hw : op.isWrite = true) (h : Performable p op) :
    (runOperation p s op).1.bytes p = store (s.bytes p) op.address (s.endian.bytes op.size op.value) ∧
      (runOperation p s op).1.endian = s.endian := by
  rw [runOperation, if_pos hw]
  exact myWrite_bytes s h.size_mem h.inside

theorem runOperation_read {op : Operation} (hr : op.isWrite = false) (h : Performable p op) :
    runOperation p s op = (s, { op with value := s.word p op }) := by
  rw [runOperation, hr, if_neg (by simp), myRead_eq h.size_mem h.size_le h.inside, Snoop.word]

theorem runCycle_writes {ops : List Operation} (hops : ∀ op ∈ ops, op.isWrite = true ∧ Performable p op) :
    (runCycle p s ops).1.bytes p = stores s.endian (s.bytes p) ops ∧
      (runCycle p s ops).1.endian = s.endian := by
  induction ops generalizing s with
  | nil => exact ⟨rfl, rfl⟩
  | cons op ops ih =>
    obtain ⟨hw, hperf⟩ := hops op (by simp)
    obtain ⟨hbytes, hendian⟩ := runOperation_write (s := s) hw hperf
    obtain ⟨hbytes', hendian'⟩ := ih (s := (runOperation p s op).1)
      fun op' hop' => hops op' (List.mem_cons_of_mem op hop')
    rw [hendian, hbytes] at hbytes'
    exact ⟨hbytes', hendian'.trans hendian⟩

theorem runCycle_reads {ops : List Operation} (hops : ∀ op ∈ ops, op.isWrite = false ∧ Performable p op) :
    runCycle p s ops = (s, ops.map fun op => { op with value := s.word p op }) := by
  induction ops with
  | nil => rfl
  | cons op ops ih =>
    obtain ⟨hr, hperf⟩ := hops op (by simp)
    rw [runCycle, runOperation_read hr hperf, ih fun op' hop' => hops op' (List.mem_cons_of_mem op hop')]
    rfl

end Cycles

end WhiteRabbit.Etherbone
