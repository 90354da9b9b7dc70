import WhiteRabbit.BigEndianWords
import WhiteRabbit.EtherboneWidths

/-!
# Etherbone records

A record is a four-byte header, padded to the record alignment, followed by words: the base
write address and the values written, then the base return address and the addresses read.
The select byte of the header says which byte lanes of the data port take part.
-/

namespace WhiteRabbit.Etherbone
open BigEndian

def ebRecordBCA : UInt8 := 0x80
def ebRecordRCA : UInt8 := 0x40
def ebRecordRFF : UInt8 := 0x20
def ebRecordCYC : UInt8 := 0x08
def ebRecordWCA : UInt8 := 0x04
def ebRecordWFF : UInt8 := 0x02

/-- A record with its words decoded. `pad` holds the header bytes after the first four,
which carry no meaning. `base` and `ret` are present only in front of a nonempty list. -/
structure Record where
  flags : UInt8
  select : UInt8
  pad : Bytes
  base : ℕ
  writes : List ℕ
  ret : ℕ
  reads : List ℕ
  deriving DecidableEq

namespace Record

/-- Whether the record ends its cycle. -/
def cyc (r : Record) : Bool := r.flags &&& ebRecordCYC != 0

def writeWords (r : Record) : List ℕ := if r.writes = [] then [] else r.base :: r.writes

def readWords (r : Record) : List ℕ := if r.reads = [] then [] else r.ret :: r.reads

def words (r : Record) : List ℕ := r.writeWords ++ r.readWords

def header (r : Record) : Bytes :=
  [r.flags, r.select, UInt8.ofNat r.writes.length, UInt8.ofNat r.reads.length] ++ r.pad

def bytes (p : Port) (r : Record) : Bytes := r.header ++ encodeAll p.alignment r.words

/-- Total request length, as computed before formatting. -/
def length (p : Port) (r : Record) : ℕ := p.recordAlignment + r.words.length * p.alignment

/-- Counts fit their byte, words fit the alignment, and the header has its size. -/
structure WellFormed (p : Port) (r : Record) : Prop where
  pad_length : r.pad.length + 4 = p.recordAlignment
  writes_le : r.writes.length ≤ 255
  reads_le : r.reads.length ≤ 255
  words_lt : ∀ w ∈ r.words, w < 256 ^ p.alignment

theorem length_header {p : Port} {r : Record} (h : r.WellFormed p) :
    r.header.length = p.recordAlignment := by
  simp only [header, List.length_append, List.length_cons, List.length_nil, ← h.pad_length]
  omega

theorem length_bytes {p : Port} {r : Record} (h : r.WellFormed p) :
    (r.bytes p).length = r.length p := by
  simp [bytes, length, length_header h]

theorem length_words (r : Record) : r.words.length =
    r.writes.length + r.reads.length +
      (if 0 < r.writes.length then 1 else 0) + (if 0 < r.reads.length then 1 else 0) := by
  unfold words writeWords readWords
  cases r.writes with
  | nil => cases r.reads <;> simp
  | cons w ws =>
    cases r.reads
    · simp
    · simp; omega

theorem length_words_le {p : Port} {r : Record} (h : r.WellFormed p) : r.words.length ≤ 512 := by
  have hw := h.writes_le
  have hr := h.reads_le
  rw [length_words]
  split <;> split <;> omega

/-- The worst-case record fits the buffer. -/
theorem length_le_bufferSize {p : Port} {r : Record} (h : r.WellFormed p) :
    r.length p ≤ p.bufferSize := by
  have hl := Nat.mul_le_mul_right p.alignment (length_words_le h)
  have hb := p.record_fits
  unfold length
  omega

theorem length_pos (p : Port) (r : Record) : 0 < r.length p := by
  have := p.recordAlignment_mem
  unfold length
  omega

theorem recordAlignment_le {p : Port} {r : Record} (h : r.WellFormed p) :
    p.recordAlignment ≤ (r.bytes p).length := by
  rw [length_bytes h, length]
  omega

end Record

/-- The bytes of a list of records. -/
def recordBytes (p : Port) (rs : List Record) : Bytes := rs.flatMap (Record.bytes p)

@[simp] theorem recordBytes_nil (p : Port) : recordBytes p [] = [] := rfl

@[simp] theorem recordBytes_cons (p : Port) (r : Record) (rs : List Record) :
    recordBytes p (r :: rs) = r.bytes p ++ recordBytes p rs := rfl

@[simp] theorem recordBytes_append (p : Port) (rs ts : List Record) :
    recordBytes p (rs ++ ts) = recordBytes p rs ++ recordBytes p ts := by
  simp [recordBytes]

/-- A complete well-formed cycle: only its last record has the cycle flag. -/
structure WireCycle (p : Port) where
  body : List Record
  last : Record
  wellFormed : ∀ r ∈ body ++ [last], r.WellFormed p
  body_open : ∀ r ∈ body, r.cyc = false
  last_cyc : last.cyc = true

namespace WireCycle

variable {p : Port}

def records (c : WireCycle p) : List Record := c.body ++ [c.last]

def bytes (c : WireCycle p) : Bytes := recordBytes p c.records

end WireCycle

/-- The records of several cycles. -/
def streamRecords {p : Port} (cycles : List (WireCycle p)) : List Record :=
  cycles.flatMap WireCycle.records

/-- The bytes of several cycles. -/
def streamBytes {p : Port} (cycles : List (WireCycle p)) : Bytes :=
  recordBytes p (streamRecords cycles)

@[simp] theorem streamRecords_nil {p : Port} : streamRecords ([] : List (WireCycle p)) = [] := rfl

@[simp] theorem streamRecords_cons {p : Port} (c : WireCycle p) (cs : List (WireCycle p)) :
    streamRecords (c :: cs) = c.records ++ streamRecords cs := rfl

@[simp] theorem streamRecords_append {p : Port} (cs ds : List (WireCycle p)) :
    streamRecords (cs ++ ds) = streamRecords cs ++ streamRecords ds := by
  simp [streamRecords]

@[simp] theorem streamBytes_cons {p : Port} (c : WireCycle p) (cs : List (WireCycle p)) :
    streamBytes (c :: cs) = c.bytes ++ streamBytes cs := by
  simp [streamBytes, WireCycle.bytes]

theorem wellFormed_streamRecords {p : Port} (cycles : List (WireCycle p)) :
    ∀ r ∈ streamRecords cycles, r.WellFormed p := by
  intro r hr
  obtain ⟨c, -, hc⟩ := List.mem_flatMap.mp hr
  exact c.wellFormed r hc

def ebLog2Table : List ℕ := [0, 1, 2, 4, 7, 3, 6, 5]

def ebLog2 (x : UInt8) : ℕ := ebLog2Table.getD ((x * 0x17) >>> 5).toNat 0

/-- The operation size and byte shift that a select byte stands for. -/
structure Select where
  ok : Bool
  opShift : ℕ
  opWidth : ℕ
  deriving DecidableEq

def decodeSelect (data : ℕ) (select : UInt8) : Select :=
  let opShift := ebLog2 (select &&& -select)
  let bits := select.toNat >>> opShift
  let bits1 := (bits >>> 1) + 1
  let opWidths := ebLog2 (UInt8.ofNat bits1)
  let opWidth := opWidths + 1
  { ok := select != 0 && bits &&& (bits + 1) == 0 && opWidth &&& opWidths == 0 &&
      opShift &&& opWidths == 0 && decide (opWidth ≤ data) && decide (opShift < data)
    opShift := opShift
    opWidth := opWidth }

/-- The select byte of an operation of `size` bytes shifted by `opShift` bytes. -/
def selectByte (size opShift : ℕ) : UInt8 := UInt8.ofNat ((0xFF >>> (8 - size)) <<< opShift)

/-- The decoder recovers size and shift of every aligned operation inside the port. -/
theorem decodeSelect_selectByte {data size opShift : ℕ} (hd : IsSize data) (hs : IsSize size)
    (hdvd : size ∣ opShift) (hle : opShift + size ≤ data) :
    decodeSelect data (selectByte size opShift) = ⟨true, opShift, size⟩ := by
  have key : ∀ d s, IsSize d → IsSize s → ∀ o < 8, s ∣ o → o + s ≤ d →
      decodeSelect d (selectByte s o) = ⟨true, o, s⟩ := by
    rintro d s (rfl | rfl | rfl | rfl) (rfl | rfl | rfl | rfl) <;> decide
  have ho : opShift < 8 := by
    have := hs.pos
    rcases hd with rfl | rfl | rfl | rfl <;> omega
  exact key data size hd hs opShift ho hdvd hle

/-- Valid select lines describe an aligned operation that fits the port. -/
theorem decodeSelect_ok {data : ℕ} {select : UInt8} (hd : IsSize data)
    (h : (decodeSelect data select).ok = true) :
    IsSize (decodeSelect data select).opWidth ∧
      (decodeSelect data select).opShift + (decodeSelect data select).opWidth ≤ data := by
  have key : ∀ d, IsSize d → ∀ n < 256, (decodeSelect d (UInt8.ofNat n)).ok = true →
      IsSize (decodeSelect d (UInt8.ofNat n)).opWidth ∧
        (decodeSelect d (UInt8.ofNat n)).opShift +
          (decodeSelect d (UInt8.ofNat n)).opWidth ≤ d := by
    rintro d (rfl | rfl | rfl | rfl) <;> decide +kernel
  have hk := key data hd select.toNat select.toNat_lt
  rw [UInt8.ofNat_toNat] at hk
  exact hk h

/-- A value that is masked to its size fits its lanes. -/
theorem laneWord_lt {p : Port} {select : UInt8} (hok : (decodeSelect p.data select).ok = true) (value : ℕ) :
    (value &&& p.dataMask (decodeSelect p.data select).opWidth) <<< ((decodeSelect p.data select).opShift <<< 3) <
      256 ^ p.data := by
  obtain ⟨-, hle⟩ := decodeSelect_ok p.data_mem hok
  have hmask : value &&& p.dataMask (decodeSelect p.data select).opWidth < 256 ^ (decodeSelect p.data select).opWidth := by
    rw [p.dataMask_eq (by omega), show 256 ^ (decodeSelect p.data select).opWidth =
      2 ^ (8 * (decodeSelect p.data select).opWidth) from (pow_mul 2 8 _).symm, Nat.and_two_pow_sub_one_eq_mod]
    exact Nat.mod_lt _ (Nat.two_pow_pos _)
  have hshift : (decodeSelect p.data select).opShift <<< 3 = 8 * (decodeSelect p.data select).opShift := by
    rw [Nat.shiftLeft_eq, Nat.mul_comm]
  rw [hshift, Nat.shiftLeft_eq, pow_mul]
  calc (value &&& p.dataMask (decodeSelect p.data select).opWidth) * (2 ^ 8) ^ (decodeSelect p.data select).opShift
      < 256 ^ (decodeSelect p.data select).opWidth * 256 ^ (decodeSelect p.data select).opShift :=
        Nat.mul_lt_mul_of_pos_right hmask (Nat.pow_pos (by decide))
    _ = 256 ^ ((decodeSelect p.data select).opWidth + (decodeSelect p.data select).opShift) :=
      (pow_add 256 _ _).symm
    _ ≤ 256 ^ p.data := Nat.pow_le_pow_right (by decide) (by omega)

end WhiteRabbit.Etherbone
