import WhiteRabbit.MessageDecoder
import WhiteRabbit.StreamFragmentation
import Mathlib.Algebra.Ring.Int.Defs

/-!
# The pointers of the slave

`eb_device_slave` writes its reply into the buffer that holds the request. Here the buffer is memory, the
function moves its pointers, and what it does to the bytes is noted down. A reply only covers bytes that have
been read, nothing behind the end of the data is touched, and there is always room to receive into.
-/

namespace WhiteRabbit.Etherbone
open BigEndian

/-- What is done to the bytes of the buffer. -/
inductive Touch where
  | header (ptr size : ℤ)
  | load (ptr size : ℤ)
  | store (ptr size : ℤ)
  | move (src size : ℤ)
  | send (size : ℤ)
  | recv (ptr size : ℤ)
  deriving DecidableEq

structure Pointers where
  wptr : ℤ
  rptr : ℤ
  eos : ℤ
  deriving DecidableEq

/-- A record header that has been read. -/
structure RecordHeader where
  flags : UInt8
  select : UInt8
  wcount : UInt8
  rcount : UInt8
  deriving DecidableEq

/-- Where the function is. -/
inductive Control where
  | records
  /-- Behind a record header. -/
  | record (h : RecordHeader)
  /-- In `recv`, for the rest of a record. -/
  | refill (h : RecordHeader) (keep : ℤ)
  /-- In `recv`, for the rest of a cycle. -/
  | resume (keep : ℤ)
  | returned (again : Bool)
  | killed
  /-- No size for the alignments, or one that the build does not have. -/
  | undefined
  deriving DecidableEq

/-- The locals of `eb_device_slave`, and what has happened to the buffer. -/
structure Locals (σ : Type) extends Pointers where
  control : Control
  bus : Bus σ
  buffer : Bytes
  cycleEnd : Bool
  cycleOpen : Bool
  reply : Bool
  sent : List Bytes
  touched : List (Touch × Pointers)

/-- Whose call it is: a stream or not, the widths of the device and whether it is passive, and the tags of all devices. -/
structure Caller where
  stream : Bool
  device : Option (ℕ × Bool)
  tags : List ℕ

namespace Caller

/-- The widths of the device, on a stream. -/
def widths (c : Caller) : ℕ := if c.stream then c.device.elim 0 Prod.fst else 0

def passive (c : Caller) : Bool := c.device.elim false Prod.snd

def active (c : Caller) : Bool := c.device.elim false fun d => !d.2

/-- The widths have been negotiated with the socket, or not yet. -/
def Admitted (c : Caller) (socketWidths : ℕ) : Prop :=
  c.widths = 0 ∨ ebWidthRefined c.widths = true ∧ c.widths &&& socketWidths = c.widths

end Caller

/-- Bytes of memory are replaced. -/
def overwrite (memory : Bytes) (ptr : ℤ) (bytes : Bytes) : Bytes :=
  memory.take ptr.toNat ++ bytes ++ memory.drop (ptr.toNat + bytes.length)

def RecordHeader.total (h : RecordHeader) : ℕ :=
  h.wcount.toNat + h.rcount.toNat + (if 0 < h.wcount.toNat then 1 else 0) + (if 0 < h.rcount.toNat then 1 else 0)

namespace Locals

variable {σ : Type}

def note (l : Locals σ) (t : Touch) : Locals σ := { l with touched := (t, l.toPointers) :: l.touched }

def goto (l : Locals σ) (control : Control) : Locals σ := { l with control := control }

/-- The bytes from a pointer on. -/
def from_ (l : Locals σ) (ptr : ℤ) : Bytes := l.buffer.drop ptr.toNat

/-- `EB_LOAD(rptr, n)` -/
def load (l : Locals σ) (n : ℕ) : ℕ := decode ((l.from_ l.rptr).take n)

/-- The read pointer behind a load. -/
def loaded (l : Locals σ) (n : ℕ) : Locals σ := { l.note (.load l.rptr n) with rptr := l.rptr + n }

/-- Bytes at the write pointer, which moves behind them. -/
def store (l : Locals σ) (bytes : Bytes) : Locals σ :=
  { l.note (.store l.wptr bytes.length) with
    buffer := overwrite l.buffer l.wptr bytes
    wptr := l.wptr + bytes.length }

def withBus (l : Locals σ) (bus : Bus σ) : Locals σ := { l with bus := bus }

/-- `send(buffer, n)` -/
def send (l : Locals σ) (n : ℤ) : Locals σ :=
  { l.note (.send n) with sent := l.sent ++ [l.buffer.take n.toNat] }

/-- The unread bytes go to the front, and more are asked for. -/
def receive (l : Locals σ) (size : ℕ) : Locals σ :=
  let keep := l.eos - l.rptr
  let moved := if l.rptr ≠ 0 then
      { l.note (.move l.rptr keep) with buffer := overwrite l.buffer 0 ((l.from_ l.rptr).take keep.toNat) }
    else l
  moved.note (.recv keep (size - keep))

variable (g : Glue σ) (p : Port)

def writes (h : RecordHeader) (wconfig wfifo : Bool) : ℕ → ℕ → ℕ → ℕ → Locals σ → Locals σ
  | 0, _, _, _, l => l
  | wcount + 1, bwa, bwaB, bwaL, l =>
    let word := l.load p.alignment
    let l := l.loaded p.alignment
    let (bus, _) := perform g l.bus (writeAccess p h.select wconfig bwa bwaB bwaL word)
    writes h wconfig wfifo wcount (p.advance wfifo bwa) (p.advance wfifo bwaB) (p.advance wfifo bwaL)
      (l.withBus bus)

def reads (h : RecordHeader) (rconfig : Bool) : ℕ → Locals σ → Locals σ
  | 0, l => l
  | rcount + 1, l =>
    let ra := l.load p.alignment
    let l := l.loaded p.alignment
    let (bus, wv) := perform g l.bus (readAccess p h.select rconfig ra)
    reads h rconfig rcount ((l.withBus bus).store (encode p.alignment (replyWord p h.select wv)))

def writeHalf (h : RecordHeader) (l : Locals σ) : Locals σ :=
  if 0 < h.wcount.toNat then
    let wfifo := h.flags &&& ebRecordWFF != 0
    let wconfig := h.flags &&& ebRecordWCA != 0
    let (bwa, bwaB, bwaL) := writeBase p h.select wconfig (l.load p.alignment)
    writes g p h wconfig wfifo h.wcount.toNat bwa bwaB bwaL (l.loaded p.alignment)
  else l

def replyHead (h : RecordHeader) (l : Locals σ) : Locals σ :=
  { l.store (replyHeader p h.flags h.select l.cycleEnd h.rcount.toNat) with
    reply := true, cycleOpen := !l.cycleEnd }

/-- Echo back the base return address. -/
def replyBase (l : Locals σ) : Locals σ := (l.loaded p.alignment).store (encode p.alignment (l.load p.alignment))

def readHalf (h : RecordHeader) (l : Locals σ) : Locals σ :=
  if 0 < h.rcount.toNat then
    reads g p h (h.flags &&& ebRecordRCA != 0) h.rcount.toNat ((l.replyHead p h).replyBase p)
  else l

/-- We need to terminate the cycle. -/
def terminate (l : Locals σ) : Locals σ :=
  if l.cycleOpen && l.cycleEnd then l.store (cycleFlag l.cycleEnd :: List.replicate (p.recordAlignment - 1) 0) else l

/-- Rewind to the record header, so we keep this intact. -/
def rewind (h : RecordHeader) (l : Locals σ) : Locals σ :=
  let l := { l with rptr := l.rptr - p.recordAlignment }
  let l := if l.reply then l.send l.wptr else l
  (l.receive p.bufferSize).goto (.refill h (l.eos - l.rptr))

/-- The end of the payload loop. -/
def finish (stream : Bool) (l : Locals σ) : Locals σ :=
  let l := if l.reply then l.send l.wptr else l
  if l.cycleEnd = false then
    if stream then (l.receive p.bufferSize).goto (.resume (l.eos - l.rptr)) else l.goto .killed
  else if l.rptr ≠ l.eos then l.goto .killed
  else l.goto (.returned true)

/-- From one label of the function to the next. What `recv` gives is cut at the length it was asked for. -/
def step (stream : Bool) (l : Locals σ) (chunk : Bytes) : Locals σ :=
  match l.control with
  | .records =>
    if l.rptr ≤ l.eos - p.recordAlignment then
      let byte (i : ℕ) : UInt8 := (l.from_ l.rptr).getD i 0
      let h : RecordHeader := ⟨byte 0, byte 1, byte 2, byte 3⟩
      { l.note (.load l.rptr 4) with
        rptr := l.rptr + p.recordAlignment
        cycleEnd := h.flags &&& ebRecordCYC != 0
        control := .record h }
    else l.finish p stream
  | .record h =>
    if l.eos - l.rptr < h.total * p.alignment then
      if stream then l.rewind p h else l.goto .killed
    else (((l.writeHalf g p h).readHalf g p h).terminate p).goto .records
  | .refill h keep =>
    let got := chunk.take (p.bufferSize - keep).toNat
    if got = [] then l.goto .killed
    else
      { l with
        buffer := overwrite l.buffer keep got
        wptr := 0
        rptr := p.recordAlignment
        eos := keep + got.length
        control := .record h }
  | .resume keep =>
    let got := chunk.take (p.bufferSize - keep).toNat
    if got = [] then l.goto .killed
    else
      { l with
        buffer := overwrite l.buffer keep got
        wptr := 0
        rptr := 0
        eos := keep + got.length
        control := .records }
  | .returned _ | .killed | .undefined => l

/-- The pointers at the start of the payload. -/
def begin (header : Bool) (l : Locals σ) : Locals σ :=
  let wptr : ℤ := if header then p.headerAlignment else 0
  { l with wptr := wptr, rptr := wptr }

/-- The header of a message. The widths are those of the payload, when there is one. -/
def readHeader (socketWidths : ℕ) (c : Caller) (len : ℕ) (l : Locals σ) : Locals σ × Option ℕ :=
  let byte (i : ℕ) : UInt8 := l.buffer.getD i 0
  let l := l.note (.header 0 2)
  if byte 0 ≠ 0x4E ∨ byte 1 ≠ 0x6F ∨ len < 4 then (l.goto .killed, none)
  else
    let l := l.note (.header 2 1)
    if byte 2 &&& ebHeaderPF ≠ 0 then
      if len ≠ 8 ∨ c.active then (l.goto .killed, none)
      else
        let widths := ebWidthRefine ((byte 3).toNat &&& socketWidths)
        let buffer := overwrite l.buffer 2 [0x10 ||| ebHeaderPR ||| ebHeaderNR, UInt8.ofNat socketWidths]
        let l := ({ (l.note (.header 3 1)).note (.header 2 2) with buffer := buffer }).send 8
        (l.goto (if ebWidthPossible widths then .returned true else .killed), none)
    else if byte 2 &&& ebHeaderPR ≠ 0 then
      if len ≠ 8 ∨ c.passive then (l.goto .killed, none)
      else
        let l := l.note (.header 4 4)
        if decode ((l.buffer.drop 4).take 4) ∈ c.tags then ((l.note (.header 3 1)).goto (.returned false), none)
        else (l.goto .killed, none)
    else if byte 2 &&& 0xF0 ≠ 0x10 then (l.goto .killed, none)
    else
      let widths := ebWidthRefine ((byte 3).toNat &&& socketWidths)
      let l := l.note (.header 3 1)
      if ebWidthPossible widths = false then (l.goto .killed, none)
      else ({ l.note (.header 2 1) with buffer := overwrite l.buffer 2 [byte 2 ||| ebHeaderNR] }, some widths)

end Locals

/-- `socket->widths`: the supported widths, constrained to those of the build. -/
def ebSocketWidths (word : ℕ) (supported : UInt8) : ℕ :=
  let widths := if word < 8 then supported &&& ~~~0x88 else supported
  let widths := if word < 4 then widths &&& ~~~0x44 else widths
  widths.toNat

section Slave

variable {σ : Type} (g : Glue σ) (word socketWidths : ℕ) (c : Caller)

/-- The locals after `poll` has filled the buffer. The rest of the buffer is whatever is on the stack. -/
def polled (bus : Bus σ) (stack bytes : Bytes) : Locals σ where
  wptr := 0
  rptr := 0
  eos := bytes.length
  control := .records
  bus := { bus with error := 0 }
  buffer := bytes ++ stack.drop bytes.length
  cycleEnd := true
  cycleOpen := false
  reply := false
  sent := []
  touched := []

/-- From `poll` to the payload. -/
def ebDeviceSlaveStart (bus : Bus σ) (stack bytes : Bytes) : Locals σ × Option Port :=
  let bytes := bytes.take (wordBuffer word)
  let l := polled bus stack bytes
  if bytes.length = 0 then (l.goto (.returned false), none)
  else if bytes.length < 2 then (l.goto .killed, none)
  else
    let header := c.widths = 0
    let (l, widths) := if header then l.readHeader socketWidths c bytes.length else (l, some c.widths)
    match widths with
    | none => (l, none)
    | some widths =>
      match Port.ofWidths word widths with
      | none => (l.goto .undefined, none)
      | some p => (l.begin p header, some p)

/-- `eb_device_slave`: `poll` gives some bytes, and every `recv` a chunk. -/
def ebDeviceSlave (bus : Bus σ) (stack bytes : Bytes) (chunks : List Bytes) : Locals σ :=
  match ebDeviceSlaveStart word socketWidths c bus stack bytes with
  | (l, none) => l
  | (l, some p) => chunks.foldl (Locals.step g p c.stream) l

end Slave

/-- Requests are read and moved below the end of the data, replies end at or before the read pointer, and there is room
to receive. -/
def Touch.Fits (size : ℕ) (q : Pointers) : Touch → Prop
  | .header ptr n => 0 ≤ ptr ∧ ptr + n ≤ q.eos
  | .load ptr n => q.rptr ≤ ptr ∧ ptr + n ≤ q.eos
  | .store ptr n => q.wptr ≤ ptr ∧ ptr + n ≤ q.rptr ∧ q.rptr ≤ q.eos
  | .move src n => q.rptr ≤ src ∧ 0 ≤ n ∧ src + n ≤ q.eos
  | .send n => 0 ≤ n ∧ n ≤ q.eos
  | .recv ptr n => 0 ≤ ptr ∧ 0 < n ∧ ptr + n ≤ size

/-- The reply is behind the request, inside the buffer. -/
structure InBounds (size : ℕ) (t : Touch × Pointers) : Prop where
  wptr_nonneg : 0 ≤ t.2.wptr
  wptr_le : t.2.wptr ≤ t.2.rptr
  eos_le : t.2.eos ≤ size
  fits : t.1.Fits size t.2

namespace Locals

variable {σ : Type} {g : Glue σ} {p : Port} {size : ℕ} {l m : Locals σ} {h : RecordHeader}

/-- The pointers are in order, and have been all the time. -/
structure Ordered (size : ℕ) (l : Locals σ) : Prop where
  wptr_nonneg : 0 ≤ l.wptr
  wptr_le : l.wptr ≤ l.rptr
  eos_le : l.eos ≤ size
  touched : ∀ t ∈ l.touched, InBounds size t

/-- Some bytes have been read and some written. -/
structure Advances (l m : Locals σ) (read written : ℤ) : Prop where
  rptr : m.rptr = l.rptr + read
  wptr : m.wptr = l.wptr + written
  eos : m.eos = l.eos
  cycleEnd : m.cycleEnd = l.cycleEnd
  cycleOpen : m.cycleOpen = l.cycleOpen

theorem Advances.refl (l : Locals σ) : Advances l l 0 0 := ⟨(add_zero _).symm, (add_zero _).symm, rfl, rfl, rfl⟩

theorem Advances.trans {n : Locals σ} {r w r' w' : ℤ} (h : Advances l m r w) (h' : Advances m n r' w') :
    Advances l n (r + r') (w + w') where
  rptr := by rw [h'.rptr, h.rptr, add_assoc]
  wptr := by rw [h'.wptr, h.wptr, add_assoc]
  eos := h'.eos.trans h.eos
  cycleEnd := h'.cycleEnd.trans h.cycleEnd
  cycleOpen := h'.cycleOpen.trans h.cycleOpen

namespace Ordered

theorem note {t : Touch} (hl : l.Ordered size) (ht : t.Fits size l.toPointers) : (l.note t).Ordered size where
  wptr_nonneg := hl.wptr_nonneg
  wptr_le := hl.wptr_le
  eos_le := hl.eos_le
  touched := List.forall_mem_cons.mpr ⟨⟨hl.wptr_nonneg, hl.wptr_le, hl.eos_le, ht⟩, hl.touched⟩

theorem loaded {n : ℕ} (hl : l.Ordered size) (hn : l.rptr + n ≤ l.eos) : (l.loaded n).Ordered size where
  wptr_nonneg := hl.wptr_nonneg
  wptr_le := by
    have := hl.wptr_le
    change l.wptr ≤ l.rptr + n
    omega
  eos_le := hl.eos_le
  touched := (@note _ _ _ (.load l.rptr n) hl ⟨le_refl _, hn⟩).touched

theorem store (bytes : Bytes) (hl : l.Ordered size) (hlength : l.wptr + bytes.length ≤ l.rptr)
    (heos : l.rptr ≤ l.eos) :
    (l.store bytes).Ordered size where
  wptr_nonneg := by
    have := hl.wptr_nonneg
    change 0 ≤ l.wptr + bytes.length
    omega
  wptr_le := hlength
  eos_le := hl.eos_le
  touched := (@note _ _ _ (.store l.wptr bytes.length) hl ⟨le_refl _, hlength, heos⟩).touched

theorem send {n : ℤ} (hl : l.Ordered size) (hn : 0 ≤ n) (heos : n ≤ l.eos) : (l.send n).Ordered size where
  wptr_nonneg := hl.wptr_nonneg
  wptr_le := hl.wptr_le
  eos_le := hl.eos_le
  touched := (@note _ _ _ (.send n) hl ⟨hn, heos⟩).touched

theorem receive (hl : l.Ordered size) (hkeep : 0 ≤ l.eos - l.rptr) (hroom : l.eos - l.rptr < size) :
    (l.receive size).Ordered size := by
  have hrecv : ∀ m : Locals σ, m.Ordered size →
    (m.note (.recv (l.eos - l.rptr) (size - (l.eos - l.rptr)))).Ordered size := by
    intro m hm
    exact hm.note ⟨hkeep, by omega, by omega⟩
  rw [Locals.receive]
  apply hrecv
  split
  · have hmove := @note _ _ _ (.move l.rptr (l.eos - l.rptr)) hl ⟨le_refl _, hkeep, by omega⟩
    exact ⟨hmove.wptr_nonneg, hmove.wptr_le, hmove.eos_le, hmove.touched⟩
  · exact hl

theorem withBus (hl : l.Ordered size) (bus : Bus σ) : (l.withBus bus).Ordered size :=
  ⟨hl.wptr_nonneg, hl.wptr_le, hl.eos_le, hl.touched⟩

end Ordered

theorem withBus_advances (l : Locals σ) (bus : Bus σ) : Advances l (l.withBus bus) 0 0 :=
  ⟨(add_zero _).symm, (add_zero _).symm, rfl, rfl, rfl⟩

theorem loaded_advances (l : Locals σ) (n : ℕ) : Advances l (l.loaded n) n 0 :=
  ⟨rfl, (add_zero _).symm, rfl, rfl, rfl⟩

theorem store_advances (l : Locals σ) (bytes : Bytes) : Advances l (l.store bytes) 0 bytes.length :=
  ⟨(add_zero _).symm, rfl, rfl, rfl, rfl⟩

private theorem succ_words (n alignment : ℕ) :
    ((n + 1 : ℕ) : ℤ) * alignment = alignment + n * alignment ∧ 0 ≤ (n : ℤ) * alignment := by
  refine ⟨?_, Int.mul_nonneg (Int.natCast_nonneg n) (Int.natCast_nonneg alignment)⟩
  rw [Nat.cast_succ, add_mul, one_mul, add_comm]

/-- Words are written from the request. -/
theorem writes_ordered (h : RecordHeader) (wconfig wfifo : Bool) (wcount : ℕ) (bwa bwaB bwaL : ℕ) (l : Locals σ)
    (hl : l.Ordered size) (hn : l.rptr + wcount * p.alignment ≤ l.eos) :
    (l.writes g p h wconfig wfifo wcount bwa bwaB bwaL).Ordered size ∧
      Advances l (l.writes g p h wconfig wfifo wcount bwa bwaB bwaL) (wcount * p.alignment) 0 := by
  induction wcount generalizing l bwa bwaB bwaL with
  | zero => exact ⟨hl, by rw [Nat.cast_zero, zero_mul]; exact .refl l⟩
  | succ wcount ih =>
    obtain ⟨hsucc, hpos⟩ := succ_words wcount p.alignment
    rw [hsucc] at hn ⊢
    have hload := hl.loaded (n := p.alignment) (by omega)
    have hadvance := (loaded_advances l p.alignment).trans (withBus_advances (l.loaded p.alignment)
      (perform g l.bus (writeAccess p h.select wconfig bwa bwaB bwaL (l.load p.alignment))).1)
    obtain ⟨hordered, hrest⟩ :=
      ih (p.advance wfifo bwa) (p.advance wfifo bwaB) (p.advance wfifo bwaL) _ (hload.withBus _) (by
      rw [hadvance.rptr, hadvance.eos]
      omega)
    have hall := hadvance.trans hrest
    rw [add_zero, add_zero] at hall
    exact ⟨hordered, hall⟩

/-- A word of a reply takes the place of a word of the request. -/
theorem turn_ordered (hl : l.Ordered size) (hn : l.rptr + p.alignment ≤ l.eos) (bus : Bus σ) (value : ℕ) :
    (((l.loaded p.alignment).withBus bus).store (encode p.alignment value)).Ordered size ∧
      Advances l (((l.loaded p.alignment).withBus bus).store (encode p.alignment value)) p.alignment p.alignment := by
  have hload := hl.loaded hn
  have hadvance := (loaded_advances l p.alignment).trans (withBus_advances (l.loaded p.alignment) bus)
  have hlength := length_encode p.alignment value
  have hwptr := hl.wptr_le
  have hstore := (hload.withBus bus).store (encode p.alignment value)
    (by
      rw [hlength, hadvance.wptr, hadvance.rptr]
      omega)
    (by
      rw [hadvance.rptr, hadvance.eos]
      omega)
  have hall := hadvance.trans (store_advances _ (encode p.alignment value))
  rw [hlength, add_zero, add_zero, add_zero, zero_add] at hall
  exact ⟨hstore, hall⟩

theorem reads_ordered (h : RecordHeader) (rconfig : Bool) (rcount : ℕ) (l : Locals σ) (hl : l.Ordered size)
    (hn : l.rptr + rcount * p.alignment ≤ l.eos) :
    (l.reads g p h rconfig rcount).Ordered size ∧
      Advances l (l.reads g p h rconfig rcount) (rcount * p.alignment) (rcount * p.alignment) := by
  induction rcount generalizing l with
  | zero => exact ⟨hl, by rw [Nat.cast_zero, zero_mul]; exact .refl l⟩
  | succ rcount ih =>
    obtain ⟨hsucc, hpos⟩ := succ_words rcount p.alignment
    rw [hsucc] at hn ⊢
    obtain ⟨hturn, hadvance⟩ := turn_ordered (p := p) hl (by omega)
      (perform g l.bus (readAccess p h.select rconfig (l.load p.alignment))).1
      (replyWord p h.select (perform g l.bus (readAccess p h.select rconfig (l.load p.alignment))).2)
    obtain ⟨hordered, hrest⟩ := ih _ hturn (by
      rw [hadvance.rptr, hadvance.eos]
      omega)
    exact ⟨hordered, hadvance.trans hrest⟩

/-- The words of half a record, with their address. -/
def half (p : Port) (count : UInt8) : ℤ := (count.toNat + if 0 < count.toNat then 1 else 0 : ℕ) * p.alignment

theorem half_of_pos {count : UInt8} (hcount : 0 < count.toNat) :
    half p count = p.alignment + count.toNat * p.alignment := by
  rw [half, if_pos hcount, (succ_words _ _).1]

theorem half_nonneg (count : UInt8) : 0 ≤ half p count :=
  Int.mul_nonneg (Int.natCast_nonneg _) (Int.natCast_nonneg _)

theorem total_eq (h : RecordHeader) : (h.total : ℤ) * p.alignment = half p h.wcount + half p h.rcount := by
  rw [half, half, ← add_mul, ← Nat.cast_add]
  congr 2
  simp only [RecordHeader.total]
  omega

/-- The words of a record always fit behind its header. -/
theorem total_lt (h : RecordHeader) : (h.total : ℤ) * p.alignment + p.recordAlignment ≤ p.bufferSize := by
  have htotal : h.total ≤ 512 := by
    have hw := h.wcount.toNat_lt
    have hr := h.rcount.toNat_lt
    simp only [RecordHeader.total]
    split <;> split <;> omega
  have hmul := Nat.mul_le_mul_right p.alignment htotal
  have hfits := p.record_fits
  rw [← Nat.cast_mul]
  omega

theorem writeHalf_ordered (h : RecordHeader) (hl : l.Ordered size) (hn : l.rptr + half p h.wcount ≤ l.eos) :
    (l.writeHalf g p h).Ordered size ∧ Advances l (l.writeHalf g p h) (half p h.wcount) 0 := by
  rw [writeHalf]
  split
  · rename_i hcount
    rw [half_of_pos hcount] at hn ⊢
    have hpos := (succ_words h.wcount.toNat p.alignment).2
    have hload := hl.loaded (n := p.alignment) (by omega)
    have hadvance := loaded_advances l p.alignment
    obtain ⟨hordered, hrest⟩ :=
      writes_ordered (g := g) (p := p) h (h.flags &&& ebRecordWCA != 0) (h.flags &&& ebRecordWFF != 0)
      h.wcount.toNat (writeBase p h.select (h.flags &&& ebRecordWCA != 0) (l.load p.alignment)).1
      (writeBase p h.select (h.flags &&& ebRecordWCA != 0) (l.load p.alignment)).2.1
      (writeBase p h.select (h.flags &&& ebRecordWCA != 0) (l.load p.alignment)).2.2 (l.loaded p.alignment) hload (by
        rw [hadvance.rptr, hadvance.eos]
        omega)
    have hall := hadvance.trans hrest
    rw [add_zero] at hall
    exact ⟨hordered, hall⟩
  · rename_i hcount
    rw [half, if_neg hcount, show h.wcount.toNat + 0 = 0 by omega, Nat.cast_zero, zero_mul]
    exact ⟨hl, .refl l⟩

theorem replyHead_ordered (h : RecordHeader) (hl : l.Ordered size) (hheader : l.wptr + p.recordAlignment ≤ l.rptr)
    (heos : l.rptr ≤ l.eos) :
    (l.replyHead p h).Ordered size ∧ (l.replyHead p h).wptr = l.wptr + p.recordAlignment := by
  have hlength : (replyHeader p h.flags h.select l.cycleEnd h.rcount.toNat).length = p.recordAlignment := by
    have := p.recordAlignment_mem
    simp only [replyHeader, List.length_append, List.length_cons, List.length_nil, List.length_replicate]
    omega
  have hstore := hl.store (replyHeader p h.flags h.select l.cycleEnd h.rcount.toNat) (by omega) heos
  refine ⟨⟨hstore.wptr_nonneg, hstore.wptr_le, hstore.eos_le, hstore.touched⟩, ?_⟩
  rw [← hlength]
  rfl

/-- The reply to a record has no more bytes than the record, and when it has bytes no terminator follows. -/
theorem readHalf_ordered (h : RecordHeader) (hl : l.Ordered size) (hheader : l.wptr + p.recordAlignment ≤ l.rptr)
    (hn : l.rptr + half p h.rcount ≤ l.eos) :
    (l.readHalf g p h).Ordered size ∧ (l.readHalf g p h).rptr = l.rptr + half p h.rcount ∧
      (l.readHalf g p h).eos = l.eos ∧
      ((l.readHalf g p h).cycleOpen = true → (l.readHalf g p h).cycleEnd = true →
        (l.readHalf g p h).wptr + p.recordAlignment ≤ (l.readHalf g p h).rptr) := by
  rw [readHalf]
  split
  · rename_i hcount
    rw [half_of_pos hcount] at hn ⊢
    have hpos := (succ_words h.rcount.toNat p.alignment).2
    obtain ⟨hhead, hwptr⟩ := replyHead_ordered h hl hheader (by omega)
    have hrptr : (l.replyHead p h).rptr = l.rptr := rfl
    have heos : (l.replyHead p h).eos = l.eos := rfl
    obtain ⟨hbase, hadvance⟩ := turn_ordered (p := p) hhead (by omega) (l.replyHead p h).bus
      ((l.replyHead p h).load p.alignment)
    obtain ⟨hordered, hrest⟩ :=
      reads_ordered (g := g) (p := p) h (h.flags &&& ebRecordRCA != 0) h.rcount.toNat _ hbase (by
      rw [hadvance.rptr, hadvance.eos]
      omega)
    have hall := hadvance.trans hrest
    refine ⟨hordered, hall.rptr.trans ?_, hall.eos, ?_⟩
    · rw [hrptr]
    · intro hopen hend
      have hclosed : (l.replyHead p h).cycleOpen = !l.cycleEnd := rfl
      have hopen' := hall.cycleOpen.symm.trans hopen
      have hend' : l.cycleEnd = true := hall.cycleEnd.symm.trans hend
      rw [hclosed, hend'] at hopen'
      exact absurd hopen' Bool.false_ne_true
  · rename_i hcount
    have hzero : half p h.rcount = 0 := by
      rw [half, if_neg hcount, show h.rcount.toNat + 0 = 0 by omega, Nat.cast_zero, zero_mul]
    rw [hzero, add_zero]
    exact ⟨hl, rfl, rfl, fun _ _ => hheader⟩

theorem terminate_ordered (hl : l.Ordered size) (heos : l.rptr ≤ l.eos)
    (hroom : l.cycleOpen = true → l.cycleEnd = true → l.wptr + p.recordAlignment ≤ l.rptr) :
    (l.terminate p).Ordered size ∧ (l.terminate p).rptr = l.rptr ∧ (l.terminate p).eos = l.eos := by
  rw [terminate]
  split
  · rename_i hopen
    rw [Bool.and_eq_true] at hopen
    have hlength : (cycleFlag l.cycleEnd :: List.replicate (p.recordAlignment - 1) 0).length = p.recordAlignment := by
      have := p.recordAlignment_mem
      rw [List.length_cons, List.length_replicate]
      omega
    exact ⟨hl.store _ (by rw [hlength]; exact hroom hopen.1 hopen.2) heos, rfl, rfl⟩
  · exact ⟨hl, rfl, rfl⟩

/-- The body of a record that is complete. -/
theorem body_ordered (h : RecordHeader) (hl : l.Ordered size) (hheader : l.wptr + p.recordAlignment ≤ l.rptr)
    (hn : h.total * p.alignment ≤ l.eos - l.rptr) :
    (((l.writeHalf g p h).readHalf g p h).terminate p).Ordered size ∧
      (((l.writeHalf g p h).readHalf g p h).terminate p).rptr ≤ (((l.writeHalf g p h).readHalf g p h).terminate p).eos := by
  rw [total_eq] at hn
  have hpos := half_nonneg (p := p) h.rcount
  have hpos' := half_nonneg (p := p) h.wcount
  obtain ⟨hwrites, hadvance⟩ := writeHalf_ordered (g := g) (p := p) h hl (by omega)
  have hrptr := hadvance.rptr
  have hwptr := hadvance.wptr
  have heos := hadvance.eos
  obtain ⟨hreads, hreads_rptr, hreads_eos, hroom⟩ :=
    readHalf_ordered (g := g) (p := p) h hwrites (by omega) (by omega)
  obtain ⟨hterminate, hend_rptr, hend_eos⟩ := terminate_ordered hreads (by omega) hroom
  exact ⟨hterminate, by omega⟩

/-- What holds of the pointers at each label. -/
def AtLabel (p : Port) (l : Locals σ) : Prop :=
  match l.control with
  | .records => l.rptr ≤ l.eos ∨ l.reply = false ∧ l.cycleEnd = true
  | .record _ => l.wptr + p.recordAlignment ≤ l.rptr ∧ l.rptr ≤ l.eos
  | .refill _ keep => p.recordAlignment ≤ keep ∧ keep ≤ p.bufferSize
  | .resume keep => 0 ≤ keep ∧ keep ≤ p.bufferSize
  | .undefined => False
  | .returned _ | .killed => True

/-- The invariant of the function. -/
structure Sound (p : Port) (l : Locals σ) : Prop where
  ordered : l.Ordered p.bufferSize
  atLabel : l.AtLabel p

theorem Ordered.goto (hl : l.Ordered size) (control : Control) : (l.goto control).Ordered size :=
  ⟨hl.wptr_nonneg, hl.wptr_le, hl.eos_le, hl.touched⟩

theorem transmit_ordered (hl : l.Ordered size) (heos : l.reply = true → l.rptr ≤ l.eos) :
    (if l.reply then l.send l.wptr else l).Ordered size := by
  split
  · rename_i hreply
    exact hl.send hl.wptr_nonneg (hl.wptr_le.trans (heos hreply))
  · exact hl

/-- What `recv` gives fits the buffer. -/
theorem received_ordered (hl : l.Ordered size) (chunk buffer : Bytes) {keep rptr : ℤ} (control : Control)
    (hrptr : 0 ≤ rptr) (hroom : keep ≤ size) :
    ({ l with
        buffer := buffer
        wptr := 0
        rptr := rptr
        eos := keep + (chunk.take (size - keep).toNat).length
        control := control } : Locals σ).Ordered size where
  wptr_nonneg := le_refl _
  wptr_le := hrptr
  eos_le := by
    have := List.length_take_le (size - keep).toNat chunk
    change keep + ((chunk.take (size - keep).toNat).length : ℤ) ≤ size
    omega
  touched := hl.touched

theorem transmit_eq (l : Locals σ) :
    (if l.reply then l.send l.wptr else l).toPointers = l.toPointers ∧
      (if l.reply then l.send l.wptr else l).cycleEnd = l.cycleEnd := by
  split <;> exact ⟨rfl, rfl⟩

theorem finish_sound (stream : Bool) (hl : l.Ordered p.bufferSize)
    (hloop : l.rptr ≤ l.eos ∨ l.reply = false ∧ l.cycleEnd = true)
    (hend : ¬ l.rptr ≤ l.eos - p.recordAlignment) : (l.finish p stream).Sound p := by
  have hfits := p.record_fits
  have hsend := transmit_ordered hl fun hreply => hloop.elim id fun h =>
    absurd (h.1.symm.trans hreply) Bool.false_ne_true
  obtain ⟨hpointers, hcycleEnd⟩ := transmit_eq l
  rw [finish]
  generalize (if l.reply then l.send l.wptr else l) = m at hsend hpointers hcycleEnd
  have hrptr : m.rptr = l.rptr := congrArg Pointers.rptr hpointers
  have heos : m.eos = l.eos := congrArg Pointers.eos hpointers
  split
  · rename_i hopen
    cases stream with
    | true =>
      have hle : l.rptr ≤ l.eos := by
        apply hloop.elim id
        intro h
        rw [← hcycleEnd, hopen] at h
        exact absurd h.2 Bool.false_ne_true
      exact ⟨(hsend.receive (by omega) (by omega)).goto _, ⟨by omega, by omega⟩⟩
    | false => exact ⟨hsend.goto _, trivial⟩
  · split
    · exact ⟨hsend.goto _, trivial⟩
    · exact ⟨hsend.goto _, trivial⟩

/-- An incomplete record leaves room for its rest. -/
theorem rewind_sound (h : RecordHeader) (hl : l.Ordered p.bufferSize)
    (hheader : l.wptr + p.recordAlignment ≤ l.rptr)
    (heos : l.rptr ≤ l.eos) (hincomplete : l.eos - l.rptr < h.total * p.alignment) : (l.rewind p h).Sound p := by
  have hfits := total_lt (p := p) h
  have hrewind : ({ l with rptr := l.rptr - p.recordAlignment } : Locals σ).Ordered p.bufferSize :=
    ⟨hl.wptr_nonneg, by
      change l.wptr ≤ l.rptr - p.recordAlignment
      omega, hl.eos_le, hl.touched⟩
  have hsend := transmit_ordered hrewind fun _ => by
    change l.rptr - p.recordAlignment ≤ l.eos
    omega
  obtain ⟨hpointers, -⟩ := transmit_eq { l with rptr := l.rptr - p.recordAlignment }
  rw [rewind]
  dsimp only at hsend hpointers ⊢
  generalize (if l.reply then
    ({ l with rptr := l.rptr - p.recordAlignment } : Locals σ).send l.wptr
    else { l with rptr := l.rptr - p.recordAlignment }) = m at hsend hpointers
  have hrptr : m.rptr = l.rptr - p.recordAlignment := by rw [hpointers]
  have hmeos : m.eos = l.eos := by rw [hpointers]
  exact ⟨(hsend.receive (by omega) (by omega)).goto _, ⟨by omega, by omega⟩⟩

/-- The invariant is kept from label to label. -/
theorem step_sound (stream : Bool) (hl : l.Sound p) (chunk : Bytes) : (l.step g p stream chunk).Sound p := by
  obtain ⟨hordered, hat⟩ := hl
  have hnonneg := hordered.wptr_nonneg
  have hwptr := hordered.wptr_le
  have hfits := p.record_fits
  rw [AtLabel] at hat
  rw [step]
  cases hcontrol : l.control with
  | records =>
    rw [hcontrol] at hat
    dsimp only at hat ⊢
    split
    · rename_i hheader
      have hnote := hordered.note (t := .load l.rptr 4) ⟨le_refl _, by
        have := p.recordAlignment_mem
        omega⟩
      refine ⟨⟨hnonneg, ?_, hnote.eos_le, hnote.touched⟩, ?_, ?_⟩
      · change l.wptr ≤ l.rptr + p.recordAlignment
        omega
      · change l.wptr + p.recordAlignment ≤ l.rptr + p.recordAlignment
        omega
      · change l.rptr + p.recordAlignment ≤ l.eos
        omega
    · rename_i hend
      exact finish_sound stream hordered hat hend
  | record h =>
    rw [hcontrol] at hat
    dsimp only at hat ⊢
    split
    · rename_i hincomplete
      cases stream with
      | true => exact rewind_sound h hordered hat.1 hat.2 hincomplete
      | false => exact ⟨hordered.goto _, trivial⟩
    · rename_i hcomplete
      obtain ⟨hbody, hle⟩ := body_ordered (g := g) h hordered hat.1 (by omega)
      exact ⟨hbody.goto _, .inl hle⟩
  | refill h keep =>
    rw [hcontrol] at hat
    dsimp only at hat ⊢
    split
    · exact ⟨hordered.goto _, trivial⟩
    · refine ⟨received_ordered hordered chunk _ _ (Int.natCast_nonneg _) hat.2, ?_, ?_⟩
      · exact le_of_eq (zero_add _)
      · exact hat.1.trans (le_add_of_nonneg_right (Int.natCast_nonneg _))
  | resume keep =>
    rw [hcontrol] at hat
    dsimp only at hat ⊢
    split
    · exact ⟨hordered.goto _, trivial⟩
    · refine ⟨received_ordered hordered chunk _ _ (le_refl _) hat.2, .inl ?_⟩
      exact hat.1.trans (le_add_of_nonneg_right (Int.natCast_nonneg _))
  | returned again => exact ⟨hordered, by rw [AtLabel, hcontrol]; trivial⟩
  | killed => exact ⟨hordered, by rw [AtLabel, hcontrol]; trivial⟩
  | undefined =>
    rw [hcontrol] at hat
    exact hat.elim

/-- The invariant is kept by every run, however the stream is cut. -/
theorem run_sound (stream : Bool) (hl : l.Sound p) (chunks : List Bytes) :
    (chunks.foldl (Locals.step g p stream) l).Sound p := by
  induction chunks generalizing l with
  | nil => exact hl
  | cons chunk chunks ih => exact ih (step_sound stream hl chunk)

end Locals

section Start

variable {σ : Type} {word : ℕ} {supported : UInt8}

private theorem build_sizes : ∀ word, word = 2 ∨ word = 4 ∨ word = 8 → ∀ widths < 256,
    ebWidthRefined widths = true →
    widths &&& ebSocketWidths word 0xFF = widths →
    IsSize (widths >>> 4) ∧ IsSize (widths &&& ebDataX) ∧ widths >>> 4 ≤ word ∧ widths &&& ebDataX ≤ word := by
  intro word hword
  rcases hword with rfl | rfl | rfl <;> decide +kernel

theorem ebSocketWidths_eq (hword : word = 2 ∨ word = 4 ∨ word = 8) (supported : UInt8) :
    ebSocketWidths word supported = supported.toNat &&& ebSocketWidths word 0xFF := by
  have hmask : ∀ cap : UInt8, supported.toNat &&& cap.toNat = (supported &&& cap).toNat :=
    fun cap => (UInt8.toNat_and ..).symm
  rcases hword with rfl | rfl | rfl
  · exact (congrArg UInt8.toNat (UInt8.and_assoc ..)).trans (hmask _).symm
  · exact (hmask _).symm
  · exact (Nat.and_two_pow_sub_one_of_lt_two_pow (n := 8) supported.toNat_lt).symm

/-- Every width that a socket admits is a port of the build. -/
theorem ofWidths_admitted (supported : UInt8) (hword : word = 2 ∨ word = 4 ∨ word = 8)
    {widths : ℕ} (hrefined : ebWidthRefined widths = true)
    (hsocket : widths &&& ebSocketWidths word supported = widths) :
    ∃ p, Port.ofWidths word widths = some p ∧ p.bufferSize = wordBuffer word := by
  have hlt : widths < 256 := by
    rw [← hsocket]
    exact Nat.lt_of_le_of_lt Nat.and_le_right (UInt8.toNat_lt _)
  have hbuild : widths &&& ebSocketWidths word 0xFF = widths := by
    rw [ebSocketWidths_eq hword, ← Nat.land_assoc] at hsocket
    rw [← hsocket, Nat.land_assoc, Nat.and_self]
  rw [Port.ofWidths, dif_pos ⟨hword, build_sizes word hword widths hlt hrefined hbuild⟩]
  exact ⟨_, rfl, rfl⟩

theorem ofWidths_refine (hword : word = 2 ∨ word = 4 ∨ word = 8) (mask : UInt8)
    (hpossible : ebWidthPossible (ebWidthRefine (mask.toNat &&& ebSocketWidths word supported)) = true) :
    ∃ p, Port.ofWidths word (ebWidthRefine (mask.toNat &&& ebSocketWidths word supported)) = some p ∧
      p.bufferSize = wordBuffer word := by
  have hlt : mask.toNat &&& ebSocketWidths word supported < 256 :=
    Nat.lt_of_le_of_lt Nat.and_le_left (UInt8.toNat_lt _)
  have hsub := ebWidthRefine_and _ hlt
  apply ofWidths_admitted supported hword
  · rw [ebWidthRefined_refine _ hlt, ← ebWidthPossible_refine _ hlt]
    exact hpossible
  · rw [← hsub, Nat.land_assoc, Nat.land_assoc, Nat.and_self]

/-- What is left of the header: nothing to work on, or widths that the socket admits. -/
structure Locals.Headed (size socketWidths : ℕ) (r : Locals σ × Option ℕ) : Prop where
  ordered : r.1.Ordered size
  control : r.1.control ≠ .undefined
  payload : ∀ widths, r.2 = some widths → r.1.control = .records ∧ r.1.reply = false ∧ r.1.cycleEnd = true ∧
    ∃ mask : UInt8, widths = ebWidthRefine (mask.toNat &&& socketWidths) ∧ ebWidthPossible widths = true

theorem Locals.Ordered.left {size socketWidths : ℕ} {l : Locals σ} (hl : l.Ordered size) {control : Control}
    (hcontrol : control ≠ .undefined) : Locals.Headed size socketWidths (l.goto control, none) :=
  ⟨hl.goto control, hcontrol, fun _ h => absurd h (Option.some_ne_none _).symm⟩

theorem readHeader_headed (socketWidths : ℕ) (c : Caller) {size len : ℕ} {l : Locals σ} (hl : l.Ordered size)
    (hlen : l.eos = len) (hpoll : 2 ≤ len) (hcontrol : l.control = .records) (hreply : l.reply = false)
    (hcycleEnd : l.cycleEnd = true) : Locals.Headed size socketWidths (l.readHeader socketWidths c len) := by
  have hheader : ∀ {m : Locals σ}, m.Ordered size → m.eos = len → ∀ ptr n : ℕ, ptr + n ≤ len →
      (m.note (.header ptr n)).Ordered size := by
    intro m hm heos ptr n hle
    exact hm.note ⟨Int.natCast_nonneg _, by omega⟩
  have hmagic := hheader hl hlen 0 2 (by omega)
  rw [Locals.readHeader]
  dsimp only
  split
  · exact hmagic.left (by decide)
  · rename_i hlong
    have h4 : 4 ≤ len := by omega
    have hversion := hheader hmagic hlen 2 1 (by omega)
    split
    · split
      · exact hversion.left (by decide)
      · rename_i hprobe
        have h8 : len = 8 := by
          by_contra hne
          exact hprobe (.inl hne)
        have hwidths := hheader (hheader hversion hlen 3 1 (by omega)) hlen 2 2 (by omega)
        apply Locals.Ordered.left
        · apply Locals.Ordered.send _ (by omega)
          · change 8 ≤ l.eos
            omega
          · exact ⟨hwidths.wptr_nonneg, hwidths.wptr_le, hwidths.eos_le, hwidths.touched⟩
        · split <;> decide
    · split
      · split
        · exact hversion.left (by decide)
        · rename_i hresponse
          have h8 : len = 8 := by
            by_contra hne
            exact hresponse (.inl hne)
          have htag := hheader hversion hlen 4 4 (by omega)
          split
          · exact (hheader htag hlen 3 1 (by omega)).left (by decide)
          · exact htag.left (by decide)
      · split
        · exact hversion.left (by decide)
        · have hwidths := hheader hversion hlen 3 1 (by omega)
          split
          · exact hwidths.left (by decide)
          · rename_i hpossible
            have hflags := hheader hwidths hlen 2 1 (by omega)
            refine ⟨⟨hflags.wptr_nonneg, hflags.wptr_le, hflags.eos_le, hflags.touched⟩, ?_, ?_⟩
            · change l.control ≠ .undefined
              rw [hcontrol]
              decide
            · intro widths hw
              cases hw
              exact ⟨hcontrol, hreply, hcycleEnd, _, rfl, by simpa using hpossible⟩

/-- The function has returned, or the payload starts with the pointers in order on a port of the build. -/
structure Started (word : ℕ) (r : Locals σ × Option Port) : Prop where
  ordered : r.1.Ordered (wordBuffer word)
  control : r.1.control ≠ .undefined
  sound : ∀ p, r.2 = some p → p.bufferSize = wordBuffer word ∧ r.1.Sound p

theorem Locals.Ordered.started {l : Locals σ} (hl : l.Ordered (wordBuffer word))
    (hcontrol : l.control ≠ .undefined) :
    Started word (l, none) :=
  ⟨hl, hcontrol, fun _ h => absurd h (Option.some_ne_none _).symm⟩

theorem begin_started {p : Port} {l : Locals σ} (hl : l.Ordered (wordBuffer word))
    (hp : p.bufferSize = wordBuffer word)
    (hcontrol : l.control = .records) (hreply : l.reply = false) (hcycleEnd : l.cycleEnd = true) (header : Bool) :
    Started word (l.begin p header, some p) := by
  have hcontrol' : (l.begin p header).control = .records := hcontrol
  have hordered : (l.begin p header).Ordered (wordBuffer word) := by
    refine ⟨?_, le_refl _, hl.eos_le, hl.touched⟩
    change 0 ≤ if header then (p.headerAlignment : ℤ) else 0
    split
    · exact Int.natCast_nonneg _
    · exact le_refl _
  refine ⟨hordered, by rw [hcontrol']; decide, ?_⟩
  intro q hq
  cases hq
  refine ⟨hp, hp ▸ hordered, ?_⟩
  rw [Locals.AtLabel, hcontrol']
  exact .inr ⟨hreply, hcycleEnd⟩

theorem polled_ordered {size : ℕ} (bus : Bus σ) (stack : Bytes) {bytes : Bytes} (hbytes : bytes.length ≤ size) :
    (polled bus stack bytes).Ordered size :=
  ⟨le_refl _, le_refl _, Int.ofNat_le.mpr hbytes, fun _ ht => absurd ht List.not_mem_nil⟩

theorem start_sound (hword : word = 2 ∨ word = 4 ∨ word = 8) {c : Caller}
    (hc : c.Admitted (ebSocketWidths word supported))
    (bus : Bus σ) (stack bytes : Bytes) :
    Started word (ebDeviceSlaveStart word (ebSocketWidths word supported) c bus stack bytes) := by
  have hpolled := polled_ordered bus stack (List.length_take_le (wordBuffer word) bytes)
  rw [ebDeviceSlaveStart]
  dsimp only
  split
  · exact (hpolled.goto _).started (by simp [Locals.goto])
  · split
    · exact (hpolled.goto _).started (by simp [Locals.goto])
    · rename_i hempty hlong
      by_cases hheader : c.widths = 0
      · have hhead := readHeader_headed (ebSocketWidths word supported) c hpolled rfl
          (Nat.le_of_not_lt hlong) rfl rfl rfl
        rw [if_pos hheader]
        revert hhead
        generalize Locals.readHeader (ebSocketWidths word supported) c _ _ = r
        intro hhead
        obtain ⟨l, widths⟩ := r
        cases widths with
        | none => exact hhead.ordered.started hhead.control
        | some widths =>
          obtain ⟨hcontrol, hreply, hcycleEnd, mask, rfl, hpossible⟩ := hhead.payload widths rfl
          obtain ⟨p, hport, hp⟩ := ofWidths_refine hword mask hpossible
          dsimp only
          rw [hport]
          exact begin_started hhead.ordered hp hcontrol hreply hcycleEnd _
      · rw [if_neg hheader]
        obtain ⟨hrefined, hsocket⟩ := hc.resolve_left hheader
        obtain ⟨p, hport, hp⟩ := ofWidths_admitted supported hword hrefined hsocket
        dsimp only
        rw [hport]
        exact begin_started hpolled hp rfl rfl rfl _

/-- Whatever is received, in whatever pieces, the reply stays behind the request and inside the data, and every
`recv` has room. -/
theorem reply_behind_request (g : Glue σ) (hword : word = 2 ∨ word = 4 ∨ word = 8) (supported : UInt8) {c : Caller}
    (hc : c.Admitted (ebSocketWidths word supported)) (bus : Bus σ) (stack bytes : Bytes) (chunks : List Bytes) :
    (ebDeviceSlave g word (ebSocketWidths word supported) c bus stack bytes chunks).control ≠ .undefined ∧
      ∀ t ∈ (ebDeviceSlave g word (ebSocketWidths word supported) c bus stack bytes chunks).touched,
        InBounds (wordBuffer word) t := by
  have hstart := start_sound hword hc bus stack bytes
  rw [ebDeviceSlave]
  generalize ebDeviceSlaveStart word (ebSocketWidths word supported) c bus stack bytes = r at hstart
  obtain ⟨l, port⟩ := r
  cases port with
  | none => exact ⟨hstart.control, hstart.ordered.touched⟩
  | some p =>
    obtain ⟨hp, hsound⟩ := hstart.sound p rfl
    have hrun := Locals.run_sound (g := g) c.stream hsound chunks
    refine ⟨?_, hp ▸ hrun.ordered.touched⟩
    intro hundefined
    have hat := hrun.atLabel
    rw [Locals.AtLabel, hundefined] at hat
    exact hat

end Start

namespace Sample

/-- A device that was opened from the other side, with 16-bit widths. -/
def passiveCaller : Caller := ⟨true, some (0x22, true), []⟩

/-- A record with two reads comes in three pieces. -/
theorem cutReads_inBounds :
    (ebDeviceSlave glue 4 (ebSocketWidths 4 0xFF) passiveCaller ⟨(), 0, []⟩ [] [0xA8, 0x03, 0, 2, 0x80]
        [[], [], [0, 0x40, 0], [], [0x40, 0x02], [], []]).control ≠ .undefined ∧
      ∀ t ∈ (ebDeviceSlave glue 4 (ebSocketWidths 4 0xFF) passiveCaller ⟨(), 0, []⟩ [] [0xA8, 0x03, 0, 2, 0x80]
        [[], [], [0, 0x40, 0], [], [0x40, 0x02], [], []]).touched, InBounds (wordBuffer 4) t :=
  reply_behind_request glue (by decide) 0xFF (.inr ⟨by decide, by decide⟩) ⟨(), 0, []⟩ [] [0xA8, 0x03, 0, 2, 0x80]
    [[], [], [0, 0x40, 0], [], [0x40, 0x02], [], []]

example : (ebDeviceSlave glue 4 (ebSocketWidths 4 0xFF) passiveCaller ⟨(), 0, []⟩ [] [0xA8, 0x03, 0, 2, 0x80]
    [[], [], [0, 0x40, 0], [], [0x40, 0x02], [], []]).control = .returned true := by decide

end Sample

end WhiteRabbit.Etherbone
