import WhiteRabbit.BusOperations
import WhiteRabbit.RecordFormat

/-!
# What a record asks for

A record stands for a list of accesses: its writes, then its reads. Every access carries the
arguments the bus or config space is called with. An operation of the queue stands for one
access as well, and the encoder is right when both lists agree.
-/

namespace WhiteRabbit.Etherbone
open AlignedMasks

/-- The access requested by one word. Without valid select lines nothing is called. -/
inductive Access where
  | write (widths addrB addrL value : ℕ)
  | read (widths addrB addrL : ℕ)
  | writeConfig (widths addr value : ℕ)
  | readConfig (widths addr : ℕ)
  | badWrite
  | badRead
  | badWriteConfig
  | badReadConfig
  deriving DecidableEq

/-- Whether the access is on the bus, so that it shifts the error register. -/
def Access.isBus : Access → Bool
  | .write .. | .read .. | .badWrite | .badRead => true
  | .writeConfig .. | .readConfig .. | .badWriteConfig | .badReadConfig => false

/-- Only these bits of incoming addresses are processed. -/
def Port.addressFilter (p : Port) : ℕ := p.addressMask - (p.data - 1)

/-- The access width passed to handlers: the operation size under the address size. -/
def Port.opWidths (p : Port) (size : ℕ) : ℕ := size ||| p.addr <<< 4

/-- One turn of the write loop. -/
def writeAccess (p : Port) (select : UInt8) (wconfig : Bool) (bwa bwaB bwaL word : ℕ) : Access :=
  let sel := decodeSelect p.data select
  let wv := (word >>> (sel.opShift <<< 3)) &&& p.dataMask sel.opWidth
  if wconfig then
    if sel.ok then .writeConfig (p.opWidths sel.opWidth) bwa wv else .badWriteConfig
  else
    if sel.ok then .write (p.opWidths sel.opWidth) bwaB bwaL wv else .badWrite

/-- One turn of the read loop. -/
def readAccess (p : Port) (select : UInt8) (rconfig : Bool) (word : ℕ) : Access :=
  let sel := decodeSelect p.data select
  let ra := word &&& p.addressFilter
  let raB := ra ||| (p.data - (sel.opShift + sel.opWidth))
  let raL := ra ||| sel.opShift
  if rconfig then
    if sel.ok then .readConfig (p.opWidths sel.opWidth) raB else .badReadConfig
  else
    if sel.ok then .read (p.opWidths sel.opWidth) raB raL else .badRead

/-- `bwa += stride` on an `eb_address_t`, skipped in a FIFO. -/
def Port.advance (p : Port) (fifo : Bool) (bwa : ℕ) : ℕ :=
  if fifo then bwa else (bwa + p.stride) % 256 ^ p.word

def writeAccesses (p : Port) (select : UInt8) (wconfig wfifo : Bool) :
    ℕ → ℕ → ℕ → List ℕ → List Access
  | _, _, _, [] => []
  | bwa, bwaB, bwaL, word :: words =>
    writeAccess p select wconfig bwa bwaB bwaL word ::
      writeAccesses p select wconfig wfifo (p.advance wfifo bwa) (p.advance wfifo bwaB)
        (p.advance wfifo bwaL) words

/-- The three running addresses of a write loop at its start. -/
def writeBase (p : Port) (select : UInt8) (wconfig : Bool) (bwa : ℕ) : ℕ × ℕ × ℕ :=
  if wconfig then (bwa, 0, 0)
  else
    let sel := decodeSelect p.data select
    let bwa := bwa &&& p.addressFilter
    (bwa, bwa ||| (p.data - (sel.opShift + sel.opWidth)), bwa ||| sel.opShift)

namespace Record

def wconfig (r : Record) : Bool := r.flags &&& ebRecordWCA != 0
def wfifo (r : Record) : Bool := r.flags &&& ebRecordWFF != 0
def rconfig (r : Record) : Bool := r.flags &&& ebRecordRCA != 0
def bconfig (r : Record) : Bool := r.flags &&& ebRecordBCA != 0
def rfifo (r : Record) : Bool := r.flags &&& ebRecordRFF != 0

def writeList (p : Port) (r : Record) : List Access :=
  let (bwa, bwaB, bwaL) := writeBase p r.select r.wconfig r.base
  writeAccesses p r.select r.wconfig r.wfifo bwa bwaB bwaL r.writes

def readList (p : Port) (r : Record) : List Access :=
  r.reads.map (readAccess p r.select r.rconfig)

def accesses (p : Port) (r : Record) : List Access := r.writeList p ++ r.readList p

end Record

def recordAccesses (p : Port) (rs : List Record) : List Access := rs.flatMap (Record.accesses p)

@[simp] theorem recordAccesses_nil (p : Port) : recordAccesses p [] = [] := rfl

@[simp] theorem recordAccesses_cons (p : Port) (r : Record) (rs : List Record) :
    recordAccesses p (r :: rs) = r.accesses p ++ recordAccesses p rs := rfl

@[simp] theorem recordAccesses_append (p : Port) (rs ts : List Record) :
    recordAccesses p (rs ++ ts) = recordAccesses p rs ++ recordAccesses p ts := by
  simp [recordAccesses]

/-- The address bits below the port width. -/
def Operation.lowAddr (p : Port) (op : Operation) : ℕ := op.address &&& (p.data - 1)

/-- The low address bits determine how far to shift values. -/
def opShift (p : Port) (format lowAddr : ℕ) : ℕ :=
  let size := format &&& ebDataX
  let endian := format &&& ebEndianMask
  if endian = ebBigEndian then p.data - (lowAddr + size) else lowAddr

/-- The access that an operation on a port stands for. -/
def Operation.access (p : Port) (op : Operation) : Access :=
  let shift := opShift p op.format (op.lowAddr p)
  let widths := p.opWidths op.size
  let word := op.address &&& p.addressFilter
  let addrB := word ||| (p.data - (shift + op.size))
  let addrL := word ||| shift
  if op.isWrite then
    if op.cfgSpace then .writeConfig widths op.address op.value
    else .write widths addrB addrL op.value
  else if op.cfgSpace then .readConfig widths addrB else .read widths addrB addrL

/-- The address an operation names: `addr_b` unless it is little endian. -/
def Operation.busAddress (op : Operation) (addrB addrL : ℕ) : ℕ :=
  if op.endian = ebLittleEndian then addrL else addrB

end WhiteRabbit.Etherbone
