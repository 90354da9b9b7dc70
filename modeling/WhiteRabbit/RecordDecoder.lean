import WhiteRabbit.SocketAccess

/-!
# The slave: processing records and replying to them

The receive buffer is split at its three pointers: the reply written so far, a gap of bytes
already consumed, and the bytes not yet read. The reply overwrites the request, so a store
that is longer than the gap would destroy unread input; `clobbered` records that.

`deliver` feeds one chunk of a stream to the function, which then runs until it waits in
`poll` or `recv` again, or kills the link.
-/

namespace WhiteRabbit.Etherbone
open BigEndian

/-- The buffer: `written` ends at `wptr`, `unread` lies between `rptr` and `eos`. -/
structure Buffer where
  written : Bytes
  gap : ℕ
  unread : Bytes
  clobbered : Bool
  deriving DecidableEq

namespace Buffer

def skip (b : Buffer) (n : ℕ) : Buffer := { b with gap := b.gap + n, unread := b.unread.drop n }

def load (b : Buffer) (n : ℕ) : ℕ := decode (b.unread.take n)

def store (b : Buffer) (bs : Bytes) : Buffer :=
  { b with
    written := b.written ++ bs
    gap := b.gap - bs.length
    clobbered := b.clobbered || decide (b.gap < bs.length) }

end Buffer

/-- The locals of `eb_device_slave` with the socket it works on. -/
structure Slave (σ : Type) where
  bus : Bus σ
  buf : Buffer
  cycleEnd : Bool
  cycleOpen : Bool
  reply : Bool
  sent : List Bytes

/-- A read value moved back to its lanes. -/
def replyWord (p : Port) (select : UInt8) (wv : ℕ) : ℕ :=
  let sel := decodeSelect p.data select
  ((wv &&& p.dataMask sel.opWidth) <<< (sel.opShift <<< 3)) % 256 ^ p.word

/-- `cycle_end`, as it goes into a reply header. -/
def cycleFlag (cycleEnd : Bool) : UInt8 := if cycleEnd then ebRecordCYC else 0

section Slave

variable {σ : Type} (g : Glue σ) (p : Port)

def writeLoop (select : UInt8) (wconfig wfifo : Bool) :
    ℕ → ℕ → ℕ → ℕ → Bus σ × Buffer → Bus σ × Buffer
  | 0, _, _, _, s => s
  | wcount + 1, bwa, bwaB, bwaL, (bus, buf) =>
    let word := buf.load p.alignment
    let buf := buf.skip p.alignment
    let (bus, _) := perform g bus (writeAccess p select wconfig bwa bwaB bwaL word)
    writeLoop select wconfig wfifo wcount (p.advance wfifo bwa) (p.advance wfifo bwaB)
      (p.advance wfifo bwaL) (bus, buf)

def readLoop (select : UInt8) (rconfig : Bool) : ℕ → Bus σ × Buffer → Bus σ × Buffer
  | 0, s => s
  | rcount + 1, (bus, buf) =>
    let word := buf.load p.alignment
    let buf := buf.skip p.alignment
    let (bus, wv) := perform g bus (readAccess p select rconfig word)
    readLoop select rconfig rcount (bus, buf.store (encode p.alignment (replyWord p select wv)))

/-- The write half of a record. -/
def slaveWrites (flags select : UInt8) (wcount : ℕ) (s : Bus σ × Buffer) : Bus σ × Buffer :=
  if 0 < wcount then
    let (bus, buf) := s
    let wfifo := flags &&& ebRecordWFF != 0
    let wconfig := flags &&& ebRecordWCA != 0
    let (bwa, bwaB, bwaL) := writeBase p select wconfig (buf.load p.alignment)
    writeLoop g p select wconfig wfifo wcount bwa bwaB bwaL (bus, buf.skip p.alignment)
  else s

/-- The header of a reply. -/
def replyHeader (flags select : UInt8) (cycleEnd : Bool) (rcount : ℕ) : Bytes :=
  let bconfig := flags &&& ebRecordBCA != 0
  let rfifo := flags &&& ebRecordRFF != 0
  [cycleFlag cycleEnd ||| (if bconfig then ebRecordWCA else 0) ||| (if rfifo then ebRecordWFF else 0),
    select, UInt8.ofNat rcount, 0] ++ List.replicate (p.recordAlignment - 4) 0

/-- The read half of a record. The base return address is echoed back. -/
def slaveReads (flags select : UInt8) (cycleEnd : Bool) (rcount : ℕ) (s : Bus σ × Buffer) :
    Bus σ × Buffer :=
  let (bus, buf) := s
  let rconfig := flags &&& ebRecordRCA != 0
  let buf := buf.store (replyHeader p flags select cycleEnd rcount)
  let bra := buf.load p.alignment
  let buf := (buf.skip p.alignment).store (encode p.alignment bra)
  readLoop g p select rconfig rcount (bus, buf)

/-- Why the record loop stopped. -/
inductive Stop where
  /-- Less than a record header is left. -/
  | drained
  /-- The record at `rptr` is not complete. -/
  | incomplete
  deriving DecidableEq

/-- The body of a complete record whose header has been skipped. -/
def slaveBody (flags select : UInt8) (wcount rcount : ℕ) (s : Slave σ) : Slave σ :=
  let cycleEnd := flags &&& ebRecordCYC != 0
  let (bus, buf) := slaveWrites g p flags select wcount (s.bus, s.buf)
  let ((bus, buf), reply, cycleOpen) :=
    if 0 < rcount then (slaveReads g p flags select cycleEnd rcount (bus, buf), true, !cycleEnd)
    else ((bus, buf), s.reply, s.cycleOpen)
  -- we need to terminate the cycle
  let buf := if cycleOpen && cycleEnd then
      buf.store (cycleFlag cycleEnd :: List.replicate (p.recordAlignment - 1) 0)
    else buf
  { s with bus := bus, buf := buf, cycleEnd := cycleEnd, cycleOpen := cycleOpen, reply := reply }

/-- The payload loop. An incomplete record is rewound to its header. -/
def slaveLoop : ℕ → Slave σ → Slave σ × Stop
  | 0, s => (s, .drained)
  | fuel + 1, s =>
    if s.buf.unread.length < p.recordAlignment then (s, .drained)
    else
      let flags := s.buf.unread.getD 0 0
      let select := s.buf.unread.getD 1 0
      let wcount := (s.buf.unread.getD 2 0).toNat
      let rcount := (s.buf.unread.getD 3 0).toNat
      let buf := s.buf.skip p.recordAlignment
      let total := wcount + rcount + (if 0 < wcount then 1 else 0) + (if 0 < rcount then 1 else 0)
      if buf.unread.length < total * p.alignment then
        ({ s with cycleEnd := flags &&& ebRecordCYC != 0 }, .incomplete)
      else slaveLoop fuel (slaveBody g p flags select wcount rcount { s with buf := buf })

/-- Send the reply, if there is one. -/
def Slave.flush (s : Slave σ) : Slave σ :=
  if s.reply then { s with sent := s.sent ++ [s.buf.written] } else s

/-- Where the function waits between two chunks. -/
inductive Phase where
  | poll
  | recv
  | dead
  deriving DecidableEq

/-- A negotiated streaming link between two chunks. -/
structure Link (σ : Type) where
  phase : Phase
  slave : Slave σ

/-- After the payload loop. Only at the end of a cycle, with nothing left over, does the
function return to its caller. -/
def settle (r : Slave σ × Stop) : Link σ :=
  let (s, stop) := r
  match stop with
  | .incomplete => ⟨.recv, s.flush⟩
  | .drained =>
    if s.cycleEnd = false then ⟨.recv, s.flush⟩
    else if s.buf.unread ≠ [] then ⟨.dead, s.flush⟩
    else ⟨.poll, s.flush⟩

/-- Work on the bytes of the buffer. -/
def Slave.process (s : Slave σ) (bytes : Bytes) : Link σ :=
  settle (slaveLoop g p (bytes.length + 1)
    { s with buf := ⟨[], 0, bytes, s.buf.clobbered⟩ })

/-- The session-limited state of a fresh call. -/
def Slave.start (s : Slave σ) : Slave σ :=
  { s with bus := { s.bus with error := 0 }, cycleEnd := true, cycleOpen := false, reply := false }

/-- The link gets the next chunk of the stream. -/
def deliver (l : Link σ) (chunk : Bytes) : Link σ :=
  match l.phase with
  | .dead => l
  | .poll =>
    if chunk.length = 0 then l
    else if chunk.length < 2 then ⟨.dead, l.slave⟩
    else l.slave.start.process g p chunk
  | .recv =>
    if chunk.length = 0 then ⟨.dead, l.slave⟩
    else l.slave.process g p (l.slave.buf.unread ++ chunk)

def deliverAll (l : Link σ) (chunks : List Bytes) : Link σ := chunks.foldl (deliver g p) l

end Slave

/-- A link right after negotiation. -/
def Link.fresh {σ : Type} (sock : σ) : Link σ :=
  ⟨.poll, ⟨⟨sock, 0, []⟩, ⟨[], 0, [], false⟩, true, false, false, []⟩⟩

end WhiteRabbit.Etherbone
