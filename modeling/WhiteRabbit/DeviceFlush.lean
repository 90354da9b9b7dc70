import WhiteRabbit.CycleEncoding
import WhiteRabbit.GroupPacking

/-!
# Flushing the ready list of a device

Every cycle on the ready list is encoded into the send buffer, record by record. On a stream
a full buffer is sent at once. On a packet transport (`mtu ≠ 0`) a message holds whole
cycles: a record that does not fit sends the cycles completed so far and moves the records
of the current cycle to the front. The buffer is kept as the records below `cptr` (complete
cycles) and between `cptr` and `wptr` (the current cycle).
-/

namespace WhiteRabbit.Etherbone
open BigEndian GroupPacking

/-- A closed cycle on the ready list. `dead` marks a cycle that ran out of memory while it
was filled; `alloc` tells whether a response can be allocated when its turn comes. -/
structure Queued where
  ops : List Operation
  dead : Bool := false
  alloc : Bool := true

/-- One call of `send`. On a packet transport it has a header with the no-reads flag. -/
structure Message where
  noReads : Bool
  records : List Record

def ebHeaderPF : UInt8 := 0x01
def ebHeaderPR : UInt8 := 0x02
def ebHeaderNR : UInt8 := 0x04

/-- The header in front of every message of a packet transport. -/
def messageHeader (p : Port) (noReads : Bool) : Bytes :=
  [0x4E, 0x6F, 0x10 ||| (if noReads then ebHeaderNR else 0), UInt8.ofNat p.widths] ++
    List.replicate (p.headerAlignment - 4) 0

def Message.bytes (p : Port) (mtu : ℕ) (m : Message) : Bytes :=
  (if mtu = 0 then [] else messageHeader p m.noReads) ++ recordBytes p m.records

/-- The buffer of a flush, and what was sent. `noReads` is the flag in the header byte;
`overrun` tells that a record was written past the end of the buffer. -/
structure FlushState where
  sent : List Message
  closed : List Record
  current : List Record
  hasReads : Bool
  noReads : Bool
  rba : ℕ
  overrun : Bool

/-- What becomes of a cycle: a callback with a status and an operation, or a response. -/
inductive CycleFate where
  | callback (status : Status) (operation : Option ℕ)
  | response (address : ℕ)
  deriving DecidableEq

def Record.HasReads (r : Record) : Prop := r.reads ≠ []

instance (r : Record) : Decidable r.HasReads := inferInstanceAs (Decidable (_ ≠ _))

/-- `aux->rba = 0x8000 | (aux->rba + 2)`, on 16 bits. -/
def nextRba (rba : ℕ) : ℕ := 0x8000 ||| (rba + 2) % 2 ^ 16

section Flush

variable (p : Port) (mtu : ℕ)

def headerSize : ℕ := if mtu = 0 then 0 else p.headerAlignment

/-- `eob`, as an offset in the buffer. -/
def endOfBuffer : ℕ := if mtu = 0 then p.bufferSize else mtu

namespace FlushState

/-- `wptr`, as an offset in the buffer. -/
def used (s : FlushState) : ℕ :=
  headerSize p mtu + (recordBytes p s.closed).length + (recordBytes p s.current).length

/-- Format one record at `wptr`. -/
def append (s : FlushState) (r : Record) : FlushState :=
  { s with
    current := s.current ++ [r]
    hasReads := s.hasReads || decide r.HasReads
    overrun := s.overrun || decide (p.bufferSize < s.used p mtu + r.length p) }

/-- Send the complete cycles in the buffer, if any. -/
def sendClosed (s : FlushState) : FlushState :=
  if s.closed = [] then s
  else
    -- if we've sent no reads, toggle the header
    { s with
      sent := s.sent ++ [⟨s.noReads || !s.hasReads, s.closed⟩]
      closed := []
      noReads := s.noReads || !s.hasReads
      hasReads := false }

/-- Send everything in the buffer of a stream. -/
def sendStream (s : FlushState) : FlushState :=
  { s with sent := s.sent ++ [⟨s.noReads, s.closed ++ s.current⟩], closed := [], current := [] }

/-- Ensure sufficient buffer space and format a record. Fails when the cycle overflows. -/
def placeRecord (s : FlushState) (r : Record) : FlushState × Bool :=
  if s.used p mtu + r.length p ≤ endOfBuffer p mtu then (s.append p mtu r, true)
  else if mtu = 0 then (s.sendStream.append p mtu r, true)
  else
    let s := s.sendClosed
    if s.used p mtu + r.length p ≤ endOfBuffer p mtu then (s.append p mtu r, true) else (s, false)

/-- Place the records of a cycle. `operation` counts the operations of the records placed. -/
def placeRecords (s : FlushState) (operation : ℕ) : List Record → FlushState × ℕ × Bool
  | [] => (s, operation, true)
  | r :: rs =>
    match s.placeRecord p mtu r with
    | (s, true) =>
      s.placeRecords (operation + r.writes.length + if r.ret % 2 = 1 then 0 else r.reads.length) rs
    | (s, false) => (s, operation, false)

/-- All records of the cycle are in the buffer: answer at once, or set up a response. -/
def closeCycle (s : FlushState) (records : List Record) : FlushState × CycleFate :=
  let s := { s with closed := s.closed ++ s.current, current := [] }
  if ∃ r ∈ records, r.HasReads then ({ s with rba := nextRba s.rba }, .response s.rba)
  else (s, .callback .ok (some 0))

/-- Format the checked operations of a cycle. -/
def formatCycle (s : FlushState) (ops : List Operation) : FlushState × CycleFate :=
  let records := (encodeCycle p s.rba ops).getD []
  match s.placeRecords p mtu 0 records with
  | (s, operation, false) => ({ s with current := [] }, .callback .overflow (some operation))
  | (s, _, true) => s.closeCycle records

/-- One cycle of the ready list. -/
def flushCycle (s : FlushState) (c : Queued) : FlushState × CycleFate :=
  if c.dead then (s, .callback .oom none)
  else if c.ops = [] then (s, .callback .ok none)
  else
    match checkOperations p c.ops with
    | (_, some (i, reason)) => (s, .callback reason (some i))
    | (ops, none) =>
      if c.alloc = false then (s, .callback .oom none) else s.formatCycle p mtu ops

def flushCycles (s : FlushState) : List Queued → FlushState × List CycleFate
  | [] => (s, [])
  | c :: cs =>
    let (s, outcome) := s.flushCycle p mtu c
    let (s, outcomes) := s.flushCycles cs
    (s, outcome :: outcomes)

/-- The final send. -/
def finish (s : FlushState) : FlushState :=
  if mtu = 0 then if s.closed ++ s.current = [] then s else s.sendStream else s.sendClosed

def start (rba : ℕ) : FlushState := ⟨[], [], [], false, false, rba, false⟩

end FlushState

/-- `eb_device_flush` on a device with a live link: the state after the last send, and what
became of the cycles. -/
def ebDeviceFlush (rba : ℕ) (ready : List Queued) : FlushState × List CycleFate :=
  let (s, outcomes) := (FlushState.start rba).flushCycles p mtu ready
  (s.finish mtu, outcomes)

end Flush

end WhiteRabbit.Etherbone
