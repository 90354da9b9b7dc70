import WhiteRabbit.RecordAccesses

/-!
# Packing a cycle into records

Each record takes a run of writes followed by a run of reads off the front of the operation
list. Writes of one record share their address space and format and go to one address (FIFO)
or to consecutive ones; reads share address space, format and low address bits. In a checked
cycle at most `maxops` bus operations lie between two reads of the error register.
-/

namespace WhiteRabbit.Etherbone

/-- Only bus operations shift the error register. -/
def countBus (cfg : Bool) (ops : ℕ) : ℕ := if cfg then ops else ops + 1

/-- Extend a run of writes whose last address is `bwa` as far as it goes. -/
def chainWrites (p : Port) (fifo : Bool) (maxops : ℕ) (wcfg : Bool) (format : ℕ) :
    ℕ → ℕ → ℕ → List Operation → ℕ × ℕ × List Operation
  | _, wcount, ops, [] => (wcount, ops, [])
  | bwa, wcount, ops, scan :: rest =>
    if scan.address ≠ p.advance fifo bwa ∨ scan.isWrite = false ∨ scan.cfgSpace ≠ wcfg ∨
        scan.format ≠ format ∨ 255 ≤ wcount ∨ maxops ≤ ops then
      (wcount, ops, scan :: rest)
    else
      chainWrites p fifo maxops wcfg format (p.advance fifo bwa) (wcount + 1) (countBus wcfg ops) rest

/-- Extend a run of reads as far as it goes. -/
def chainReads (p : Port) (maxops : ℕ) (rcfg : Bool) (format lowAddr : ℕ) :
    ℕ → ℕ → List Operation → ℕ × ℕ × List Operation
  | rcount, ops, [] => (rcount, ops, [])
  | rcount, ops, scan :: rest =>
    if scan.isWrite = true ∨ scan.cfgSpace ≠ rcfg ∨ scan.format ≠ format ∨
        scan.address &&& (p.data - 1) ≠ lowAddr ∨ 255 ≤ rcount ∨ maxops ≤ ops then
      (rcount, ops, scan :: rest)
    else chainReads p maxops rcfg format lowAddr (rcount + 1) (countBus rcfg ops) rest

/-- The part of the operation list put into one half of a record. -/
structure Packed where
  count : ℕ
  cfg : Bool
  fifo : Bool
  format : ℕ
  lowAddr : ℕ
  ops : ℕ
  scan : List Operation

/-- First pack writes into a record, if any. -/
def packWrites (p : Port) (maxops ops : ℕ) : List Operation → Packed
  | [] => ⟨0, false, false, ebDataX, 0, ops, []⟩
  | scan :: rest =>
    if maxops ≤ ops ∨ scan.isWrite = false then ⟨0, false, false, ebDataX, 0, ops, scan :: rest⟩
    else
      let wcfg := scan.cfgSpace
      let format := scan.format
      let lowAddr := scan.address &&& (p.data - 1)
      let ops := countBus wcfg ops
      match rest with
      | [] => ⟨1, wcfg, false, format, lowAddr, ops, []⟩
      | scan' :: rest' =>
        if maxops ≤ ops ∨ scan'.isWrite = false ∨ scan'.cfgSpace ≠ wcfg ∨ scan'.format ≠ format then
          ⟨1, wcfg, false, format, lowAddr, ops, scan' :: rest'⟩
        else if scan'.address = scan.address then
          let (wcount, ops, scanp) :=
            chainWrites p true maxops wcfg format scan.address 2 (countBus wcfg ops) rest'
          ⟨wcount, wcfg, true, format, lowAddr, ops, scanp⟩
        else if scan'.address = p.advance false scan.address then
          let (wcount, ops, scanp) :=
            chainWrites p false maxops wcfg format (p.advance false scan.address) 2
              (countBus wcfg ops) rest'
          ⟨wcount, wcfg, false, format, lowAddr, ops, scanp⟩
        else ⟨1, wcfg, false, format, lowAddr, ops, scan' :: rest'⟩

/-- Next, how many reads follow? They must use the select lines of the writes. -/
def packReads (p : Port) (maxops : ℕ) (w : Packed) : Packed :=
  match w.scan with
  | [] => ⟨0, false, true, w.format, w.lowAddr, w.ops, []⟩
  | scan :: rest =>
    if maxops ≤ w.ops ∨ scan.isWrite = true ∨
        (w.format ≠ ebDataX ∧ (scan.format ≠ w.format ∨ scan.address &&& (p.data - 1) ≠ w.lowAddr)) then
      ⟨0, false, true, w.format, w.lowAddr, w.ops, scan :: rest⟩
    else
      let rcfg := scan.cfgSpace
      let lowAddr := scan.address &&& (p.data - 1)
      let (rcount, ops, scanp) :=
        chainReads p maxops rcfg scan.format lowAddr 1 (countBus rcfg w.ops) rest
      ⟨rcount, rcfg, true, scan.format, lowAddr, ops, scanp⟩

/-- The header flags of a request. -/
def recordFlags (rcfg wcfg fifo cycleEnd : Bool) : UInt8 :=
  ebRecordBCA ||| ebRecordRFF ||| (if rcfg then ebRecordRCA else 0) |||
    (if wcfg then ebRecordWCA else 0) ||| (if fifo then ebRecordWFF else 0) |||
    (if cycleEnd then ebRecordCYC else 0)

/-- One iteration of the record loop: the record, whether it ends the cycle, the bus
operations since the last error-register read, and the operations left. -/
structure RecordStep where
  record : Record
  cycleEnd : Bool
  ops : ℕ
  rest : List Operation

def nextRecord (p : Port) (needsCheck : Bool) (maxops rba ops : ℕ) (l : List Operation) :
    RecordStep :=
  let w := packWrites p maxops ops l
  let r := packReads p maxops w
  -- insert an error-flag read?
  let insert : Bool := decide (r.count = 0 ∧ (r.format = ebDataX ∨ r.format = p.data) ∧
    (maxops ≤ r.ops ∨ (r.scan = [] ∧ needsCheck = true ∧ 0 < r.ops)))
  let format := if insert then p.data else r.format
  let cycleEnd : Bool := decide (r.scan = [] ∧ (needsCheck = false ∨ r.ops = 0 ∨ insert = true))
  let shift := opShift p format r.lowAddr
  let writes := l.take w.count
  let reads := (l.drop w.count).take r.count
  { record :=
      { flags := recordFlags (insert || r.cfg) w.cfg w.fifo cycleEnd
        select := selectByte (format &&& ebDataX) shift
        pad := List.replicate (p.recordAlignment - 4) 0
        base := (writes.head?.map Operation.address).getD 0
        writes := writes.map fun op => (op.value <<< (shift <<< 3)) % 256 ^ p.word
        ret := if insert then rba ||| 1 else rba
        reads := if insert then [8 - p.stride] else reads.map Operation.address }
    cycleEnd := cycleEnd
    ops := if insert then 0 else r.ops
    rest := r.scan }

/-- The records of the operations that are left. -/
def recordLoop (p : Port) (needsCheck : Bool) (maxops rba : ℕ) :
    ℕ → ℕ → List Operation → Option (List Record)
  | 0, _, _ => none
  | fuel + 1, ops, l =>
    let s := nextRecord p needsCheck maxops rba ops l
    if s.cycleEnd then some [s.record]
    else (recordLoop p needsCheck maxops rba fuel s.ops s.rest).map (s.record :: ·)

/-- Bus operations that fit between two reads of the error register. -/
def maxOps (p : Port) (needsCheck : Bool) : ℕ := if needsCheck then p.stride * 8 else 2 ^ 32 - 1

/-- All records of a cycle. Each iteration shortens the list or clears the operation count. -/
def encodeCycle (p : Port) (rba : ℕ) (l : List Operation) : Option (List Record) :=
  let needsCheck := (l.head?.map Operation.checked).getD false
  recordLoop p needsCheck (maxOps p needsCheck) rba (2 * l.length + 1) 0 l

end WhiteRabbit.Etherbone
