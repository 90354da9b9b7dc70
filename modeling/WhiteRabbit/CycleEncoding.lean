import Mathlib.Data.List.Chain
import WhiteRabbit.OperationLanes
import WhiteRabbit.RecordEncoder

/-!
# The records of a cycle ask for its operations

Every record of an encoded cycle covers a run of writes and a run of reads from the front of
the operations that are left, or a run of writes and a read of the error register. Its
accesses are those of the operations it covers.
-/

namespace WhiteRabbit.Etherbone
open BigEndian

variable {p : Port}

/-- The number of bus operations, which is what shifts the error register. -/
def busCount (l : List Operation) : ℕ := l.countP Operation.isBus

@[simp] theorem busCount_nil : busCount [] = 0 := rfl

@[simp] theorem busCount_append (l m : List Operation) :
    busCount (l ++ m) = busCount l + busCount m := List.countP_append

theorem countBus_eq (op : Operation) (ops : ℕ) : countBus op.cfgSpace ops = ops + busCount [op] := by
  cases h : op.cfgSpace <;> simp [countBus, busCount, Operation.isBus, h]

theorem busCount_cons (op : Operation) (l : List Operation) :
    busCount (op :: l) = busCount [op] + busCount l := busCount_append [op] l

/-- What the operations of one run have in common. -/
structure Alike (p : Port) (write cfg : Bool) (format low : ℕ) (op : Operation) : Prop where
  isWrite : op.isWrite = write
  space : op.cfgSpace = cfg
  format : op.format = format
  low : op.lowAddr p = low

/-- A step of the write chain: the next address of the run. -/
def Next (p : Port) (fifo : Bool) (a b : ℕ) : Prop := b = p.advance fifo a

theorem chainWrites_spec (p : Port) (fifo : Bool) (maxops : ℕ) (wcfg : Bool) (format bwa wcount ops : ℕ)
    (l : List Operation) :
    ∃ run, l = run ++ (chainWrites p fifo maxops wcfg format bwa wcount ops l).2.2 ∧
      (chainWrites p fifo maxops wcfg format bwa wcount ops l).1 = wcount + run.length ∧
      (chainWrites p fifo maxops wcfg format bwa wcount ops l).2.1 = ops + busCount run ∧
      (∀ op ∈ run, Alike p true wcfg format (bwa % p.data) op) ∧
      List.IsChain (Next p fifo) (bwa :: run.map Operation.address) ∧
      (wcount ≤ 255 → wcount + run.length ≤ 255) ∧
      (ops ≤ maxops → ops + busCount run ≤ maxops) := by
  induction l generalizing bwa wcount ops with
  | nil => exact ⟨[], by simp [chainWrites]⟩
  | cons scan rest ih =>
    rw [chainWrites]
    split
    · exact ⟨[], by simp⟩
    · rename_i hstop
      simp only [not_or, not_le, Decidable.not_not, Bool.not_eq_false] at hstop
      obtain ⟨haddr, hwrite, hcfg, hformat, hcount, hops⟩ := hstop
      obtain ⟨run, hl, hc, ho, hall, hchain, hlen, hmax⟩ :=
        ih (p.advance fifo bwa) (wcount + 1) (countBus wcfg ops)
      have hlow : scan.lowAddr p = bwa % p.data := by
        rw [Operation.lowAddr, and_data_mask, haddr, advance_low]
      have hbus : countBus wcfg ops = ops + busCount [scan] := by rw [← hcfg, countBus_eq]
      have hone : busCount [scan] ≤ 1 := List.countP_le_length
      refine ⟨scan :: run, ?_, ?_, ?_, ?_, ?_, ?_, ?_⟩
      · rw [List.cons_append, ← hl]
      · rw [hc, List.length_cons]
        omega
      · rw [ho, hbus, busCount_cons scan run]
        omega
      · intro op hop
        rcases List.mem_cons.mp hop with rfl | hop
        · exact ⟨hwrite, hcfg, hformat, hlow⟩
        · rw [← advance_low p fifo bwa]
          exact hall op hop
      · rw [List.map_cons, haddr]
        exact List.isChain_cons_cons.mpr ⟨rfl, hchain⟩
      · intro hle
        rw [List.length_cons]
        have := hlen (by omega)
        omega
      · intro hle
        rw [busCount_cons scan run]
        have := hmax (by omega)
        omega

theorem chainReads_spec (p : Port) (maxops : ℕ) (rcfg : Bool) (format lowAddr rcount ops : ℕ)
    (l : List Operation) :
    ∃ run, l = run ++ (chainReads p maxops rcfg format lowAddr rcount ops l).2.2 ∧
      (chainReads p maxops rcfg format lowAddr rcount ops l).1 = rcount + run.length ∧
      (chainReads p maxops rcfg format lowAddr rcount ops l).2.1 = ops + busCount run ∧
      (∀ op ∈ run, Alike p false rcfg format lowAddr op) ∧
      (rcount ≤ 255 → rcount + run.length ≤ 255) ∧
      (ops ≤ maxops → ops + busCount run ≤ maxops) := by
  induction l generalizing rcount ops with
  | nil => exact ⟨[], by simp [chainReads]⟩
  | cons scan rest ih =>
    rw [chainReads]
    split
    · exact ⟨[], by simp⟩
    · rename_i hstop
      simp only [not_or, not_le, Decidable.not_not, Bool.not_eq_true] at hstop
      obtain ⟨hread, hcfg, hformat, hlow, hcount, hops⟩ := hstop
      obtain ⟨run, hl, hc, ho, hall, hlen, hmax⟩ := ih (rcount + 1) (countBus rcfg ops)
      have hbus : countBus rcfg ops = ops + busCount [scan] := by rw [← hcfg, countBus_eq]
      have hone : busCount [scan] ≤ 1 := List.countP_le_length
      refine ⟨scan :: run, ?_, ?_, ?_, ?_, ?_, ?_⟩
      · rw [List.cons_append, ← hl]
      · rw [hc, List.length_cons]
        omega
      · rw [ho, hbus, busCount_cons scan run]
        omega
      · exact List.forall_mem_cons.mpr ⟨⟨hread, hcfg, hformat, hlow⟩, hall⟩
      · intro hle
        rw [List.length_cons]
        have := hlen (by omega)
        omega
      · intro hle
        rw [busCount_cons scan run]
        have := hmax (by omega)
        omega

/-- What the first half of a record takes. -/
structure WritesPacked (p : Port) (maxops ops : ℕ) (l : List Operation) (w : Packed)
    (run : List Operation) : Prop where
  split : l = run ++ w.scan
  count : w.count = run.length
  count_le : run.length ≤ 255
  ops_eq : w.ops = ops + busCount run
  ops_le : ops ≤ maxops → w.ops ≤ maxops
  alike : ∀ op ∈ run, Alike p true w.cfg w.format w.lowAddr op
  chain : List.IsChain (Next p w.fifo) (run.map Operation.address)
  empty : run = [] → w.format = ebDataX ∧ w.lowAddr = 0 ∧
    (maxops ≤ ops ∨ ∀ op ∈ l.head?, op.isWrite = false)

theorem packWrites_spec (p : Port) (maxops ops : ℕ) (l : List Operation) :
    ∃ run, WritesPacked p maxops ops l (packWrites p maxops ops l) run := by
  cases l with
  | nil => exact ⟨[], by constructor <;> simp [packWrites]⟩
  | cons scan rest =>
    rw [packWrites]
    split
    · rename_i hstop
      refine ⟨[], by constructor <;> simp; simpa using hstop⟩
    rename_i hstart
    simp only [not_or, not_le, Bool.not_eq_false] at hstart
    obtain ⟨hops, hwrite⟩ := hstart
    have hone : busCount [scan] ≤ 1 := List.countP_le_length
    have halike : Alike p true scan.cfgSpace scan.format (scan.lowAddr p) scan :=
      ⟨hwrite, rfl, rfl, rfl⟩
    -- a record with a single write
    have hsingle : ∀ rest', rest = rest' → WritesPacked p maxops ops (scan :: rest)
        ⟨1, scan.cfgSpace, false, scan.format, scan.lowAddr p, countBus scan.cfgSpace ops, rest'⟩
        [scan] := by
      rintro rest' rfl
      constructor <;> simp [countBus_eq, halike]
      omega
    -- a record with a chain of at least two writes
    have hchain : ∀ (fifo : Bool) (scan' : Operation) (rest' : List Operation),
        rest = scan' :: rest' → scan'.isWrite = true → scan'.cfgSpace = scan.cfgSpace →
        scan'.format = scan.format → scan'.address = p.advance fifo scan.address →
        countBus scan.cfgSpace ops < maxops →
        ∃ run, WritesPacked p maxops ops (scan :: rest)
          ⟨(chainWrites p fifo maxops scan.cfgSpace scan.format scan'.address 2
              (countBus scan.cfgSpace (countBus scan.cfgSpace ops)) rest').1,
            scan.cfgSpace, fifo, scan.format, scan.lowAddr p,
            (chainWrites p fifo maxops scan.cfgSpace scan.format scan'.address 2
              (countBus scan.cfgSpace (countBus scan.cfgSpace ops)) rest').2.1,
            (chainWrites p fifo maxops scan.cfgSpace scan.format scan'.address 2
              (countBus scan.cfgSpace (countBus scan.cfgSpace ops)) rest').2.2⟩ run := by
      intro fifo scan' rest' hrest hw' hc' hf' ha' hlt
      have hlow' : scan'.lowAddr p = scan.lowAddr p := by
        rw [Operation.lowAddr, Operation.lowAddr, and_data_mask, and_data_mask, ha', advance_low]
      have hone' : busCount [scan'] ≤ 1 := List.countP_le_length
      have hbus : countBus scan.cfgSpace (countBus scan.cfgSpace ops) =
          ops + busCount [scan] + busCount [scan'] := by
        rw [← countBus_eq scan, ← countBus_eq scan', hc']
      rw [hbus]
      rw [countBus_eq] at hlt
      obtain ⟨run, hl, hc, ho, hall, hch, hlen, hmax⟩ := chainWrites_spec p fifo maxops scan.cfgSpace
        scan.format scan'.address 2 (ops + busCount [scan] + busCount [scan']) rest'
      have hops' := busCount_cons scan (scan' :: run)
      have hops'' := busCount_cons scan' run
      refine ⟨scan :: scan' :: run, ?_, ?_, ?_, ?_, ?_, ?_, ?_, ?_⟩
      · rw [hrest, List.cons_append, List.cons_append, ← hl]
      · simp only [hc, List.length_cons]
        omega
      · have := hlen (by decide)
        simp only [List.length_cons]
        omega
      · simp only [ho]
        omega
      · intro _
        simp only [ho]
        exact hmax (by omega)
      · refine List.forall_mem_cons.mpr ⟨halike, List.forall_mem_cons.mpr
          ⟨⟨hw', hc', hf', hlow'⟩, ?_⟩⟩
        have he : scan'.address % p.data = scan.lowAddr p := by
          rw [← hlow', Operation.lowAddr, and_data_mask]
        rw [← he]
        exact hall
      · exact List.isChain_cons_cons.mpr ⟨ha', hch⟩
      · simp
    dsimp only
    split
    · exact ⟨_, hsingle [] rfl⟩
    · rename_i scan' rest'
      split
      · exact ⟨_, hsingle _ rfl⟩
      rename_i hnext
      simp only [not_or, not_le, Decidable.not_not, Bool.not_eq_false] at hnext
      obtain ⟨hlt, hw', hc', hf'⟩ := hnext
      split
      · rename_i hfifo
        have h := hchain true scan' rest' rfl hw' hc' hf' (by simpa [Port.advance] using hfifo) hlt
        rw [hfifo] at h
        exact h
      split
      · rename_i hseq
        have h := hchain false scan' rest' rfl hw' hc' hf' hseq hlt
        rw [hseq] at h
        exact h
      · exact ⟨_, hsingle _ rfl⟩

/-- What the second half of a record takes. -/
structure ReadsPacked (maxops : ℕ) (p : Port) (w r : Packed) (run : List Operation) : Prop where
  split : w.scan = run ++ r.scan
  count : r.count = run.length
  count_le : run.length ≤ 255
  ops_eq : r.ops = w.ops + busCount run
  ops_le : w.ops ≤ maxops → r.ops ≤ maxops
  alike : ∀ op ∈ run, Alike p false r.cfg r.format r.lowAddr op
  shared : w.format ≠ ebDataX → r.format = w.format ∧ r.lowAddr = w.lowAddr
  empty : run = [] → r.format = w.format ∧ r.lowAddr = w.lowAddr ∧ r.ops = w.ops
  stuck : run = [] → w.format = ebDataX → maxops ≤ w.ops ∨ ∀ op ∈ w.scan.head?, op.isWrite = true

theorem packReads_spec (p : Port) (maxops : ℕ) (w : Packed) :
    ∃ run, ReadsPacked maxops p w (packReads p maxops w) run := by
  obtain ⟨count, cfg, fifo, format, lowAddr, ops, scan⟩ := w
  cases scan with
  | nil => exact ⟨[], by constructor <;> simp [packReads]⟩
  | cons scan rest =>
    simp only [packReads]
    split
    · rename_i hstop
      refine ⟨[], by constructor <;> simp; intro hf; simpa [hf] using hstop⟩
    · rename_i hstart
      simp only [not_or, not_le, not_and, Decidable.not_not, Bool.not_eq_true] at hstart
      obtain ⟨hops, hread, hshared⟩ := hstart
      obtain ⟨run, hl, hc, ho, hall, hlen, hmax⟩ := chainReads_spec p maxops scan.cfgSpace
        scan.format (scan.address &&& (p.data - 1)) 1 (ops + busCount [scan]) rest
      have hone : busCount [scan] ≤ 1 := List.countP_le_length
      have hcons := busCount_cons scan run
      rw [countBus_eq]
      refine ⟨scan :: run, ?_, ?_, ?_, ?_, ?_, ?_, ?_, ?_, ?_⟩
      · rw [List.cons_append, ← hl]
      · simp only [hc, List.length_cons]
        omega
      · have := hlen (by decide)
        rw [List.length_cons]
        omega
      · simp only [ho]
        omega
      · intro _
        simp only [ho]
        exact hmax (by omega)
      · exact List.forall_mem_cons.mpr ⟨⟨hread, rfl, rfl, rfl⟩, hall⟩
      · exact hshared
      · simp
      · simp

/-- The read of the error register that is inserted into a checked cycle. -/
def statusAccess (p : Port) : Access := .readConfig (p.opWidths p.data) (8 - p.data)

/-- A record covers writes `ws`, then reads `rs` or a read of the error register. -/
structure Covers (p : Port) (rba : ℕ) (ws rs : List Operation) (status : Bool) (r : Record) :
    Prop where
  wellFormed : r.WellFormed p
  ret_eq : r.ret = if status then rba ||| 1 else rba
  bconfig : r.bconfig = true
  rfifo : r.rfifo = true
  select : (decodeSelect p.data r.select).ok = true
  writes_length : r.writes.length = ws.length
  reads_length : r.reads.length = if status then 1 else rs.length
  no_reads : status = true → rs = []
  writeList : r.writeList p = ws.map (Operation.access p)
  readList : r.readList p = if status then [statusAccess p] else rs.map (Operation.access p)

theorem Covers.accesses {rba : ℕ} {ws rs : List Operation} {status : Bool} {r : Record}
    (h : Covers p rba ws rs status r) : r.accesses p =
      ws.map (Operation.access p) ++ if status then [statusAccess p] else rs.map (Operation.access p) := by
  rw [Record.accesses, h.writeList, h.readList]

/-- The running addresses of the write loop when the operation at `a` is next. -/
structure WriteState (p : Port) (select : UInt8) (cfg : Bool) (a bwa bwaB bwaL : ℕ) : Prop where
  config : cfg = true → bwa = a
  bus : cfg = false →
    bwaB = ((a &&& p.addressFilter) |||
      (p.data - ((decodeSelect p.data select).opShift + (decodeSelect p.data select).opWidth))) ∧
    bwaL = ((a &&& p.addressFilter) ||| (decodeSelect p.data select).opShift)

/-- A record word carrying the value of a write. -/
def writeWord (p : Port) (shift : ℕ) (op : Operation) : ℕ := (op.value <<< (shift <<< 3)) % 256 ^ p.word

section Runs

variable {cfg : Bool} {format low : ℕ}

theorem Alike.size {write : Bool} {op : Operation} (h : Alike p write cfg format low op) :
    format &&& ebDataX = op.size := by rw [← h.format]; rfl

theorem Alike.shift {write : Bool} {op : Operation} (h : Alike p write cfg format low op) :
    opShift p format low = opShift p op.format (op.lowAddr p) := by rw [← h.format, ← h.low]

theorem writeWord_eq {op : Operation} (hf : Formatted p op) (ha : Alike p true cfg format low op) :
    writeWord p (opShift p format low) op = op.value <<< (opShift p format low <<< 3) := by
  have hlt := (hf.value_lanes ha.isWrite).1
  rw [writeWord, ha.shift]
  exact Nat.mod_eq_of_lt (hlt.trans_le (Nat.pow_le_pow_right (by decide) p.data_le))

theorem writeWord_lt {op : Operation} (hf : Formatted p op) (ha : Alike p true cfg format low op) :
    writeWord p (opShift p format low) op < 256 ^ p.alignment := by
  have hlt := (hf.value_lanes ha.isWrite).1
  rw [writeWord_eq hf ha, ha.shift]
  exact hlt.trans_le (Nat.pow_le_pow_right (by decide) p.data_le_alignment)

/-- One turn of the write loop performs one operation. -/
theorem writeAccess_eq {op : Operation} (hf : Formatted p op) (ha : Alike p true cfg format low op)
    {bwa bwaB bwaL : ℕ}
    (hs : WriteState p (selectByte (format &&& ebDataX) (opShift p format low)) cfg op.address
      bwa bwaB bwaL) :
    writeAccess p (selectByte (format &&& ebDataX) (opShift p format low)) cfg bwa bwaB bwaL
      (writeWord p (opShift p format low) op) = op.access p := by
  have hval := (hf.value_lanes ha.isWrite).2
  have hdec := hf.decodeSelect_eq
  rw [writeWord_eq hf ha]
  obtain ⟨hconfig, hbus⟩ := hs
  rw [ha.size, ha.shift, hdec] at hbus
  rw [ha.size, ha.shift]
  simp only [writeAccess, hdec, hval, Operation.access, ha.isWrite, ha.space]
  cases cfg with
  | true => simp [hconfig]
  | false =>
    obtain ⟨hB, hL⟩ := hbus rfl
    simp [hB, hL]

theorem WriteState.advance {op op' : Operation} (hf : Formatted p op) (hf' : Formatted p op')
    (ha : Alike p true cfg format low op) (ha' : Alike p true cfg format low op') {fifo : Bool}
    (hn : Next p fifo op.address op'.address) {bwa bwaB bwaL : ℕ}
    (hs : WriteState p (selectByte (format &&& ebDataX) (opShift p format low)) cfg op.address
      bwa bwaB bwaL) :
    WriteState p (selectByte (format &&& ebDataX) (opShift p format low)) cfg op'.address
      (p.advance fifo bwa) (p.advance fifo bwaB) (p.advance fifo bwaL) := by
  obtain ⟨hconfig, hbus⟩ := hs
  constructor
  · intro hc
    rw [hconfig hc, hn]
  · intro hc
    obtain ⟨hB, hL⟩ := hbus hc
    have hsh := hf.shift_spec.2
    have hpos := hf.size_pos
    rw [ha.size, ha.shift, hf.decodeSelect_eq] at hB hL ⊢
    have hlt := hf.bus_lt (ha.space.trans hc)
    have hlt' := hf'.bus_lt (ha'.space.trans hc)
    rw [and_addressFilter hlt, or_lane _ (by simp only; omega)] at hB hL
    rw [and_addressFilter hlt', or_lane _ (by simp only; omega), or_lane _ (by simp only; omega)]
    rw [hB, hL, hn]
    cases fifo with
    | true => exact ⟨rfl, rfl⟩
    | false =>
      simp only [Port.advance, Bool.false_eq_true, if_false]
      exact ⟨advance_word p _ (by omega), advance_word p _ (by omega)⟩

theorem writeAccesses_run {fifo : Bool} {run : List Operation}
    (hf : ∀ op ∈ run, Formatted p op) (ha : ∀ op ∈ run, Alike p true cfg format low op)
    (hc : List.IsChain (Next p fifo) (run.map Operation.address)) {bwa bwaB bwaL : ℕ}
    (hs : ∀ op ∈ run.head?, WriteState p (selectByte (format &&& ebDataX) (opShift p format low))
      cfg op.address bwa bwaB bwaL) :
    writeAccesses p (selectByte (format &&& ebDataX) (opShift p format low)) cfg fifo bwa bwaB bwaL
      (run.map (writeWord p (opShift p format low))) = run.map (Operation.access p) := by
  induction run generalizing bwa bwaB bwaL with
  | nil => rfl
  | cons op run ih =>
    obtain ⟨hf0, hf'⟩ := List.forall_mem_cons.mp hf
    obtain ⟨ha0, ha'⟩ := List.forall_mem_cons.mp ha
    have hs0 := hs op rfl
    rw [List.map_cons, List.map_cons, writeAccesses, writeAccess_eq hf0 ha0 hs0]
    congr 1
    cases run with
    | nil => rfl
    | cons op' run =>
      have hnext := List.isChain_cons_cons.mp hc
      apply ih hf' ha' hnext.2
      rintro _ ⟨⟩
      exact hs0.advance hf0 (hf' op' (by simp)) ha0 (ha' op' (by simp)) hnext.1

theorem writeState_base {op : Operation} (select : UInt8) :
    WriteState p select cfg op.address (writeBase p select cfg op.address).1
      (writeBase p select cfg op.address).2.1 (writeBase p select cfg op.address).2.2 := by
  cases cfg <;> constructor <;> simp [writeBase]

end Runs

theorem recordFlags_bits : ∀ rcfg wcfg fifo cycleEnd,
    (recordFlags rcfg wcfg fifo cycleEnd &&& ebRecordBCA != 0) = true ∧
    (recordFlags rcfg wcfg fifo cycleEnd &&& ebRecordRFF != 0) = true ∧
    (recordFlags rcfg wcfg fifo cycleEnd &&& ebRecordRCA != 0) = rcfg ∧
    (recordFlags rcfg wcfg fifo cycleEnd &&& ebRecordWCA != 0) = wcfg ∧
    (recordFlags rcfg wcfg fifo cycleEnd &&& ebRecordWFF != 0) = fifo ∧
    (recordFlags rcfg wcfg fifo cycleEnd &&& ebRecordCYC != 0) = cycleEnd := by decide

theorem formatted_format_ne {op : Operation} (h : Formatted p op) : op.format ≠ ebDataX := by
  intro he
  have hs := h.size_mem
  rw [Operation.size, he] at hs
  revert hs
  decide

/-- A port-wide format without endian bits is the size itself. -/
theorem data_format (p : Port) : p.data &&& ebDataX = p.data ∧ p.data &&& ebEndianMask = 0 := by
  rcases p.data_mem with h | h | h | h <;> rw [h] <;> decide

theorem opShift_data (p : Port) : opShift p p.data 0 = 0 := by
  rw [opShift, (data_format p).2]
  rfl

/-- The inserted read asks for the low end of the error register. -/
theorem readAccess_status (p : Port) :
    readAccess p (selectByte (p.data &&& ebDataX) 0) true (8 - p.stride) = statusAccess p := by
  have hd := p.data_mem
  have hdec : decodeSelect p.data (selectByte p.data 0) = ⟨true, 0, p.data⟩ :=
    decodeSelect_selectByte hd hd (Nat.dvd_zero _) (by omega)
  have hlt : 8 - p.data < 256 ^ p.addr := by
    have : 256 ^ 1 ≤ 256 ^ p.addr := Nat.pow_le_pow_right (by decide) p.addr_mem.pos
    omega
  have hword : (8 - p.stride) &&& p.addressFilter = 8 - p.data := by
    rw [show p.stride = p.data from rfl, and_addressFilter hlt]
    rcases hd with h | h | h | h <;> rw [h]
  rw [(data_format p).1]
  simp [readAccess, hdec, hword, statusAccess]

private theorem low_of_full {op : Operation} (h : Formatted p op) (hf : op.format = p.data) :
    op.lowAddr p = 0 := by
  have hs : op.size = p.data := by rw [Operation.size, hf]; exact (data_format p).1
  have hd := h.size_dvd_low
  have hle := h.low_add_size
  omega

private theorem mem_prefixed {b w : ℕ} {l : List ℕ} (h : w ∈ if l = [] then [] else b :: l) :
    w = b ∨ w ∈ l := by
  split at h
  · simp at h
  · exact List.mem_cons.mp h

/-- The record built from its two halves covers their operations. -/
theorem covers_record {ws rs : List Operation} {wcfg rcfg status : Bool} (fifo cycleEnd : Bool)
    {format low rba : ℕ} (hrba : rba < 2 ^ 16)
    (hws : ∀ op ∈ ws, Formatted p op) (hrs : ∀ op ∈ rs, Formatted p op)
    (haw : ∀ op ∈ ws, Alike p true wcfg format low op)
    (har : ∀ op ∈ rs, Alike p false rcfg format low op)
    (hchain : List.IsChain (Next p fifo) (ws.map Operation.address))
    (hwl : ws.length ≤ 255) (hrl : rs.length ≤ 255)
    (hstatus : status = true → rs = [] ∧ format = p.data ∧ low = 0)
    (hsome : ws = [] → rs = [] → status = true) :
    Covers p rba ws rs status
      { flags := recordFlags (status || rcfg) wcfg fifo cycleEnd
        select := selectByte (format &&& ebDataX) (opShift p format low)
        pad := List.replicate (p.recordAlignment - 4) 0
        base := (ws.head?.map Operation.address).getD 0
        writes := ws.map (writeWord p (opShift p format low))
        ret := if status then rba ||| 1 else rba
        reads := if status then [8 - p.stride] else rs.map Operation.address } := by
  obtain ⟨hb, hr, hra, hwa, hwf, -⟩ := recordFlags_bits (status || rcfg) wcfg fifo cycleEnd
  have h2 : 2 ^ 16 ≤ 256 ^ p.alignment := by
    have : 2 ≤ p.alignment := by rcases p.alignment_mem with h | h | h <;> omega
    calc 2 ^ 16 = 256 ^ 2 := by norm_num
      _ ≤ 256 ^ p.alignment := Nat.pow_le_pow_right (by decide) this
  have hret : (if status then rba ||| 1 else rba) < 256 ^ p.alignment := by
    refine lt_of_lt_of_le ?_ h2
    split
    · exact Nat.or_lt_two_pow hrba (by decide)
    · exact hrba
  have hbase : (ws.head?.map Operation.address).getD 0 < 256 ^ p.alignment := by
    cases ws with
    | nil => simp only [List.head?_nil, Option.map_none, Option.getD_none]; positivity
    | cons op ws => exact (hws op (by simp)).address_lt
  have hreads : ∀ w ∈ (if status then [8 - p.stride] else rs.map Operation.address),
      w < 256 ^ p.alignment := by
    intro w hw
    cases status with
    | true =>
      have : w = 8 - p.stride := by simpa using hw
      omega
    | false =>
      obtain ⟨op, hop, rfl⟩ := List.mem_map.mp (by simpa using hw)
      exact (hrs op hop).address_lt
  have hwrites : ∀ w ∈ ws.map (writeWord p (opShift p format low)), w < 256 ^ p.alignment := by
    intro w hw
    obtain ⟨op, hop, rfl⟩ := List.mem_map.mp hw
    exact writeWord_lt (hws op hop) (haw op hop)
  have hsel : (decodeSelect p.data (selectByte (format &&& ebDataX) (opShift p format low))).ok = true := by
    by_cases hst : status = true
    · obtain ⟨-, hf, hl⟩ := hstatus hst
      rw [hf, hl, opShift_data, (data_format p).1, decodeSelect_selectByte p.data_mem p.data_mem
        (Nat.dvd_zero _) (by omega)]
    · cases ws with
      | cons op ws =>
        rw [(haw op (by simp)).size, (haw op (by simp)).shift, (hws op (by simp)).decodeSelect_eq]
      | nil =>
        cases rs with
        | cons op rs =>
          rw [(har op (by simp)).size, (har op (by simp)).shift, (hrs op (by simp)).decodeSelect_eq]
        | nil => exact absurd (hsome rfl rfl) hst
  refine ⟨⟨?_, ?_, ?_, ?_⟩, rfl, hb, hr, hsel, by simp, ?_, fun h => (hstatus h).1, ?_, ?_⟩
  · rcases p.recordAlignment_mem with h | h <;> simp [h]
  · simpa using hwl
  · cases status <;> simp [hrl]
  · simp only [Record.words, Record.writeWords, Record.readWords]
    intro w hw
    rcases List.mem_append.mp hw with hw | hw
    · rcases mem_prefixed hw with rfl | hw
      · exact hbase
      · exact hwrites w hw
    · rcases mem_prefixed hw with rfl | hw
      · exact hret
      · exact hreads w hw
  · cases status <;> simp
  · simp only [Record.writeList, Record.wconfig, Record.wfifo, hwa, hwf]
    apply writeAccesses_run hws haw hchain
    intro op hop
    rw [hop]
    exact writeState_base _
  · simp only [Record.readList, Record.rconfig, hra]
    cases status with
    | true =>
      obtain ⟨-, rfl, rfl⟩ := hstatus rfl
      simp [opShift_data, readAccess_status]
    | false =>
      simp only [Bool.false_or, Bool.false_eq_true, if_false, List.map_map]
      apply List.map_congr_left
      intro op hop
      have ha := har op hop
      have hread : op.isRead = true := by simp [Operation.isRead, ha.isWrite]
      rw [Function.comp_apply, ha.size, ha.shift, ← ha.space]
      exact (hrs op hop).readAccess_eq hread

/-- What one iteration of the record loop does with the operations `l` that are left. -/
structure StepSpec (p : Port) (needsCheck : Bool) (maxops rba ops : ℕ) (l : List Operation)
    (s : RecordStep) (ws rs : List Operation) (status : Bool) : Prop where
  covers : Covers p rba ws rs status s.record
  split : l = ws ++ rs ++ s.rest
  cyc : s.record.cyc = s.cycleEnd
  ops_eq : s.ops = if status then 0 else ops + busCount ws + busCount rs
  ops_le : ops ≤ maxops → ops + busCount ws + busCount rs ≤ maxops
  due : status = true → maxops ≤ ops + busCount ws + busCount rs ∨
    (s.rest = [] ∧ needsCheck = true ∧ 0 < ops + busCount ws + busCount rs)
  ends : s.cycleEnd = true ↔
    s.rest = [] ∧ (needsCheck = false ∨ ops + busCount ws + busCount rs = 0 ∨ status = true)
  shorter : ws = [] → rs = [] → status = true ∧ 0 < ops

theorem nextRecord_spec {needsCheck : Bool} {maxops rba ops : ℕ} {l : List Operation}
    (hrba : rba < 2 ^ 16) (hmax : 0 < maxops) (hl : ∀ op ∈ l, Formatted p op)
    (hentry : l = [] → needsCheck = true ∧ 0 < ops) :
    ∃ ws rs status, StepSpec p needsCheck maxops rba ops l
      (nextRecord p needsCheck maxops rba ops l) ws rs status := by
  obtain ⟨ws, hw⟩ := packWrites_spec p maxops ops l
  obtain ⟨rs, hr⟩ := packReads_spec p maxops (packWrites p maxops ops l)
  generalize hwdef : packWrites p maxops ops l = w at hw hr
  generalize hrdef : packReads p maxops w = r at hr
  have hws : ∀ op ∈ ws, Formatted p op := fun op h => hl op (by rw [hw.split]; simp [h])
  have hrs : ∀ op ∈ rs, Formatted p op := fun op h => hl op (by rw [hw.split, hr.split]; simp [h])
  have hops : r.ops = ops + busCount ws + busCount rs := by rw [hr.ops_eq, hw.ops_eq]
  have hcount : r.count = 0 ↔ rs = [] := by rw [hr.count, List.length_eq_zero_iff]
  -- the select lines of the writes are those of the record
  have hformat : ∀ op ∈ ws, r.format = w.format ∧ r.lowAddr = w.lowAddr ∧ r.format ≠ ebDataX := by
    intro op hop
    have hne : w.format ≠ ebDataX := by
      rw [← (hw.alike op hop).format]
      exact formatted_format_ne (hws op hop)
    obtain ⟨hf, hlow⟩ := hr.shared hne
    exact ⟨hf, hlow, by rw [hf]; exact hne⟩
  let status : Bool := decide (r.count = 0 ∧ (r.format = ebDataX ∨ r.format = p.data) ∧
    (maxops ≤ r.ops ∨ (r.scan = [] ∧ needsCheck = true ∧ 0 < r.ops)))
  have hst : status = true ↔ r.count = 0 ∧ (r.format = ebDataX ∨ r.format = p.data) ∧
      (maxops ≤ r.ops ∨ (r.scan = [] ∧ needsCheck = true ∧ 0 < r.ops)) := decide_eq_true_iff
  have hstatus : status = true → rs = [] ∧ (if status then p.data else r.format) = p.data ∧
      r.lowAddr = 0 := by
    intro h
    obtain ⟨hc, hf, -⟩ := hst.mp h
    have hnil := hcount.mp hc
    refine ⟨hnil, if_pos h, ?_⟩
    obtain ⟨hrf, hrl, -⟩ := hr.empty hnil
    cases hws' : ws with
    | nil => rw [hrl, (hw.empty hws').2.1]
    | cons op ws' =>
      have hmem : op ∈ ws := by simp [hws']
      have hfull : op.format = p.data := by
        rw [(hw.alike op hmem).format, ← hrf]
        exact hf.resolve_left (hformat op hmem).2.2
      rw [hrl, ← (hw.alike op hmem).low]
      exact low_of_full (hws op hmem) hfull
  have hsome : ws = [] → rs = [] → status = true ∧ 0 < ops := by
    intro hwn hrn
    obtain ⟨hwf, -, hwhy⟩ := hw.empty hwn
    obtain ⟨hrf, -, hro⟩ := hr.empty hrn
    have hwo : w.ops = ops := by rw [hw.ops_eq, hwn, busCount_nil, Nat.add_zero]
    have hscan : w.scan = l := by rw [hw.split, hwn, List.nil_append]
    have hrscan : r.scan = l := by rw [← hscan, hr.split, hrn, List.nil_append]
    have hfull : maxops ≤ ops ∨ l = [] := by
      rcases hwhy with h | hnw
      · exact Or.inl h
      rcases hr.stuck hrn hwf with h | hw'
      · exact Or.inl (hwo ▸ h)
      rw [hscan] at hw'
      cases l with
      | nil => exact Or.inr rfl
      | cons op l => exact absurd ((hw' op rfl).symm.trans (hnw op rfl)) (by decide)
    rw [hst, hcount, hrf, hwf, hro, hwo, hrscan]
    rcases hfull with h | h
    · exact ⟨⟨hrn, Or.inl rfl, Or.inl h⟩, hmax.trans_le h⟩
    · exact ⟨⟨hrn, Or.inl rfl, Or.inr ⟨h, hentry h⟩⟩, (hentry h).2⟩
  have haw : ∀ op ∈ ws, Alike p true w.cfg (if status then p.data else r.format) r.lowAddr op := by
    intro op hop
    have ha := hw.alike op hop
    obtain ⟨hf, hlow, hne⟩ := hformat op hop
    have hfe : (if status then p.data else r.format) = w.format := by
      split
      · rename_i h
        rw [← hf]
        exact ((hst.mp h).2.1.resolve_left hne).symm
      · exact hf
    rw [hfe, hlow]
    exact ha
  have har : ∀ op ∈ rs, Alike p false r.cfg (if status then p.data else r.format) r.lowAddr op := by
    intro op hop
    have hf : status = false := by
      rw [Bool.eq_false_iff]
      intro h
      rw [(hstatus h).1] at hop
      simp at hop
    rw [hf]
    exact hr.alike op hop
  have hsplit : l = ws ++ rs ++ r.scan := by rw [List.append_assoc, ← hr.split, ← hw.split]
  have htake : l.take w.count = ws := by rw [hw.count, hw.split, List.take_left]
  have hdrop : (l.drop w.count).take r.count = rs := by
    rw [hw.count, hw.split, List.drop_left, hr.split, hr.count, List.take_left]
  refine ⟨ws, rs, status, ?_, ?_, ?_, ?_, ?_, ?_, ?_, hsome⟩
  · have hc := covers_record w.fifo (decide (r.scan = [] ∧
      (needsCheck = false ∨ r.ops = 0 ∨ status = true))) hrba hws hrs haw har hw.chain hw.count_le
      hr.count_le hstatus (fun h h' => (hsome h h').1)
    simp only [nextRecord, hwdef, hrdef, htake, hdrop]
    exact hc
  · simp only [nextRecord, hwdef, hrdef]
    exact hsplit
  · exact (recordFlags_bits _ _ _ _).2.2.2.2.2
  · simp only [nextRecord, hwdef, hrdef, ← hops]
    rfl
  · intro h
    rw [← hops]
    exact hr.ops_le (hw.ops_le h)
  · simp only [nextRecord, hwdef, hrdef, ← hops]
    exact fun h => (hst.mp h).2.2
  · simp only [nextRecord, hwdef, hrdef, ← hops]
    exact decide_eq_true_iff

/-- A cycle that has not ended has operations left, or waits for a status read. -/
theorem StepSpec.entry {needsCheck : Bool} {maxops rba ops : ℕ} {l ws rs : List Operation} {s : RecordStep}
    {status : Bool} (hs : StepSpec p needsCheck maxops rba ops l s ws rs status)
    (hend : s.cycleEnd = false) (hr : s.rest = []) : needsCheck = true ∧ 0 < s.ops := by
  have hnot : ¬ (s.rest = [] ∧ (needsCheck = false ∨ ops + busCount ws + busCount rs = 0 ∨
      status = true)) := by
    rw [← hs.ends, hend]
    decide
  have h : needsCheck = true ∧ ops + busCount ws + busCount rs ≠ 0 ∧ status = false := by
    refine ⟨?_, ?_, ?_⟩
    · cases needsCheck with
      | true => rfl
      | false => exact absurd ⟨hr, Or.inl rfl⟩ hnot
    · exact fun h0 => hnot ⟨hr, Or.inr (Or.inl h0)⟩
    · cases status with
      | true => exact absurd ⟨hr, Or.inr (Or.inr rfl)⟩ hnot
      | false => rfl
  rw [hs.ops_eq, h.2.2]
  exact ⟨h.1, by simpa using Nat.pos_of_ne_zero h.2.1⟩

theorem StepSpec.next_ops_le {needsCheck : Bool} {maxops rba ops : ℕ} {l ws rs : List Operation}
    {s : RecordStep} {status : Bool} (hs : StepSpec p needsCheck maxops rba ops l s ws rs status)
    (hops : ops ≤ maxops) : s.ops ≤ maxops := by
  have hle := hs.ops_le hops
  rw [hs.ops_eq]
  split <;> omega

/-- The operations that one record covers. -/
structure Segment where
  writes : List Operation
  reads : List Operation
  status : Bool

def Segment.operations (s : Segment) : List Operation := s.writes ++ s.reads

def segmentOperations (segs : List Segment) : List Operation := segs.flatMap Segment.operations

@[simp] theorem segmentOperations_nil : segmentOperations [] = [] := rfl

@[simp] theorem segmentOperations_cons (s : Segment) (segs : List Segment) :
    segmentOperations (s :: segs) = s.operations ++ segmentOperations segs := rfl

/-- Records that cover segments, when `ops` bus operations wait for their error bits. Only
the last record ends the cycle. A status read before it answers for `maxops` operations. -/
inductive Encoded (p : Port) (needsCheck : Bool) (maxops rba : ℕ) :
    ℕ → List Segment → List Record → Prop
  | last {ops : ℕ} {s : Segment} {r : Record} :
      Covers p rba s.writes s.reads s.status r → r.cyc = true →
      ops + busCount s.operations ≤ maxops →
      (s.status = true → ops + busCount s.operations = maxops ∨
        (needsCheck = true ∧ 0 < ops + busCount s.operations)) →
      (needsCheck = true → ops + busCount s.operations = 0 ∨ s.status = true) →
      Encoded p needsCheck maxops rba ops [s] [r]
  | cons {ops : ℕ} {s : Segment} {r : Record} {segs : List Segment} {recs : List Record} :
      Covers p rba s.writes s.reads s.status r → r.cyc = false →
      ops + busCount s.operations ≤ maxops →
      (s.status = true → ops + busCount s.operations = maxops) →
      Encoded p needsCheck maxops rba (if s.status then 0 else ops + busCount s.operations) segs recs →
      Encoded p needsCheck maxops rba ops (s :: segs) (r :: recs)

/-- The loop runs at most twice for each operation. -/
theorem recordLoop_spec {needsCheck : Bool} {maxops rba ops fuel : ℕ} {l : List Operation}
    (hrba : rba < 2 ^ 16) (hmax : 0 < maxops) (hops : ops ≤ maxops)
    (hl : ∀ op ∈ l, Formatted p op) (hentry : l = [] → needsCheck = true ∧ 0 < ops)
    (hfuel : 2 * l.length + (if 0 < ops then 1 else 0) ≤ fuel) :
    ∃ segs recs, recordLoop p needsCheck maxops rba fuel ops l = some recs ∧
      segmentOperations segs = l ∧ Encoded p needsCheck maxops rba ops segs recs := by
  induction fuel generalizing ops l with
  | zero =>
    have hnil : l = [] := List.length_eq_zero_iff.mp (by omega)
    rw [if_pos (hentry hnil).2] at hfuel
    omega
  | succ fuel ih =>
    obtain ⟨ws, rs, status, hs⟩ := nextRecord_spec hrba hmax hl hentry
    rw [recordLoop]
    generalize nextRecord p needsCheck maxops rba ops l = s at hs
    have hn : ops + busCount (ws ++ rs) = ops + busCount ws + busCount rs := by
      rw [busCount_append, Nat.add_assoc]
    have hle := hs.ops_le hops
    cases hend : s.cycleEnd with
    | true =>
      obtain ⟨hrest, hwhy⟩ := hs.ends.mp hend
      refine ⟨[⟨ws, rs, status⟩], [s.record], by simp, ?_, .last hs.covers (by rw [hs.cyc, hend]) ?_ ?_ ?_⟩
      · rw [hs.split, hrest]
        simp [Segment.operations]
      · simp only [Segment.operations, hn]
        exact hle
      · simp only [Segment.operations, hn]
        intro h
        rcases hs.due h with h' | h'
        · exact Or.inl (Nat.le_antisymm hle h')
        · exact Or.inr h'.2
      · simp only [Segment.operations, hn]
        intro h
        rcases hwhy with h' | h' | h'
        · exact absurd (h.symm.trans h') (by decide)
        · exact Or.inl h'
        · exact Or.inr h'
    | false =>
      have hnot : ¬ (s.rest = [] ∧ (needsCheck = false ∨ ops + busCount ws + busCount rs = 0 ∨
          status = true)) := by
        rw [← hs.ends, hend]
        decide
      have hdue : status = true → ops + busCount ws + busCount rs = maxops := by
        intro h
        rcases hs.due h with h' | h'
        · exact Nat.le_antisymm hle h'
        · exact absurd ⟨h'.1, Or.inr (Or.inr h)⟩ hnot
      have hlen : l.length = ws.length + rs.length + s.rest.length := by
        rw [hs.split, List.length_append, List.length_append]
      have hfuel' : 2 * s.rest.length + (if 0 < s.ops then 1 else 0) ≤ fuel := by
        by_cases hempty : ws = [] ∧ rs = []
        · obtain ⟨hst, hpos⟩ := hs.shorter hempty.1 hempty.2
          rw [if_pos hpos] at hfuel
          rw [hs.ops_eq, if_pos hst]
          simp only [lt_self_iff_false, if_false]
          omega
        · have : 0 < ws.length + rs.length := by
            rw [not_and_or] at hempty
            rcases hempty with h | h <;> have := List.length_pos_iff.mpr h <;> omega
          split <;> split at hfuel <;> omega
      obtain ⟨segs, recs, hrun, hcover, henc⟩ := ih (hs.next_ops_le hops)
        (fun op h => hl op (by rw [hs.split]; simp [h])) (hs.entry hend) hfuel'
      refine ⟨⟨ws, rs, status⟩ :: segs, s.record :: recs, by simp [hrun], ?_, .cons hs.covers
        (by rw [hs.cyc, hend]) ?_ ?_ ?_⟩
      · rw [segmentOperations_cons, hcover, Segment.operations, ← hs.split]
      · simp only [Segment.operations, hn]
        exact hle
      · simp only [Segment.operations, hn]
        exact hdue
      · simp only [Segment.operations, hn, ← hs.ops_eq]
        exact henc

theorem maxOps_pos (p : Port) (needsCheck : Bool) : 0 < maxOps p needsCheck := by
  have := p.data_pos
  simp only [maxOps, Port.stride]
  split <;> omega

/-- Whether the cycle was closed with `eb_cycle_close`. -/
def needsCheck (l : List Operation) : Bool := (l.head?.map Operation.checked).getD false

/-- Every checked cycle is encoded, and its records cover its operations. -/
theorem encodeCycle_spec {rba : ℕ} {l : List Operation} (hrba : rba < 2 ^ 16) (hne : l ≠ [])
    (hl : ∀ op ∈ l, Formatted p op) :
    ∃ segs recs, encodeCycle p rba l = some recs ∧ segmentOperations segs = l ∧
      Encoded p (needsCheck l) (maxOps p (needsCheck l)) rba 0 segs recs :=
  recordLoop_spec hrba (maxOps_pos p _) (Nat.zero_le _) hl (fun h => absurd h hne) (by simp)

end WhiteRabbit.Etherbone
