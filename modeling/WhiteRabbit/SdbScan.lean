import WhiteRabbit.SdbTables
import Mathlib.Data.List.GetD

/-!
# Scanning an SDB table

A scan reads the table in two cycles: first half of the interconnect record, which tells the number
of records, then the whole table. The second answer is decoded in a buffer on the stack whose
size is the next of seven sizes. What the buffer holds before is arbitrary.
-/

namespace WhiteRabbit.Etherbone
open BigEndian

/-- A call of the user's callback. -/
structure SdbReport where
  status : Status
  table : Option SdbTable
  deriving DecidableEq

/-- What a callback of the scan does next: call the user back, or read at some addresses in
a new cycle. -/
inductive SdbNext where
  | report (r : SdbReport)
  | read (addresses : List ℕ)
  deriving DecidableEq

inductive Fill where
  | failed | complete | more
  deriving DecidableEq

/-- `eb_sdb_fill_block`, with the bytes it wrote. -/
def ebSdbFillBlock : ℕ → List Operation → Fill × Bytes
  | _, [] => (.complete, [])
  | room, op :: ops =>
    if op.error then (.failed, [])
    else if room < op.size then (.more, [])
    else
      let (result, bytes) := ebSdbFillBlock (room - op.size) ops
      (result, encode op.size op.value ++ bytes)

/-- A buffer of `size` bytes on the stack of which the first ones were written. -/
def onStack (stale : ℕ → UInt8) (size : ℕ) (written : Bytes) : Bytes :=
  written ++ (List.range' written.length (size - written.length)).map stale

/-- The record `i` of a table. -/
def sdbRecordAt (buf : Bytes) (i : ℕ) : Bytes := (buf.drop (64 * i)).take 64

/-- Endian fixup of a whole table. -/
def decodeTable (busBase : ℕ) (buf : Bytes) : SdbTable :=
  let interconnect := decodeInterconnect busBase (sdbRecordAt buf 0)
  { interconnect := interconnect
    record := (List.range (interconnect.sdbRecords - 1)).map fun i =>
      decodeRecord busBase (sdbRecordAt buf (i + 1)) }

/-- `eb_sdb_decode`, with a buffer of `size` bytes. -/
def ebSdbDecode (stale : ℕ → UInt8) (busBase size : ℕ) (ops : List Operation) : SdbReport :=
  match ebSdbFillBlock size ops with
  | (.complete, bytes) =>
    let sdb := decodeTable busBase (onStack stale size bytes)
    if 64 * sdb.interconnect.sdbRecords > size then ⟨.fail, none⟩ else ⟨.ok, some sdb⟩
  | _ => ⟨.fail, none⟩

/-- The number of records behind the first one for which `eb_sdb_got_all` has a buffer. -/
def sdbClass (devices : ℕ) : Option ℕ := [4, 8, 16, 32, 64, 128, 256].find? fun x => devices < x

/-- `eb_sdb_got_all`. -/
def ebSdbGotAll (stale : ℕ → UInt8) (busBase : ℕ) (status : Status) (ops : List Operation) : SdbReport :=
  if status ≠ .ok then ⟨status, none⟩
  else
    match ebSdbFillBlock 64 ops with
    | (.more, header) =>
      let devices := (field header 4 2 + 0xFFFF) % 2 ^ 16
      match sdbClass devices with
      | some x => ebSdbDecode stale busBase (64 * (x + 1)) ops
      | none => ⟨.oom, none⟩
    | _ => ⟨.fail, none⟩

section Port

variable (p : Port)

/-- The addresses that a loop of reads visits, from `address` on. -/
def readAddresses (address length : ℕ) : List ℕ :=
  (List.range (((address + length) % 256 ^ p.word - address) / p.data)).map fun i => address + i * p.data

/-- `eb_sdb_got_header`. `opened` is what `eb_cycle_open` returns, and `staleAddress` what
`eb_operation_address` returns for no operation. -/
def ebSdbGotHeader (stale : ℕ → UInt8) (staleAddress : ℕ) (opened status : Status) (ops : List Operation) :
    SdbNext :=
  if status ≠ .ok then .report ⟨status, none⟩
  else
    match ebSdbFillBlock 64 ops with
    | (.complete, bytes) =>
      let header := onStack stale 64 bytes
      if field header 0 4 ≠ sdbMagic then .report ⟨.fail, none⟩
      else if opened ≠ .ok then .report ⟨opened, none⟩
      else
        let address := (ops.head?.map Operation.address).getD staleAddress
        .read (readAddresses p address (field header 4 2 * 64 % 256 ^ p.word))
    | _ => .report ⟨.fail, none⟩

/-- The address of the table from partial reads. -/
def headerAddress (ops : List Operation) : ℕ :=
  ops.foldl (fun address op => ((address <<< (p.stride * 8)) + op.value) % 256 ^ p.word) 0

/-- `eb_sdb_got_header_ptr`. -/
def ebSdbGotHeaderPtr (opened status : Status) (ops : List Operation) : SdbNext :=
  if status ≠ .ok then .report ⟨status, none⟩
  else if ops.any Operation.error then .report ⟨.fail, none⟩
  else if opened ≠ .ok then .report ⟨opened, none⟩
  else .read (readAddresses p (headerAddress p ops) 32)

end Port

/-- How a cycle ends: the status of its callback, and its operations. -/
structure Answer where
  status : Status
  ops : List Operation

/-- Error-free reads of a memory. -/
def readMemory (p : Port) (memory : ℕ → UInt8) (addresses : List ℕ) : Answer where
  status := .ok
  ops := addresses.map fun a =>
    ⟨a, decode ((List.range p.data).map fun i => memory (a + i)), .readVal, false, false, true, p.data⟩

theorem readMemory_size {p : Port} {memory : ℕ → UInt8} {addresses : List ℕ} {op : Operation}
    (h : op ∈ (readMemory p memory addresses).ops) : op.size = p.data := by
  obtain ⟨a, -, rfl⟩ := List.mem_map.mp h
  change p.data &&& ebDataX = p.data
  rcases p.data_mem with hd | hd | hd | hd <;> rw [hd] <;> rfl

/-- All that a scan meets: what the stack held before the two buffers, whether cycles can be
opened, and how the cycles end that read at given addresses. -/
structure ScanWorld where
  staleHeader : ℕ → UInt8
  staleTable : ℕ → UInt8
  staleAddress : ℕ
  openHeader : Status
  openAll : Status
  pointer : Answer
  header : List ℕ → Answer
  all : List ℕ → Answer

section Scan

variable (p : Port) (w : ScanWorld) (busBase : ℕ)

/-- The rest of a scan: the callback, and the operations of the cycle that read the table. -/
def sdbScan : SdbNext → SdbReport × List Operation
  | .report r => (r, [])
  | .read addresses =>
    match ebSdbGotHeader p w.staleHeader w.staleAddress w.openAll (w.header addresses).status
        (w.header addresses).ops with
    | .report r => (r, [])
    | .read addresses =>
      (ebSdbGotAll w.staleTable busBase (w.all addresses).status (w.all addresses).ops,
        (w.all addresses).ops)

/-- `eb_sdb_scan_root`, once its first cycle is closed. -/
def ebSdbScanRoot : SdbReport × List Operation :=
  sdbScan p w 0 (ebSdbGotHeaderPtr p w.openHeader w.pointer.status w.pointer.ops)

/-- `eb_sdb_scan_bus` on a bridge, once its first cycle is closed. -/
def ebSdbScanBus (bridge : SdbBridge) : SdbReport × List Operation :=
  sdbScan p w (bridge.sdbComponent.addrFirst % 256 ^ p.word)
    (.read (readAddresses p (bridge.sdbChild % 256 ^ p.word) 32))

end Scan

/-- Everything in a table that is reported with success was read, without an error. -/
def ReportsRead (stride : ℕ) (scan : SdbReport × List Operation) : Prop :=
  match scan.1.table with
  | none => scan.1.status ≠ .ok
  | some table => scan.1.status = .ok ∧ ∀ i < 64 * table.interconnect.sdbRecords,
      ∃ op, scan.2[i / stride]? = some op ∧ op.error = false

section Fill

variable {stride room : ℕ} {ops : List Operation}

/-- The bytes that the operations read. -/
def opBytes (ops : List Operation) : Bytes := ops.flatMap fun op => encode op.size op.value

theorem length_opBytes (hsize : ∀ op ∈ ops, op.size = stride) : (opBytes ops).length = ops.length * stride := by
  induction ops with
  | nil => simp [opBytes]
  | cons op ops ih =>
    obtain ⟨hop, hops⟩ := List.forall_mem_cons.mp hsize
    have htail := ih hops
    rw [opBytes] at htail
    rw [opBytes, List.flatMap_cons, List.length_append, length_encode, htail, hop, List.length_cons]
    ring

/-- A complete block holds all operations, and none had an error. -/
theorem ebSdbFillBlock_complete {bytes : Bytes} (h : ebSdbFillBlock room ops = (.complete, bytes)) :
    bytes = opBytes ops ∧ ∀ op ∈ ops, op.error = false := by
  induction ops generalizing room bytes with
  | nil =>
    cases h
    exact ⟨rfl, by simp⟩
  | cons op ops ih =>
    rw [ebSdbFillBlock] at h
    split at h
    · simp at h
    rename_i herror
    split at h
    · simp at h
    rcases hrest : ebSdbFillBlock (room - op.size) ops with ⟨result, rest⟩
    rw [hrest] at h
    cases h
    obtain ⟨hbytes, hall⟩ := ih hrest
    refine ⟨by rw [hbytes]; rfl, List.forall_mem_cons.mpr ⟨by simpa using herror, hall⟩⟩

/-- Without errors the block is filled as far as there is room. -/
theorem ebSdbFillBlock_eq (hstride : 0 < stride) (hsize : ∀ op ∈ ops, op.size = stride)
    (hok : ∀ op ∈ ops, op.error = false) : ebSdbFillBlock room ops =
      if ops.length * stride ≤ room then (.complete, opBytes ops)
      else (.more, opBytes (ops.take (room / stride))) := by
  induction ops generalizing room with
  | nil => simp [ebSdbFillBlock, opBytes]
  | cons op ops ih =>
    obtain ⟨hop, hops⟩ := List.forall_mem_cons.mp hsize
    obtain ⟨herror, hoks⟩ := List.forall_mem_cons.mp hok
    rw [ebSdbFillBlock, herror, if_neg Bool.false_ne_true, hop, List.length_cons, Nat.succ_mul]
    by_cases hroom : room < stride
    · rw [if_pos hroom, if_neg (by omega), Nat.div_eq_of_lt hroom]
      rfl
    · have hle := Nat.le_of_not_lt hroom
      rw [if_neg hroom, ih hops hoks, Nat.div_eq_sub_div hstride hle]
      by_cases hfits : ops.length * stride + stride ≤ room
      · rw [if_pos (by omega), if_pos hfits]
        simp [opBytes, hop]
      · rw [if_neg (by omega), if_neg hfits]
        simp [opBytes, hop]

theorem field_take {bs : Bytes} {offset n m : ℕ} (h : offset + n ≤ m) :
    field (bs.take m) offset n = field bs offset n := by
  rw [field, field, List.drop_take, List.take_take, Nat.min_eq_left (by omega)]

theorem field_append {bs rest : Bytes} {offset n : ℕ} (h : offset + n ≤ bs.length) :
    field (bs ++ rest) offset n = field bs offset n := by
  rw [field, field, List.drop_append_of_le_length (by omega),
    List.take_append_of_le_length (by rw [List.length_drop]; omega)]

theorem opBytes_take (hsize : ∀ op ∈ ops, op.size = stride) (n : ℕ) :
    opBytes (ops.take n) = (opBytes ops).take (n * stride) := by
  have hlength : (opBytes (ops.take n)).length = (ops.take n).length * stride :=
    length_opBytes fun op h => hsize op (List.mem_of_mem_take h)
  have hsplit : opBytes ops = opBytes (ops.take n) ++ opBytes (ops.drop n) := by
    rw [opBytes, opBytes, opBytes, ← List.flatMap_append, List.take_append_drop]
  by_cases h : n ≤ ops.length
  · rw [List.length_take, Nat.min_eq_left h] at hlength
    rw [hsplit, List.take_left' hlength]
  · have hle := Nat.le_of_not_le h
    rw [List.take_of_length_le hle, List.take_of_length_le]
    rw [length_opBytes hsize]
    exact Nat.mul_le_mul_right _ hle

end Fill

theorem sdbClass_lt {devices x : ℕ} (h : sdbClass devices = some x) : devices < x ∧ x ≤ 256 := by
  rw [sdbClass] at h
  have hmem := List.mem_of_find?_eq_some h
  refine ⟨by simpa using List.find?_some h, ?_⟩
  simp only [List.mem_cons, List.not_mem_nil, or_false] at hmem
  omega

theorem sdbClass_none {devices : ℕ} (h : sdbClass devices = none) : 256 ≤ devices := by
  rw [sdbClass] at h
  simpa using List.find?_eq_none.mp h 256 (by decide)

section Cases

variable (stale : ℕ → UInt8) (busBase : ℕ) (status : Status) (ops : List Operation)

/-- A table is decoded when all operations fit the buffer. -/
theorem ebSdbDecode_cases (size : ℕ) : ebSdbDecode stale busBase size ops = ⟨.fail, none⟩ ∨
    ∃ bytes, ebSdbFillBlock size ops = (.complete, bytes) ∧ ebSdbDecode stale busBase size ops =
      ⟨.ok, some (decodeTable busBase (onStack stale size bytes))⟩ := by
  rw [ebSdbDecode]
  split
  · rename_i bytes hfill
    dsimp only
    split
    · exact .inl rfl
    · exact .inr ⟨bytes, hfill, rfl⟩
  · exact .inl rfl

/-- The second cycle is decoded when it holds more than a header. -/
theorem ebSdbGotAll_cases : (∃ failure, failure ≠ .ok ∧ ebSdbGotAll stale busBase status ops = ⟨failure, none⟩) ∨
    status = .ok ∧ ∃ header x, ebSdbFillBlock 64 ops = (.more, header) ∧
      sdbClass ((field header 4 2 + 0xFFFF) % 2 ^ 16) = some x ∧
      ebSdbGotAll stale busBase status ops = ebSdbDecode stale busBase (64 * (x + 1)) ops := by
  rw [ebSdbGotAll]
  split
  · rename_i hstatus
    exact .inl ⟨status, hstatus, rfl⟩
  · rename_i hstatus
    split
    · rename_i header hfill
      dsimp only
      cases hclass : sdbClass ((field header 4 2 + 0xFFFF) % 2 ^ 16) with
      | some x => exact .inr ⟨Decidable.not_not.mp hstatus, header, x, hfill, hclass, rfl⟩
      | none => exact .inl ⟨.oom, by decide, rfl⟩
    · exact .inl ⟨.fail, by decide, rfl⟩

/-- A scan reports success with a table, and anything else without one. -/
theorem ebSdbGotAll_report : (∃ failure, failure ≠ .ok ∧ ebSdbGotAll stale busBase status ops = ⟨failure, none⟩) ∨
    status = .ok ∧ (∀ op ∈ ops, op.error = false) ∧ ∃ header x, ebSdbFillBlock 64 ops = (.more, header) ∧
      sdbClass ((field header 4 2 + 0xFFFF) % 2 ^ 16) = some x ∧
      ebSdbGotAll stale busBase status ops =
        ⟨.ok, some (decodeTable busBase (onStack stale (64 * (x + 1)) (opBytes ops)))⟩ := by
  cases ebSdbGotAll_cases stale busBase status ops with
  | inl h => exact .inl h
  | inr h =>
    obtain ⟨hstatus, header, x, hfill, hclass, hall⟩ := h
    cases ebSdbDecode_cases stale busBase ops (64 * (x + 1)) with
    | inl hfail => exact .inl ⟨.fail, by decide, hall.trans hfail⟩
    | inr h =>
      obtain ⟨bytes, hcomplete, hok⟩ := h
      obtain ⟨rfl, herrors⟩ := ebSdbFillBlock_complete hcomplete
      exact .inr ⟨hstatus, herrors, header, x, hfill, hclass, hall.trans hok⟩

end Cases

/-- The length of the table, as the second cycle read it. -/
def recordsRead (ops : List Operation) : ℕ := field (opBytes ops) 4 2

theorem recordsRead_lt (ops : List Operation) : recordsRead ops < 2 ^ 16 := by
  have hlt := decode_lt (((opBytes ops).drop 4).take 2)
  have hle : (((opBytes ops).drop 4).take 2).length ≤ 2 := List.length_take_le _ _
  exact Nat.lt_of_lt_of_le hlt (Nat.pow_le_pow_right (by decide) hle)

section Stride

variable {stride : ℕ} {ops : List Operation} (hsize : ∀ op ∈ ops, op.size = stride)
include hsize

/-- The decoded table says of its length what was read. -/
theorem decodeTable_records (stale : ℕ → UInt8) (busBase size : ℕ) (hlong : 64 < ops.length * stride) :
    (decodeTable busBase (onStack stale size (opBytes ops))).interconnect.sdbRecords = recordsRead ops := by
  have hlength := length_opBytes hsize
  change field (sdbRecordAt (onStack stale size (opBytes ops)) 0) 4 2 = recordsRead ops
  rw [sdbRecordAt, Nat.mul_zero, List.drop_zero, field_take (by decide), onStack, field_append (by omega),
    recordsRead]

variable (hdvd : stride ∣ 64) (hpos : 0 < stride)
include hdvd hpos

/-- The header of an error-free cycle. -/
theorem header_records (herrors : ∀ op ∈ ops, op.error = false) (hlong : 64 < ops.length * stride) :
    ∃ header, ebSdbFillBlock 64 ops = (.more, header) ∧ field header 4 2 = recordsRead ops := by
  refine ⟨_, by rw [ebSdbFillBlock_eq hpos hsize herrors, if_neg (Nat.not_le.mpr hlong)], ?_⟩
  rw [opBytes_take hsize, Nat.div_mul_cancel hdvd, field_take (by decide), recordsRead]

/-- The second cycle is decoded when it fits the buffer that its header asks for. -/
theorem ebSdbGotAll_ok (stale : ℕ → UInt8) (busBase : ℕ) (herrors : ∀ op ∈ ops, op.error = false)
    (hlong : 64 < ops.length * stride) {x : ℕ}
    (hclass : sdbClass ((recordsRead ops + 0xFFFF) % 2 ^ 16) = some x)
    (hfits : ops.length * stride ≤ 64 * (x + 1)) (hrecords : recordsRead ops ≤ x + 1) :
    ebSdbGotAll stale busBase .ok ops =
      ⟨.ok, some (decodeTable busBase (onStack stale (64 * (x + 1)) (opBytes ops)))⟩ := by
  obtain ⟨header, hfill, hheader⟩ := header_records hsize hdvd hpos herrors hlong
  have htable := decodeTable_records hsize stale busBase (64 * (x + 1)) hlong
  rw [ebSdbGotAll, if_neg (by simp), hfill]
  dsimp only
  rw [hheader, hclass]
  dsimp only
  rw [ebSdbDecode, ebSdbFillBlock_eq hpos hsize herrors, if_pos hfits]
  dsimp only
  rw [htable, if_neg (by omega)]

end Stride

/-- An error-free second cycle that holds more than a header, and finds a length for which there is
a buffer, is as long as it finds. -/
def CoversTable (stride : ℕ) (status : Status) (ops : List Operation) : Prop :=
  status = .ok → (∀ op ∈ ops, op.error = false) → 64 < ops.length * stride →
    1 ≤ recordsRead ops → recordsRead ops ≤ 256 → 64 * recordsRead ops ≤ ops.length * stride

/-- The table is reported from read bytes exactly when the second cycle covers it. -/
theorem gotAll_reportsRead {stride : ℕ} {ops : List Operation} (hsize : ∀ op ∈ ops, op.size = stride)
    (hdvd : stride ∣ 64) (hpos : 0 < stride) (stale : ℕ → UInt8) (busBase : ℕ) (status : Status) :
    ReportsRead stride (ebSdbGotAll stale busBase status ops, ops) ↔ CoversTable stride status ops := by
  have hlt := recordsRead_lt ops
  constructor
  · rintro h rfl herrors hlong hone hle
    by_contra hshort
    cases hclass : sdbClass ((recordsRead ops + 0xFFFF) % 2 ^ 16) with
    | none =>
      have := sdbClass_none hclass
      omega
    | some x =>
      obtain ⟨hx, -⟩ := sdbClass_lt hclass
      have hok := ebSdbGotAll_ok hsize hdvd hpos stale busBase herrors hlong hclass (by omega) (by omega)
      rw [hok] at h
      obtain ⟨-, hall⟩ := h
      rw [decodeTable_records hsize stale busBase _ hlong] at hall
      obtain ⟨op, hop, -⟩ := hall (ops.length * stride) (Nat.lt_of_not_le hshort)
      rw [Nat.mul_div_cancel _ hpos, List.getElem?_eq_none (Nat.le_refl _)] at hop
      simp at hop
  · intro h
    cases ebSdbGotAll_report stale busBase status ops with
    | inl hfail =>
      obtain ⟨failure, hne, hfail⟩ := hfail
      rw [hfail]
      exact hne
    | inr hok =>
      obtain ⟨hstatus, herrors, header, x, hfill, hclass, hok⟩ := hok
      have hlong : 64 < ops.length * stride := by
        by_contra hshort
        rw [ebSdbFillBlock_eq hpos hsize herrors, if_pos (Nat.le_of_not_lt hshort)] at hfill
        simp at hfill
      obtain ⟨header', hfill', hheader⟩ := header_records hsize hdvd hpos herrors hlong
      obtain ⟨-, rfl⟩ := Prod.mk.inj (hfill.symm.trans hfill')
      rw [hheader] at hclass
      obtain ⟨hx, hx'⟩ := sdbClass_lt hclass
      have hcovered := h hstatus herrors hlong (by omega) (by omega)
      rw [hok]
      refine ⟨rfl, fun i hi => ?_⟩
      rw [decodeTable_records hsize stale busBase _ hlong] at hi
      have hindex : i / stride < ops.length := Nat.div_lt_of_lt_mul (by rw [Nat.mul_comm]; omega)
      exact ⟨ops[i / stride], List.getElem?_eq_getElem hindex, herrors _ (List.getElem_mem hindex)⟩

instance (stride : ℕ) (status : Status) (ops : List Operation) : Decidable (CoversTable stride status ops) :=
  inferInstanceAs (Decidable (_ → _ → _ → _ → _ → _))

section World

variable (p : Port) (w : ScanWorld)

/-- The second cycle of a scan, if it comes that far, covers the table it finds. -/
def SecondCovers : SdbNext → Prop
  | .report _ => True
  | .read addresses =>
    match ebSdbGotHeader p w.staleHeader w.staleAddress w.openAll (w.header addresses).status
        (w.header addresses).ops with
    | .report _ => True
    | .read addresses => CoversTable p.data (w.all addresses).status (w.all addresses).ops

instance : (next : SdbNext) → Decidable (SecondCovers p w next)
  | .report _ => isTrue trivial
  | .read addresses =>
    match h : ebSdbGotHeader p w.staleHeader w.staleAddress w.openAll (w.header addresses).status
        (w.header addresses).ops with
    | .report _ => isTrue (by rw [SecondCovers, h]; trivial)
    | .read bs => decidable_of_iff (CoversTable p.data (w.all bs).status (w.all bs).ops)
        (by rw [SecondCovers, h])

variable {p w}

theorem secondCovers_read {addresses bs : List ℕ}
    (h : ebSdbGotHeader p w.staleHeader w.staleAddress w.openAll (w.header addresses).status
      (w.header addresses).ops = .read bs) :
    SecondCovers p w (.read addresses) ↔ CoversTable p.data (w.all bs).status (w.all bs).ops := by
  rw [SecondCovers, h]

/-- Before the table is read, only failures are reported. -/
theorem gotHeader_report {stale : ℕ → UInt8} {staleAddress : ℕ} {opened status : Status} {ops : List Operation}
    {r : SdbReport} (h : ebSdbGotHeader p stale staleAddress opened status ops = .report r) :
    r.table = none ∧ r.status ≠ .ok := by
  rw [ebSdbGotHeader] at h
  split at h
  · rename_i hstatus
    cases h
    exact ⟨rfl, hstatus⟩
  · split at h
    · dsimp only at h
      split at h
      · cases h
        exact ⟨rfl, by decide⟩
      · split at h
        · rename_i hopened
          cases h
          exact ⟨rfl, hopened⟩
        · simp at h
    · cases h
      exact ⟨rfl, by decide⟩

theorem gotHeaderPtr_report {opened status : Status} {ops : List Operation} {r : SdbReport}
    (h : ebSdbGotHeaderPtr p opened status ops = .report r) : r.table = none ∧ r.status ≠ .ok := by
  rw [ebSdbGotHeaderPtr] at h
  split at h
  · rename_i hstatus
    cases h
    exact ⟨rfl, hstatus⟩
  · split at h
    · cases h
      exact ⟨rfl, by decide⟩
    · split at h
      · rename_i hopened
        cases h
        exact ⟨rfl, hopened⟩
      · simp at h

theorem reportsRead_failure {r : SdbReport} (h : r.table = none ∧ r.status ≠ .ok) (stride : ℕ)
    (ops : List Operation) : ReportsRead stride (r, ops) := by
  rw [ReportsRead]
  dsimp only
  rw [h.1]
  exact h.2

/-- Reads of full width come back with the size of the data port. -/
def FullWidth (p : Port) (w : ScanWorld) : Prop :=
  ∀ addresses, (w.all addresses).status = .ok → ∀ op ∈ (w.all addresses).ops, op.size = p.data

theorem sdbScan_reportsRead (hsize : FullWidth p w) (busBase : ℕ) (next : SdbNext)
    (hnext : ∀ r, next = .report r → r.table = none ∧ r.status ≠ .ok) :
    ReportsRead p.data (sdbScan p w busBase next) ↔ SecondCovers p w next := by
  cases next with
  | report r => exact iff_of_true (reportsRead_failure (hnext r rfl) _ _) trivial
  | read addresses =>
    rw [sdbScan, SecondCovers]
    split
    · rename_i r hr
      exact iff_of_true (reportsRead_failure (gotHeader_report hr) _ _) trivial
    · rename_i bs hbs
      have hdvd : p.data ∣ 64 := by
        obtain ⟨k, hk, hpow⟩ := p.data_mem.eq_pow
        rw [hpow]
        exact Nat.pow_dvd_pow 2 (Nat.le_trans hk (by decide : 3 ≤ 6))
      by_cases hstatus : (w.all bs).status = .ok
      · exact gotAll_reportsRead (hsize bs hstatus) hdvd p.data_pos _ _ _
      · refine iff_of_true (reportsRead_failure ?_ _ _) fun h => absurd h hstatus
        rw [ebSdbGotAll, if_pos hstatus]
        exact ⟨rfl, hstatus⟩

theorem scanRoot_reportsRead (hsize : FullWidth p w) : ReportsRead p.data (ebSdbScanRoot p w) ↔
    SecondCovers p w (ebSdbGotHeaderPtr p w.openHeader w.pointer.status w.pointer.ops) :=
  sdbScan_reportsRead hsize _ _ fun _ hr => gotHeaderPtr_report hr

/-- A scan reports only bytes it has read exactly when its second cycle covers the table. -/
theorem scan_reportsRead_iff (hsize : FullWidth p w) :
    (ReportsRead p.data (ebSdbScanRoot p w) ↔
      SecondCovers p w (ebSdbGotHeaderPtr p w.openHeader w.pointer.status w.pointer.ops)) ∧
    ∀ bridge : SdbBridge, (ReportsRead p.data (ebSdbScanBus p w bridge) ↔
      SecondCovers p w (.read (readAddresses p (bridge.sdbChild % 256 ^ p.word) 32))) := by
  refine ⟨scanRoot_reportsRead hsize, fun bridge => ?_⟩
  exact sdbScan_reportsRead hsize _ _ fun r hr => by simp at hr

end World

namespace Sample

/-- A 16-bit bus on a 32-bit build. -/
theorem sdbPort_sizes : ((4 : ℕ) = 2 ∨ 4 = 4 ∨ 4 = 8) ∧ IsSize 2 ∧ IsSize 2 ∧ 2 ≤ 4 ∧ 2 ≤ 4 := by decide

def sdbPort : Port := .ofSizes 4 2 2 sdbPort_sizes

/-- A table that has `first` records when its header is read, and `second` ones afterwards. -/
def changingTable (first second : UInt8) : ScanWorld where
  staleHeader := fun _ => 0
  staleTable := fun _ => 0
  staleAddress := 0
  openHeader := .ok
  openAll := .ok
  pointer := readMemory sdbPort (fun _ => 0) [8, 10, 12, 14]
  header := readMemory sdbPort fun i => [0x53, 0x44, 0x42, 0x2D, 0, first].getD i 0
  all := readMemory sdbPort fun i => [0x53, 0x44, 0x42, 0x2D, 0, second].getD i 0

theorem fullWidth_changingTable (first second : UInt8) : FullWidth sdbPort (changingTable first second) := by
  intro addresses _ op hop
  simp only [changingTable] at hop
  exact readMemory_size hop

theorem pointer_changingTable (first second : UInt8) :
    ebSdbGotHeaderPtr sdbPort (changingTable first second).openHeader
    (changingTable first second).pointer.status (changingTable first second).pointer.ops =
      .read ((List.range 16).map (2 * ·)) := by
  change ebSdbGotHeaderPtr sdbPort .ok .ok (readMemory sdbPort (fun _ => 0) [8, 10, 12, 14]).ops = _
  decide +kernel

theorem steady_table_read : ReportsRead sdbPort.data (ebSdbScanRoot sdbPort (changingTable 2 2)) := by
  have hheader : ebSdbGotHeader sdbPort (fun _ => 0) 0 .ok .ok
      ((changingTable 2 2).header ((List.range 16).map (2 * ·))).ops = .read ((List.range 64).map (2 * ·)) := by
    decide +kernel
  apply (scan_reportsRead_iff (fullWidth_changingTable 2 2)).1.mpr
  rw [pointer_changingTable, secondCovers_read hheader]
  decide +kernel

/-- A table that grows from two to five records between the two reads: the last three are reported
without having been read. -/
theorem growing_table_unread : ¬ ReportsRead sdbPort.data (ebSdbScanRoot sdbPort (changingTable 2 5)) := by
  intro h
  have hheader : ebSdbGotHeader sdbPort (fun _ => 0) 0 .ok .ok
      ((changingTable 2 5).header ((List.range 16).map (2 * ·))).ops = .read ((List.range 64).map (2 * ·)) := by
    decide +kernel
  have hcovers := (scanRoot_reportsRead (fullWidth_changingTable 2 5)).mp h
  rw [pointer_changingTable, secondCovers_read hheader] at hcovers
  exact absurd hcovers (by decide +kernel)

end Sample

end WhiteRabbit.Etherbone
