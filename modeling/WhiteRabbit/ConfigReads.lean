import WhiteRabbit.CycleEncoding
import WhiteRabbit.ErrorRegister
import WhiteRabbit.RecordExecution

/-!
# Reads of the config space

A config read carries its address and, like any operation, the lanes it uses; the slave rebuilds the low
address bits from the lanes. Config space is big endian, so a little-endian operation reads the bytes
that are on its lanes, not those at its address.
-/

namespace WhiteRabbit.Etherbone
open BigEndian

/-- Byte `i` of the config space: the error register, then zeros. -/
def configByte (error i : ℕ) : UInt8 := (errorBytes error)[i]?.getD 0

/-- The config bytes from `a` to `a + size`, big endian. -/
def configValue (error a size : ℕ) : ℕ := decode ((List.range size).map fun i => configByte error (a + i))

/-- The big-endian address of the lanes of an operation. Without an endian, or with a big one, it is the
address of the operation. -/
def configAddress (p : Port) (op : Operation) : ℕ :=
  if op.endian = ebLittleEndian then
    op.address / p.data * p.data + (p.data - (op.address % p.data + op.size))
  else op.address

def Access.configRead : Access → Option (ℕ × ℕ)
  | .readConfig widths addr => some (widths, addr)
  | _ => none

/-- The arguments of a call of `eb_socket_read_config`. -/
def Event.configRead : Event → Option (ℕ × ℕ)
  | .readConfig widths addr _ => some (widths, addr)
  | _ => none

section Bytes

variable {error a size widths : ℕ}

theorem length_errorBytes (error : ℕ) : (errorBytes error).length = 16 := by
  rw [errorBytes, List.length_append, length_encode, List.length_replicate]

theorem configByte_zero {i : ℕ} (hi : 8 ≤ i) : configByte error i = 0 := by
  rw [configByte, errorBytes, List.getElem?_append_right (by rw [length_encode]; exact hi),
    List.getElem?_replicate]
  split
  · rfl
  · rfl

theorem decode_zeros (n : ℕ) : decode (List.replicate n 0) = 0 := by
  induction n with
  | zero => rfl
  | succ n ih => rw [List.replicate_succ, decode_cons, ih]; simp

theorem configValue_lt (error a size : ℕ) : configValue error a size < 256 ^ size := by
  have hlt := decode_lt ((List.range size).map fun i => configByte error (a + i))
  rwa [List.length_map, List.length_range] at hlt

/-- The reads that the socket answers are reads of bytes. -/
theorem ebSocketReadConfig_eq (hsize : size ≤ 8) (hwidths : widths &&& ebDataX = size) :
    ebSocketReadConfig widths a error = configValue error a size := by
  rw [ebSocketReadConfig, configValue, hwidths]
  split
  · rename_i ha
    have hzeros : ((List.range size).map fun i => configByte error (a + i)) = List.replicate size 0 := by
      apply List.eq_replicate_iff.mpr
      refine ⟨by rw [List.length_map, List.length_range], fun b hb => ?_⟩
      obtain ⟨i, -, rfl⟩ := List.mem_map.mp hb
      exact configByte_zero (by omega)
    rw [hzeros, decode_zeros]
  · rename_i ha
    congr 1
    apply List.ext_getElem
    · simp [length_errorBytes]
      omega
    · intro i hi _
      simp [configByte, length_errorBytes] at hi ⊢
      rw [List.getElem?_eq_getElem (by rw [length_errorBytes]; omega), Option.getD_some]

end Bytes

section Operations

variable {p : Port} {op : Operation}

/-- A config read within the range of bus addresses reads the bytes on its lanes. -/
theorem Formatted.access_config (h : Formatted p op) (hcfg : op.cfgSpace = true) (hread : op.isRead = true)
    (hrange : op.address < 256 ^ p.addr) :
    op.access p = .readConfig (p.opWidths op.size) (configAddress p op) := by
  have hw : op.isWrite = false := by simpa [Operation.isRead] using hread
  have hlow := h.low_add_size
  have hpos := h.size_pos
  have hword : op.address &&& p.addressFilter = op.address / p.data * p.data := and_addressFilter hrange
  rw [Operation.access, hw, hcfg, if_neg Bool.false_ne_true, if_pos rfl, hword, or_lane _ (by omega),
    configAddress]
  congr 1
  rw [h.lowAddr_eq] at hlow ⊢
  by_cases hend : op.endian = ebLittleEndian
  · rw [if_pos hend]
    have hs : opShift p op.format (op.address % p.data) = op.address % p.data :=
      if_neg fun hb => absurd (hend.symm.trans hb) (by decide)
    rw [hs]
  · rw [if_neg hend]
    have hs : p.data - (opShift p op.format (op.address % p.data) + op.size) = op.address % p.data := by
      rcases h.endian_mem with ⟨hfull, h0⟩ | ⟨-, hbig | hlit⟩
      · have hs : opShift p op.format (op.address % p.data) = op.address % p.data :=
          if_neg fun hb => absurd (h0.symm.trans hb) (by decide)
        omega
      · have hs : opShift p op.format (op.address % p.data) = p.data - (op.address % p.data + op.size) :=
          if_pos hbig
        omega
      · exact absurd hlit hend
    rw [hs, Nat.div_add_mod']

end Operations

section Replies

variable {p : Port} {r : Record}

theorem replyRecord_flags (p : Port) (r : Record) (values : List ℕ) :
    (replyRecord p r values).wconfig = r.bconfig ∧ (replyRecord p r values).wfifo = r.rfifo := by
  have key : ∀ cyc bca rff : Bool,
      ((cycleFlag cyc ||| (if bca then ebRecordWCA else 0) ||| (if rff then ebRecordWFF else 0)) &&& ebRecordWCA != 0) = bca ∧
      ((cycleFlag cyc ||| (if bca then ebRecordWCA else 0) ||| (if rff then ebRecordWFF else 0)) &&& ebRecordWFF != 0) = rff := by
    decide
  exact key r.cyc r.bconfig r.rfifo

/-- A value that was put on the lanes is taken from them. -/
theorem writeAccess_replyWord {select : UInt8} (hok : (decodeSelect p.data select).ok = true)
    (bwa bwaB bwaL value : ℕ) :
    writeAccess p select true bwa bwaB bwaL (replyWord p select value) =
      .writeConfig (p.opWidths (decodeSelect p.data select).opWidth) bwa
        (value &&& p.dataMask (decodeSelect p.data select).opWidth) := by
  have hfits := (laneWord_lt hok value).trans_le (Nat.pow_le_pow_right (by decide) p.data_le)
  rw [writeAccess, replyWord]
  rw [if_pos rfl, if_pos hok, Nat.mod_eq_of_lt hfits, Nat.shiftLeft_shiftRight, Nat.and_assoc, Nat.and_self]

theorem writeAccesses_fifo (p : Port) (select : UInt8) (wconfig : Bool) (bwa bwaB bwaL : ℕ) (words : List ℕ) :
    writeAccesses p select wconfig true bwa bwaB bwaL words = words.map (writeAccess p select wconfig bwa bwaB bwaL) := by
  induction words with
  | nil => rfl
  | cons word words ih =>
    rw [writeAccesses, List.map_cons]
    congr 1

/-- What the peer makes of the reply to a record. -/
theorem writeList_replyRecord (hok : (decodeSelect p.data r.select).ok = true) (hbconfig : r.bconfig = true)
    (hrfifo : r.rfifo = true) (values : List ℕ) :
    (replyRecord p r values).writeList p = values.map fun value =>
      .writeConfig (p.opWidths (decodeSelect p.data r.select).opWidth) r.ret
        (value &&& p.dataMask (decodeSelect p.data r.select).opWidth) := by
  obtain ⟨hwca, hwff⟩ := replyRecord_flags p r values
  rw [Record.writeList, hwca, hwff, hbconfig, hrfifo, writeBase, if_pos rfl]
  dsimp only
  rw [writeAccesses_fifo, replyRecord, List.map_map]
  apply List.map_congr_left
  intro value _
  exact writeAccess_replyWord hok _ _ _ _

end Replies

section Calls

variable {σ : Type} {g : Glue σ} {p : Port}

theorem configRead_eventOf (error : ℕ) (a : Access) :
    (eventOf error a).filterMap Event.configRead = a.configRead.toList := by
  cases a with
  | _ => rfl

theorem configReads_events (s : σ) (error : ℕ) (as : List Access) :
    (events g s error as).filterMap Event.configRead = as.filterMap Access.configRead := by
  induction as generalizing s error with
  | nil => rfl
  | cons a as ih =>
    rw [events, List.filterMap_append, configRead_eventOf, ih, List.filterMap_cons]
    cases a.configRead with
    | none => rfl
    | some call => rfl

/-- A step calls `eb_socket_read_config` as its accesses say. -/
theorem Session.step_configReads (s : Session σ) (r : Record) :
    (s.step g p r).1.bus.trace.filterMap Event.configRead =
      s.bus.trace.filterMap Event.configRead ++ (r.accesses p).filterMap Access.configRead := by
  rw [Session.step_bus, performAll_eq, List.filterMap_append, configReads_events]

/-- Config reads leave the error register alone. -/
theorem performAll_configReads (bus : Bus σ) (calls : List (ℕ × ℕ)) :
    (performAll g bus (calls.map fun call => .readConfig call.1 call.2)).2 =
      calls.map fun call => ebSocketReadConfig call.1 call.2 bus.error := by
  induction calls generalizing bus with
  | nil => rfl
  | cons call calls ih =>
    rw [List.map_cons, performAll_cons, ih, List.map_cons]
    rfl

end Calls

section Records

variable {σ : Type} {g : Glue σ} {p : Port} {rba : ℕ} {ws rs : List Operation} {status : Bool} {r : Record}

theorem opWidths_size (p : Port) {size : ℕ} (hsize : IsSize size) : p.opWidths size &&& ebDataX = size := by
  rw [Port.opWidths, Nat.and_or_distrib_right]
  rcases hsize with rfl | rfl | rfl | rfl <;> rcases p.addr_mem with h | h | h | h <;> rw [h] <;> rfl

theorem writeList_configReads (p : Port) (r : Record) : (r.writeList p).filterMap Access.configRead = [] := by
  have hnone : ∀ select wconfig bwa bwaB bwaL word,
      (writeAccess p select wconfig bwa bwaB bwaL word).configRead = none := by
    intro select wconfig bwa bwaB bwaL word
    rw [writeAccess]
    split_ifs <;> rfl
  have hall : ∀ (words : List ℕ) select wconfig wfifo bwa bwaB bwaL,
      (writeAccesses p select wconfig wfifo bwa bwaB bwaL words).filterMap Access.configRead = [] := by
    intro words select wconfig wfifo
    induction words with
    | nil => exact fun _ _ _ => rfl
    | cons word words ih =>
      intro bwa bwaB bwaL
      rw [writeAccesses, List.filterMap_cons_none (hnone _ _ _ _ _ _), ih]
  exact hall _ _ _ _ _ _ _

/-- The reads of a record have one word each, and are config reads all or none. -/
theorem Covers.read_word (h : Covers p rba ws rs status r) {op : Operation} (hop : op ∈ rs) :
    ∃ word, readAccess p r.select r.rconfig word = op.access p := by
  cases status with
  | true => exact absurd hop (by rw [h.no_reads rfl]; exact List.not_mem_nil)
  | false =>
    have hmem : op.access p ∈ r.readList p := by
      rw [h.readList]
      exact List.mem_map_of_mem hop
    obtain ⟨word, -, hword⟩ := List.mem_map.mp hmem
    exact ⟨word, hword⟩

theorem Covers.read_kind (h : Covers p rba ws rs status r) {op : Operation} (hop : op ∈ rs) :
    op.isRead = true ∧ op.cfgSpace = r.rconfig := by
  obtain ⟨word, hword⟩ := h.read_word hop
  rw [readAccess, h.select, Operation.access] at hword
  rw [Operation.isRead]
  cases hw : op.isWrite with
  | true =>
    cases hc : op.cfgSpace with
    | _ => cases hr : r.rconfig with
      | _ => simp [hw, hc, hr] at hword
  | false =>
    cases hc : op.cfgSpace with
    | _ => cases hr : r.rconfig with
      | _ => simp [hw, hc, hr] at hword ⊢

theorem Covers.read_size (h : Covers p rba ws rs status r) {op : Operation} (hop : op ∈ rs)
    (hformatted : Formatted p op)
    (hcfg : op.cfgSpace = true) : (decodeSelect p.data r.select).opWidth = op.size := by
  obtain ⟨word, hword⟩ := h.read_word hop
  obtain ⟨hread, hkind⟩ := h.read_kind hop
  have hw : op.isWrite = false := by simpa [Operation.isRead] using hread
  rw [readAccess, h.select, Operation.access, hw, ← hkind, hcfg] at hword
  simp only [if_true, Bool.false_eq_true, if_false, Access.readConfig.injEq] at hword
  have hsize := opWidths_size p (decodeSelect_ok p.data_mem h.select).1
  rw [hword.1, opWidths_size p hformatted.size_mem] at hsize
  exact hsize.symm

theorem configReads_operations {ops : List Operation}
    (h : ∀ op ∈ ops, Formatted p op ∧ op.isRead = true ∧ (op.cfgSpace = true → op.address < 256 ^ p.addr)) :
    (ops.map (Operation.access p)).filterMap Access.configRead =
      (ops.filter Operation.cfgSpace).map fun op => (p.opWidths op.size, configAddress p op) := by
  induction ops with
  | nil => rfl
  | cons op ops ih =>
    obtain ⟨⟨hformatted, hread, hrange⟩, hops⟩ := List.forall_mem_cons.mp h
    rw [List.map_cons, List.filterMap_cons]
    cases hcfg : op.cfgSpace with
    | true =>
      rw [hformatted.access_config hcfg hread (hrange hcfg), List.filter_cons_of_pos hcfg,
        List.map_cons, ← ih hops]
      rfl
    | false =>
      have hw : op.isWrite = false := by simpa [Operation.isRead] using hread
      rw [List.filter_cons_of_neg (by simp [hcfg]), ← ih hops, Operation.access, hw, hcfg]
      rfl

end Records

/-- What the slave does for the config reads of a record: it calls `eb_socket_read_config` for each, with its
size, and the reply tells the peer the bytes. The error register is read once more for the status. -/
structure ConfigAnswered {σ : Type} (g : Glue σ) (p : Port) (rba : ℕ) (s : Session σ)
    (seg : Segment) (r : Record) : Prop where
  calls : (s.step g p r).1.bus.trace.filterMap Event.configRead =
    s.bus.trace.filterMap Event.configRead ++
      ((seg.reads.filter Operation.cfgSpace).map fun op => (p.opWidths op.size, configAddress p op)) ++
      if seg.status then [(p.opWidths p.data, 8 - p.data)] else []
  answer : (∃ op ∈ seg.reads, op.cfgSpace = true) →
    (s.step g p r).2.head?.map (Record.writeList p) = some (seg.reads.map fun op =>
      .writeConfig (p.opWidths op.size) rba
        (configValue (performAll g s.bus (r.writeList p)).1.error (configAddress p op) op.size))

theorem Covers.configAnswered {σ : Type} {p : Port} {rba : ℕ} {seg : Segment} {r : Record}
    (g : Glue σ) (s : Session σ)
    (h : Covers p rba seg.writes seg.reads seg.status r) (hformatted : ∀ op ∈ seg.reads, Formatted p op)
    (hrange : ∀ op ∈ seg.reads, op.cfgSpace = true → op.address < 256 ^ p.addr) :
    ConfigAnswered g p rba s seg r where
  calls := by
    rw [Session.step_configReads, Record.accesses, List.filterMap_append, writeList_configReads,
      List.nil_append, h.readList, List.append_assoc]
    congr 1
    cases hstatus : seg.status with
    | true =>
      rw [h.no_reads hstatus]
      rfl
    | false =>
      rw [if_neg Bool.false_ne_true, if_neg Bool.false_ne_true, List.append_nil]
      exact configReads_operations fun op hop => ⟨hformatted op hop, (h.read_kind hop).1, hrange op hop⟩
  answer := by
    intro hconfig
    obtain ⟨op₀, hop₀, hcfg₀⟩ := hconfig
    have hcfg : ∀ op ∈ seg.reads, op.cfgSpace = true := fun op hop =>
      ((h.read_kind hop).2.trans (h.read_kind hop₀).2.symm).trans hcfg₀
    have hstatus : seg.status = false := by
      cases hstatus : seg.status with
      | false => rfl
      | true => exact absurd hop₀ (by rw [h.no_reads hstatus]; exact List.not_mem_nil)
    have hne : r.reads ≠ [] := by
      intro hnil
      have hlength := h.reads_length
      rw [hnil, hstatus] at hlength
      exact absurd (List.length_eq_zero_iff.mp hlength.symm) (List.ne_nil_of_mem hop₀)
    have hreads : r.readList p =
        (seg.reads.map fun op => (p.opWidths op.size, configAddress p op)).map fun call =>
          .readConfig call.1 call.2 := by
      rw [h.readList, hstatus, if_neg Bool.false_ne_true, List.map_map]
      apply List.map_congr_left
      intro op hop
      exact (hformatted op hop).access_config (hcfg op hop) (h.read_kind hop).1 (hrange op hop (hcfg op hop))
    rw [Session.step]
    dsimp only
    rw [if_neg hne, if_neg hne, List.singleton_append, List.head?_cons, Option.map_some, hreads, performAll_configReads,
      writeList_replyRecord h.select h.bconfig h.rfifo, List.map_map, List.map_map, h.ret_eq, hstatus,
      if_neg Bool.false_ne_true]
    congr 1
    apply List.map_congr_left
    intro op hop
    have hsize := (hformatted op hop).size_mem
    have hle : op.size ≤ 8 := by
      rcases hsize with h | h | h | h <;> omega
    simp only [Function.comp_apply]
    rw [h.read_size hop (hformatted op hop) (hcfg op hop), ebSocketReadConfig_eq hle (opWidths_size p hsize)]
    congr 1
    rw [p.dataMask_eq (hformatted op hop).size_le,
      show 256 ^ op.size = 2 ^ (8 * op.size) from (pow_mul 2 8 _).symm,
      Nat.and_two_pow_sub_one_eq_mod, show 2 ^ (8 * op.size) = 256 ^ op.size from pow_mul 2 8 _]
    exact Nat.mod_eq_of_lt (configValue_lt _ _ _)

theorem Encoded.configAnswered {σ : Type} {p : Port} {needsCheck : Bool} {maxops rba ops : ℕ} {segs : List Segment}
    {recs : List Record} (g : Glue σ) (h : Encoded p needsCheck maxops rba ops segs recs)
    (hformatted : ∀ op ∈ segmentOperations segs, Formatted p op)
    (hrange : ∀ op ∈ segmentOperations segs, op.cfgSpace = true → op.isRead = true → op.address < 256 ^ p.addr) :
    List.Forall₂ (fun seg r => ∀ s : Session σ, ConfigAnswered g p rba s seg r) segs recs := by
  have hcovers : ∀ {seg : Segment} {r : Record}, Covers p rba seg.writes seg.reads seg.status r →
      (∀ op ∈ seg.operations, Formatted p op) →
      (∀ op ∈ seg.operations, op.cfgSpace = true → op.isRead = true → op.address < 256 ^ p.addr) →
      ∀ s : Session σ, ConfigAnswered g p rba s seg r := by
    intro seg r hc hf hr s
    have hmem : ∀ op ∈ seg.reads, op ∈ seg.operations := fun op hop => List.mem_append_right _ hop
    exact hc.configAnswered g s (fun op hop => hf op (hmem op hop))
      fun op hop hcfg => hr op (hmem op hop) hcfg (hc.read_kind hop).1
  induction h with
  | last hc =>
    rw [segmentOperations_cons, segmentOperations_nil, List.append_nil] at hformatted hrange
    exact .cons (hcovers hc hformatted hrange) .nil
  | cons hc _ _ _ _ ih =>
    rw [segmentOperations_cons] at hformatted hrange
    refine .cons (hcovers hc (fun op hop => hformatted op (List.mem_append_left _ hop))
      fun op hop => hrange op (List.mem_append_left _ hop)) (ih ?_ ?_)
    · exact fun op hop => hformatted op (List.mem_append_right _ hop)
    · exact fun op hop => hrange op (List.mem_append_right _ hop)

/-- The config reads of a cycle that passes the check read the bytes on their lanes, when their addresses are
within the range of the bus. -/
theorem configReads_answered {σ : Type} (g : Glue σ) (p : Port) {rba : ℕ} (hrba : rba < 2 ^ 16)
    {ops ops' : List Operation}
    (hne : ops ≠ []) (hcheck : checkOperations p ops = (ops', none))
    (hrange : ∀ op ∈ ops', op.cfgSpace = true → op.isRead = true → op.address < 256 ^ p.addr) :
    ∃ segs recs, encodeCycle p rba ops' = some recs ∧ segmentOperations segs = ops' ∧
      List.Forall₂ (fun seg r => ∀ s : Session σ, ConfigAnswered g p rba s seg r) segs recs := by
  obtain ⟨hformatted, hsame⟩ := checkOperations_none hcheck
  have hne' : ops' ≠ [] := by
    rintro rfl
    exact hne (List.forall₂_nil_right_iff.mp hsame)
  obtain ⟨segs, recs, henc, hsegs, hencoded⟩ := encodeCycle_spec hrba hne' hformatted
  subst hsegs
  exact ⟨segs, recs, henc, rfl, hencoded.configAnswered g hformatted hrange⟩

namespace Sample

/-- Every config read of a cycle that passes the check is called for at its own address. -/
def ReadsExactly (p : Port) (ops : List Operation) : Prop :=
  ∀ ops' recs, checkOperations p ops = (ops', none) → encodeCycle p 0x8000 ops' = some recs →
    ∀ op ∈ ops', op.cfgSpace = true → op.isRead = true →
      (p.opWidths op.size, op.address) ∈ (recordAccesses p recs).filterMap Access.configRead

theorem registerPort_sizes : ((4 : ℕ) = 2 ∨ 4 = 4 ∨ 4 = 8) ∧ IsSize 4 ∧ IsSize 4 ∧ 4 ≤ 4 ∧ 4 ≤ 4 := by decide

def registerPort : Port := .ofSizes 4 4 4 registerPort_sizes

/-- One byte, little endian: on the lane of the last byte of the first word. -/
def littleRead : Operation where
  address := 0
  value := 0
  kind := .readVal
  cfgSpace := true
  format := ebLittleEndian ||| 1

def bytePort : Port := .ofSizes 4 1 1 (by decide)

/-- A config address beyond the addresses of the bus. -/
def farRead : Operation := { littleRead with address := 0x100, format := 1 }

theorem configReads_moved : ¬ ReadsExactly registerPort [littleRead] ∧ ¬ ReadsExactly bytePort [farRead] := by
  constructor
  · intro h
    exact absurd (h _ _ rfl rfl _ (List.mem_singleton_self _) rfl rfl) (by decide)
  · intro h
    exact absurd (h _ _ rfl rfl _ (List.mem_singleton_self _) rfl rfl) (by decide)

/-- The lower half of the error register. -/
def registerRead : Operation := { littleRead with address := 4, format := 4 }

def noHandlers : Glue Unit := socketGlue [] (fun _ _ _ => 0) fun sock _ _ _ => sock

theorem registerRead_answered : ∃ segs recs, encodeCycle registerPort 0x8000 [registerRead] = some recs ∧
    segmentOperations segs = [registerRead] ∧
    List.Forall₂ (fun seg r => ∀ s : Session Unit,
      ConfigAnswered noHandlers registerPort 0x8000 s seg r) segs recs :=
  configReads_answered noHandlers registerPort (by decide) (List.cons_ne_nil registerRead []) rfl (by decide)

end Sample

end WhiteRabbit.Etherbone
