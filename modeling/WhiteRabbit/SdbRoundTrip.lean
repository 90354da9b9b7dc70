import WhiteRabbit.ErrorRegister
import WhiteRabbit.OperationLanes
import WhiteRabbit.SdbScan

/-!
# Publishing a table and scanning it

A socket publishes the table of its devices below `0x4000`. A scan over a link that loses
nothing reads words of the width of the port, and finds the table again.
-/

namespace WhiteRabbit.Etherbone
open BigEndian

def ebVersionShort : ℕ := 0x280b5ac1
def ebDateShort : ℕ := 0x20260519

/-- `eb_sdb_extract`: the number at an address of a record. -/
def ebSdbExtract (data : Bytes) (width addr : ℕ) : ℕ := decode ((data.drop addr).take (width &&& ebDataX))

/-- The interconnect record of a bus with some devices. -/
def sdbInterconnect (word devices : ℕ) : SdbInterconnect where
  sdbMagic := sdbMagic
  sdbRecords := devices + 1
  sdbVersion := 1
  sdbBusType := sdbWishbone
  sdbComponent :=
    { addrFirst := 0
      -- a complement of 16 bits is promoted to `int`, and extends its sign
      addrLast := if word = 2 then 256 ^ 8 - 1 else 256 ^ word - 1
      product :=
        { vendorId := 0x651
          deviceId := 0x02398114
          version := ebVersionShort
          date := ebDateShort
          -- "Software-EB-Bus    "
          name := [0x53, 0x6F, 0x66, 0x74, 0x77, 0x61, 0x72, 0x65, 0x2D, 0x45, 0x42, 0x2D, 0x42, 0x75, 0x73,
            0x20, 0x20, 0x20, 0x20]
          recordType := sdbRecordInterconnect } }

/-- A device as it is published: always with the type of a device. -/
def published (device : SdbDevice) : SdbDevice :=
  { device with
    sdbComponent :=
      { device.sdbComponent with
        product := { device.sdbComponent.product with recordType := sdbRecordDevice } } }

def ebSdbInterconnect (word width addr devices : ℕ) : ℕ :=
  ebSdbExtract (sdbInterconnect word devices).bytes width addr

def ebSdbDevice (device : SdbDevice) (width addr : ℕ) : ℕ :=
  ebSdbExtract (published device).bytes width addr

/-- `eb_sdb` of a socket with some attached devices. -/
def ebSdb (word : ℕ) (devices : List SdbDevice) (width addr : ℕ) : ℕ :=
  if addr < 0x40 then ebSdbInterconnect word width addr devices.length
  else
    match devices[(addr >>> 6) - 1]? with
    | none => 0
    | some device => ebSdbDevice device width (addr &&& 0x3F)

section Link

variable {σ : Type} (g : Glue σ) (p : Port)

/-- A read that a scan queues. -/
def queuedRead (cfg : Bool) (address : ℕ) : Operation := ⟨address, 0, .readVal, cfg, false, true, ebDataX⟩

/-- The reads of a cycle, performed one after the other on a bus. -/
def performReads : Bus σ → List Operation → List Operation
  | _, [] => []
  | bus, op :: ops =>
    let (bus, value) := perform g bus (op.access p)
    { op with value := value, error := !op.cfgSpace && bus.error % 2 == 1 } :: performReads bus ops

/-- How a cycle of reads ends over a link that loses nothing. -/
def linkAnswer (bus : Bus σ) (cfg : Bool) (addresses : List ℕ) : Answer :=
  match checkOperations p (addresses.map (queuedRead cfg)) with
  | (ops, some (_, reason)) => ⟨reason, ops⟩
  | (ops, none) =>
    let ops := performReads g p bus ops
    ⟨if ops.any Operation.error then .segfault else .ok, ops⟩

end Link

/-- What a scan of the root of a publishing socket meets. Between its cycles the socket may be
accessed otherwise. -/
def publishedWorld {σ : Type} (p : Port) (handlers : List (Handler σ)) (devices : List SdbDevice)
    (writeConfig : σ → ℕ → ℕ → ℕ → σ) (buses : Bus σ × Bus σ × Bus σ) (staleHeader staleTable : ℕ → UInt8)
    (staleAddress : ℕ) : ScanWorld where
  staleHeader := staleHeader
  staleTable := staleTable
  staleAddress := staleAddress
  openHeader := .ok
  openAll := .ok
  pointer := linkAnswer (socketGlue handlers (fun _ => ebSdb p.word devices) writeConfig) p buses.1 true
    ((List.range (8 / p.data)).map fun i => 8 + i * p.data)
  header := linkAnswer (socketGlue handlers (fun _ => ebSdb p.word devices) writeConfig) p buses.2.1 false
  all := linkAnswer (socketGlue handlers (fun _ => ebSdb p.word devices) writeConfig) p buses.2.2 false

/-- The scan succeeds, and the table tells the attached devices. -/
def RoundTrip (devices : List SdbDevice) (report : SdbReport) : Prop :=
  report.status = .ok ∧ ∃ table, report.table = some table ∧ table.interconnect.sdbMagic = sdbMagic ∧
    table.interconnect.sdbRecords = devices.length + 1 ∧
    table.record = devices.map fun device => .device (published device)

variable {p : Port} {a : ℕ}

/-- The read as it is performed. -/
def fullRead (p : Port) (cfg : Bool) (address value : ℕ) : Operation :=
  ⟨address, value, .readVal, cfg, false, true, p.data⟩

theorem checkOperation_read (cfg : Bool) (hdvd : p.data ∣ a) (hlt : a < 256 ^ p.addr) (hcfg : a < 2 ^ 16) :
    checkOperation p (queuedRead cfg a) = (fullRead p cfg a 0, .ok) := by
  have hsize : ebWidthRefine (ebDataX &&& (p.data - 1 + p.data)) = p.data := by
    rcases p.data_mem with hd | hd | hd | hd <;> rw [hd] <;> decide
  have hpos := p.data_pos
  have hbus := (bus_mask_iff (a := a) p.data_mem).mpr ⟨hlt, hdvd⟩
  have hconfig := (cfg_mask_iff p.data_mem).mpr ⟨hcfg, hdvd⟩
  rw [checkOperation, queuedRead]
  dsimp only
  rw [hsize, if_pos rfl, if_neg (by omega), if_neg (by simp [ebBigEndian, ebLittleEndian]),
    if_neg fun h => h.2 hbus, if_neg fun h => h.2 hconfig, if_neg (by simp [Operation.isWrite]), Nat.zero_or]
  rfl

theorem checkOperations_reads (cfg : Bool) {addresses : List ℕ}
    (h : ∀ a ∈ addresses, p.data ∣ a ∧ a < 256 ^ p.addr ∧ a < 2 ^ 16) :
    checkOperations p (addresses.map (queuedRead cfg)) =
      (addresses.map fun a => fullRead p cfg a 0, none) := by
  induction addresses with
  | nil => rfl
  | cons a addresses ih =>
    obtain ⟨⟨hdvd, hlt, hcfg⟩, hrest⟩ := List.forall_mem_cons.mp h
    rw [List.map_cons, checkOperations, checkOperation_read cfg hdvd hlt hcfg]
    dsimp only
    rw [ih hrest]
    rfl

section Blocks

variable {blocks : List Bytes} {block : Bytes} {m i r n : ℕ}

/-- A part of one of several blocks of the same length. -/
theorem take_block (h : ∀ b ∈ blocks, b.length = m) (hi : blocks[i]? = some block) (hr : r + n ≤ m) :
    (blocks.flatten.drop (m * i + r)).take n = (block.drop r).take n := by
  induction blocks generalizing i with
  | nil => simp at hi
  | cons b blocks ih =>
    obtain ⟨hb, hblocks⟩ := List.forall_mem_cons.mp h
    rw [List.flatten_cons]
    cases i with
    | zero =>
      have hfirst : b = block := by simpa using hi
      rw [Nat.mul_zero, Nat.zero_add, List.drop_append_of_le_length (by omega),
        List.take_append_of_le_length (by rw [List.length_drop]; omega), hfirst]
    | succ i =>
      have hskip : m * (i + 1) + r = b.length + (m * i + r) := by rw [hb]; ring
      rw [hskip, List.drop_length_add_append]
      exact ih hblocks (by simpa using hi)

theorem length_blocks (h : ∀ b ∈ blocks, b.length = m) : blocks.flatten.length = m * blocks.length := by
  induction blocks with
  | nil => rfl
  | cons b blocks ih =>
    obtain ⟨hb, hblocks⟩ := List.forall_mem_cons.mp h
    rw [List.flatten_cons, List.length_append, hb, ih hblocks, List.length_cons]
    ring

/-- Reading word by word. -/
theorem words_take (bs : Bytes) (n m : ℕ) :
    ((List.range m).flatMap fun i => (bs.drop (i * n)).take n) = bs.take (m * n) := by
  induction m with
  | zero => simp
  | succ m ih =>
    rw [List.range_succ, List.flatMap_append, ih, Nat.succ_mul, List.take_add]
    simp

end Blocks

section Table

variable {word : ℕ} {devices : List SdbDevice}

/-- The records of the published table. -/
def tableRecords (word : ℕ) (devices : List SdbDevice) : List Bytes :=
  (sdbInterconnect word devices.length).bytes :: devices.map fun device => (published device).bytes

theorem sdbInterconnect_valid {word : ℕ} (hword : word = 2 ∨ word = 4 ∨ word = 8) {n : ℕ} (hn : n ≤ 255) :
    (sdbInterconnect word n).Valid where
  sdbMagic := by simp [sdbInterconnect, sdbMagic]
  sdbRecords := by
    change n + 1 < 256 ^ 2
    omega
  sdbVersion := by simp [sdbInterconnect]
  sdbBusType := by simp [sdbInterconnect, sdbWishbone]
  sdbComponent :=
    { addrFirst := by simp [sdbInterconnect]
      addrLast := by rcases hword with rfl | rfl | rfl <;> simp [sdbInterconnect]
      product :=
        { vendorId := by simp [sdbInterconnect]
          deviceId := by simp [sdbInterconnect]
          version := by simp [sdbInterconnect, ebVersionShort]
          date := by simp [sdbInterconnect, ebDateShort]
          name := rfl } }

theorem published_valid {device : SdbDevice} (h : device.Valid) : (published device).Valid :=
  { h with
    sdbComponent :=
      { h.sdbComponent with
        product := { h.sdbComponent.product with } } }

variable (hword : word = 2 ∨ word = 4 ∨ word = 8) (hlen : devices.length ≤ 255)
  (hvalid : ∀ device ∈ devices, device.Valid)
include hword hlen hvalid

theorem length_tableRecord : ∀ b ∈ tableRecords word devices, b.length = 64 := by
  refine List.forall_mem_cons.mpr ⟨SdbInterconnect.length_bytes (sdbInterconnect_valid hword hlen), fun b hb => ?_⟩
  obtain ⟨device, hdevice, rfl⟩ := List.mem_map.mp hb
  exact SdbDevice.length_bytes (published_valid (hvalid device hdevice))

theorem length_table : (tableRecords word devices).flatten.length = 64 * (devices.length + 1) := by
  rw [length_blocks (length_tableRecord hword hlen hvalid)]
  simp [tableRecords]

/-- The socket answers from the bytes of its table. -/
theorem ebSdb_eq {widths a : ℕ} (hsize : IsSize (widths &&& ebDataX)) (hdvd : widths &&& ebDataX ∣ a)
    (hlt : a < 64 * (devices.length + 1)) :
    ebSdb word devices widths a =
      decode (((tableRecords word devices).flatten.drop a).take (widths &&& ebDataX)) := by
  have hblocks := length_tableRecord hword hlen hvalid
  have h64 : widths &&& ebDataX ∣ 64 := by
    obtain ⟨k, hk, hpow⟩ := hsize.eq_pow
    rw [hpow]
    exact Nat.pow_dvd_pow 2 (Nat.le_trans hk (by decide : 3 ≤ 6))
  -- a word lies within one record
  have hwithin : a % 64 + (widths &&& ebDataX) ≤ 64 := by
    obtain ⟨i, hi⟩ := (Nat.dvd_mod_iff h64).mpr hdvd
    obtain ⟨j, hj⟩ := h64
    have hmod : a % 64 < 64 := Nat.mod_lt _ (by decide)
    have hij : i < j := by
      rw [hi] at hmod
      exact Nat.lt_of_mul_lt_mul_left (hj ▸ hmod)
    calc a % 64 + (widths &&& ebDataX) = (widths &&& ebDataX) * (i + 1) := by rw [hi]; ring
      _ ≤ (widths &&& ebDataX) * j := Nat.mul_le_mul_left _ hij
      _ = 64 := hj.symm
  have hblock : ∀ block, (tableRecords word devices)[a / 64]? = some block →
      ebSdbExtract block widths (a % 64) =
        decode (((tableRecords word devices).flatten.drop a).take (widths &&& ebDataX)) := by
    intro block hget
    rw [ebSdbExtract, ← take_block hblocks hget hwithin, Nat.div_add_mod]
  rw [ebSdb]
  split
  · rename_i hfirst
    rw [ebSdbInterconnect, ← hblock _ (by rw [Nat.div_eq_of_lt hfirst]; rfl), Nat.mod_eq_of_lt hfirst]
  · rename_i hfirst
    have hindex : a >>> 6 = a / 64 := Nat.shiftRight_eq_div_pow a 6
    have hlow : a &&& 0x3F = a % 64 := Nat.and_two_pow_sub_one_eq_mod a 6
    have hpos : a / 64 = (a / 64 - 1) + 1 := by omega
    rw [hindex, hlow]
    cases hget : devices[a / 64 - 1]? with
    | none =>
      have := List.getElem?_eq_none_iff.mp hget
      omega
    | some device =>
      dsimp only
      rw [ebSdbDevice, ← hblock]
      rw [hpos, tableRecords, List.getElem?_cons_succ, List.getElem?_map, hget]
      rfl

end Table

section Reads

variable {σ : Type} (handlers : List (Handler σ)) (sdb : σ → ℕ → ℕ → ℕ) (writeConfig : σ → ℕ → ℕ → ℕ → σ)

theorem fullRead_access {cfg : Bool} (value : ℕ) (hdvd : p.data ∣ a) (hlt : a < 256 ^ p.addr) :
    (fullRead p cfg a value).access p =
      if cfg then .readConfig (p.opWidths p.data) a else .read (p.opWidths p.data) a a := by
  have hsize : p.data &&& ebDataX = p.data ∧ p.data &&& ebEndianMask = 0 := by
    rcases p.data_mem with hd | hd | hd | hd <;> rw [hd] <;> decide
  have hword : a &&& p.addressFilter = a := by rw [and_addressFilter hlt, Nat.div_mul_cancel hdvd]
  have hlow : (fullRead p cfg a value).lowAddr p = 0 := by
    rw [Operation.lowAddr, and_data_mask]
    exact Nat.mod_eq_zero_of_dvd hdvd
  have hshift : opShift p p.data 0 = 0 := by simp [opShift, hsize.2, ebBigEndian]
  rw [Operation.access, hlow]
  simp [fullRead, hshift, Operation.size, Operation.isWrite, hsize.1, hword]

/-- Reads below `0x4000` are answered from the tables. -/
theorem performReads_sdb (bus : Bus σ) {addresses : List ℕ}
    (h : ∀ a ∈ addresses, p.data ∣ a ∧ a < 256 ^ p.addr ∧ a < 0x4000) :
    performReads (socketGlue handlers sdb writeConfig) p bus (addresses.map fun a => fullRead p false a 0) =
      addresses.map fun a => fullRead p false a (sdb bus.sock (p.opWidths p.data) a) := by
  induction addresses generalizing bus with
  | nil => rfl
  | cons a addresses ih =>
    obtain ⟨⟨hdvd, hlt, hsmall⟩, hrest⟩ := List.forall_mem_cons.mp h
    have heven : shiftError bus.error false % 2 = 0 := by
      rw [shiftError_eq]
      simp [Nat.mod_mod_of_dvd]
    have hread : perform (socketGlue handlers sdb writeConfig) bus ((fullRead p false a 0).access p) =
        (⟨bus.sock, shiftError bus.error false, bus.trace ++ [.read (p.opWidths p.data) a a]⟩,
          sdb bus.sock (p.opWidths p.data) a) := by
      rw [fullRead_access 0 hdvd hlt, if_neg Bool.false_ne_true]
      simp [perform, socketGlue, ebSocketRead, hsmall]
    rw [List.map_cons, performReads, hread, List.map_cons]
    dsimp only
    rw [ih _ hrest]
    simp [fullRead, heven]

/-- Only the error register can be read from config space. -/
theorem performReads_config (g : Glue σ) (bus : Bus σ) {addresses : List ℕ}
    (h : ∀ a ∈ addresses, p.data ∣ a ∧ a < 256 ^ p.addr ∧ 8 ≤ a) :
    performReads g p bus (addresses.map fun a => fullRead p true a 0) =
      addresses.map fun a => fullRead p true a 0 := by
  induction addresses generalizing bus with
  | nil => rfl
  | cons a addresses ih =>
    obtain ⟨⟨hdvd, hlt, hhigh⟩, hrest⟩ := List.forall_mem_cons.mp h
    have hread : (perform g bus ((fullRead p true a 0).access p)).2 = 0 := by
      rw [fullRead_access 0 hdvd hlt, if_pos rfl]
      simp [perform, ebSocketReadConfig, hhigh]
    rw [List.map_cons, performReads]
    dsimp only
    rw [hread, ih _ hrest]
    rfl

end Reads

/-- The bytes of the published table. -/
def tableBytes (word : ℕ) (devices : List SdbDevice) : Bytes := (tableRecords word devices).flatten

/-- Reads of the table. -/
def tableReads (p : Port) (devices : List SdbDevice) (addresses : List ℕ) : List Operation :=
  addresses.map fun a => fullRead p false a (decode (((tableBytes p.word devices).drop a).take p.data))

section Link

variable {σ : Type} {devices : List SdbDevice} (handlers : List (Handler σ)) (writeConfig : σ → ℕ → ℕ → ℕ → σ)
  (bus : Bus σ)

theorem opWidths_data (p : Port) : p.opWidths p.data &&& ebDataX = p.data := by
  rw [Port.opWidths, Nat.or_comm]
  exact p.widths_data

theorem linkAnswer_config {addresses : List ℕ} (h : ∀ a ∈ addresses, p.data ∣ a ∧ a < 256 ^ p.addr ∧ a < 2 ^ 16)
    (hhigh : ∀ a ∈ addresses, 8 ≤ a) (g : Glue σ) :
    linkAnswer g p bus true addresses = ⟨.ok, addresses.map fun a => fullRead p true a 0⟩ := by
  have hreads := performReads_config g bus fun a ha => ⟨(h a ha).1, (h a ha).2.1, hhigh a ha⟩
  rw [linkAnswer, checkOperations_reads true h]
  dsimp only
  rw [hreads]
  simp [fullRead, Function.comp_def]

variable (hlen : devices.length ≤ 255) (hvalid : ∀ device ∈ devices, device.Valid)
include hlen hvalid

/-- The answer to reads of the table. -/
theorem linkAnswer_table {addresses : List ℕ}
    (h : ∀ a ∈ addresses, p.data ∣ a ∧ a < 256 ^ p.addr ∧ a < 64 * (devices.length + 1)) :
    linkAnswer (socketGlue handlers (fun _ => ebSdb p.word devices) writeConfig) p bus false addresses =
      ⟨.ok, tableReads p devices addresses⟩ := by
  have hreads := performReads_sdb handlers (fun _ => ebSdb p.word devices) writeConfig bus
    fun a ha => ⟨(h a ha).1, (h a ha).2.1, Nat.lt_of_lt_of_le (h a ha).2.2 (by omega)⟩
  have hvalues : ∀ a ∈ addresses, ebSdb p.word devices (p.opWidths p.data) a =
      decode (((tableRecords p.word devices).flatten.drop a).take p.data) := by
    intro a ha
    have hsize := opWidths_data p
    rw [ebSdb_eq p.word_mem hlen hvalid (by rw [hsize]; exact p.data_mem) (by rw [hsize]; exact (h a ha).1)
      (h a ha).2.2, hsize]
  rw [linkAnswer, checkOperations_reads false fun a ha =>
    ⟨(h a ha).1, (h a ha).2.1, Nat.lt_of_lt_of_le (h a ha).2.2 (by omega)⟩]
  dsimp only
  rw [hreads, List.map_congr_left fun a ha => congrArg (fullRead p false a) (hvalues a ha)]
  simp [fullRead, Function.comp_def, tableReads, tableBytes]

end Link

section Addresses

variable {len : ℕ}

theorem readAddresses_zero (h : len < 256 ^ p.word) :
    readAddresses p 0 len = (List.range (len / p.data)).map fun i => i * p.data := by
  simp [readAddresses, Nat.mod_eq_of_lt h]

theorem mem_readAddresses (h : len < 256 ^ p.word) (ha : a ∈ readAddresses p 0 len) : p.data ∣ a ∧ a < len := by
  rw [readAddresses_zero h] at ha
  obtain ⟨i, hi, rfl⟩ := List.mem_map.mp ha
  have hnext : (i + 1) * p.data ≤ len := (Nat.le_div_iff_mul_le p.data_pos).mp (List.mem_range.mp hi)
  have hpos := p.data_pos
  refine ⟨Nat.dvd_mul_left _ _, ?_⟩
  rw [Nat.succ_mul] at hnext
  omega

/-- The read words make up the bytes of the table. -/
theorem opBytes_table (devices : List SdbDevice) (h : len < 256 ^ p.word) (hdvd : p.data ∣ len)
    (hle : len ≤ (tableBytes p.word devices).length) :
    opBytes (tableReads p devices (readAddresses p 0 len)) = (tableBytes p.word devices).take len := by
  rw [tableReads]
  generalize tableBytes p.word devices = bs at hle ⊢
  have hword : ∀ a ∈ readAddresses p 0 len,
      encode (fullRead p false a (decode ((bs.drop a).take p.data))).size
        (fullRead p false a (decode ((bs.drop a).take p.data))).value = (bs.drop a).take p.data := by
    intro a ha
    obtain ⟨hd, hlt⟩ := mem_readAddresses h ha
    have hnext : a + p.data ≤ len := by
      obtain ⟨i, rfl⟩ := hd
      obtain ⟨j, rfl⟩ := hdvd
      have hij : i < j := Nat.lt_of_mul_lt_mul_left hlt
      calc p.data * i + p.data = p.data * (i + 1) := by ring
        _ ≤ p.data * j := Nat.mul_le_mul_left _ hij
    have hlength : ((bs.drop a).take p.data).length = p.data := by
      rw [List.length_take, List.length_drop]
      omega
    have hsize : (fullRead p false a (decode ((bs.drop a).take p.data))).size =
        ((bs.drop a).take p.data).length := by
      rw [hlength]
      rcases p.data_mem with hd | hd | hd | hd <;> simp [fullRead, Operation.size, hd, ebDataX]
    rw [hsize]
    exact encode_decode _
  rw [opBytes, List.flatMap_map, List.flatMap_congr hword, readAddresses_zero h, List.flatMap_map, words_take,
    Nat.div_mul_cancel hdvd]

end Addresses

theorem Port.word_space (p : Port) : 2 ^ 16 ≤ 256 ^ p.word := by
  rcases p.word_mem with h | h | h <;> rw [h] <;> norm_num

theorem Port.addr_space (p : Port) (h : 2 ≤ p.addr) : 2 ^ 16 ≤ 256 ^ p.addr :=
  calc 2 ^ 16 = 256 ^ 2 := by norm_num
    _ ≤ 256 ^ p.addr := Nat.pow_le_pow_right (by decide) h

theorem Port.data_dvd_eight (p : Port) : p.data ∣ 8 := by
  obtain ⟨k, hk, hpow⟩ := p.data_mem.eq_pow
  rw [hpow]
  exact Nat.pow_dvd_pow 2 hk

section Stages

variable {devices : List SdbDevice}

theorem tableReads_size (addresses : List ℕ) : ∀ op ∈ tableReads p devices addresses, op.size = p.data := by
  intro op hop
  obtain ⟨a, -, rfl⟩ := List.mem_map.mp hop
  rcases p.data_mem with hd | hd | hd | hd <;> simp [fullRead, Operation.size, hd, ebDataX]

theorem tableReads_error (addresses : List ℕ) : ∀ op ∈ tableReads p devices addresses, op.error = false := by
  intro op hop
  obtain ⟨a, -, rfl⟩ := List.mem_map.mp hop
  rfl

theorem tableReads_length {len : ℕ} (h : len < 256 ^ p.word) (hdvd : p.data ∣ len) :
    (tableReads p devices (readAddresses p 0 len)).length * p.data = len := by
  rw [tableReads, List.length_map, readAddresses_zero h, List.length_map, List.length_range,
    Nat.div_mul_cancel hdvd]

/-- Zeros in config space: the table is at address zero. -/
theorem gotHeaderPtr_zeros (addresses : List ℕ) :
    ebSdbGotHeaderPtr p .ok .ok (addresses.map fun a => fullRead p true a 0) = .read (readAddresses p 0 32) := by
  have hzero : headerAddress p (addresses.map fun a => fullRead p true a 0) = 0 := by
    rw [headerAddress]
    induction addresses with
    | nil => rfl
    | cons a addresses ih =>
      rw [List.map_cons, List.foldl_cons]
      simpa [fullRead] using ih
  rw [ebSdbGotHeaderPtr, hzero]
  simp [fullRead]

variable (hlen : devices.length ≤ 255)
include hlen

/-- The first record of the table. -/
theorem tableBytes_header (p : Port) {rest : Bytes} :
    sdbRecordAt (tableBytes p.word devices ++ rest) 0 = (sdbInterconnect p.word devices.length).bytes := by
  have hfirst := SdbInterconnect.length_bytes (sdbInterconnect_valid p.word_mem hlen)
  rw [sdbRecordAt, tableBytes, tableRecords, List.flatten_cons, List.append_assoc, Nat.mul_zero, List.drop_zero,
    List.take_left' hfirst]

theorem field_tableBytes (p : Port) {offset n : ℕ} (h : offset + n ≤ 64) :
    field (tableBytes p.word devices) offset n = field (sdbInterconnect p.word devices.length).bytes offset n := by
  have hfirst := SdbInterconnect.length_bytes (sdbInterconnect_valid p.word_mem hlen)
  rw [tableBytes, tableRecords, List.flatten_cons, field_append (by rw [hfirst]; exact h)]

theorem tableBytes_magic (p : Port) : field (tableBytes p.word devices) 0 4 = sdbMagic := by
  have hinter := sdbInterconnect_valid p.word_mem hlen
  rw [field_tableBytes hlen p (by decide), SdbInterconnect.bytes, field_encode hinter.sdbMagic]
  rfl

theorem tableBytes_records (p : Port) : field (tableBytes p.word devices) 4 2 = devices.length + 1 := by
  have hinter := sdbInterconnect_valid p.word_mem hlen
  rw [field_tableBytes hlen p (by decide), SdbInterconnect.bytes, field_behind (by decide),
    field_encode hinter.sdbRecords]
  rfl

variable (hvalid : ∀ device ∈ devices, device.Valid)
include hvalid

theorem length_tableBytes (p : Port) : (tableBytes p.word devices).length = 64 * (devices.length + 1) :=
  length_table p.word_mem hlen hvalid

/-- The whole table is decoded to the attached devices. -/
theorem decodeTable_table (p : Port) (rest : Bytes) : decodeTable 0 (tableBytes p.word devices ++ rest) =
    ⟨sdbInterconnect p.word devices.length, devices.map fun device => .device (published device)⟩ := by
  have hinter := decodeInterconnect_bytes (sdbInterconnect_valid p.word_mem hlen)
  have hlength := length_tableBytes hlen hvalid p
  have hrecords : (List.range devices.length).map (fun i =>
      decodeRecord 0 (sdbRecordAt (tableBytes p.word devices ++ rest) (i + 1))) =
      devices.map fun device => .device (published device) := by
    apply List.ext_getElem
    · simp
    intro i hi hi'
    rw [List.length_map] at hi'
    have hdevice := published_valid (hvalid devices[i] (List.getElem_mem hi'))
    have hblock : (tableRecords p.word devices)[i + 1]? = some (published devices[i]).bytes := by
      rw [tableRecords, List.getElem?_cons_succ, List.getElem?_map, List.getElem?_eq_getElem hi']
      rfl
    have hrecord : sdbRecordAt (tableBytes p.word devices ++ rest) (i + 1) = (published devices[i]).bytes := by
      have hpart := take_block (length_tableRecord p.word_mem hlen hvalid) hblock (r := 0) (n := 64) (by decide)
      rw [sdbRecordAt, List.drop_append_of_le_length (by omega),
        List.take_append_of_le_length (by rw [List.length_drop]; omega), ← Nat.add_zero (64 * (i + 1)), tableBytes,
        hpart, List.drop_zero, List.take_of_length_le (Nat.le_of_eq (SdbDevice.length_bytes hdevice))]
    rw [List.getElem_map, List.getElem_map, List.getElem_range, hrecord]
    exact decodeRecord_device hdevice rfl
  rw [decodeTable, tableBytes_header hlen, hinter]
  exact congrArg (SdbTable.mk _) hrecords

theorem gotHeader_table (p : Port) (stale : ℕ → UInt8) (staleAddress : ℕ) :
    ebSdbGotHeader p stale staleAddress .ok .ok (tableReads p devices (readAddresses p 0 32)) =
      .read (readAddresses p 0 (64 * (devices.length + 1))) := by
  have hspace := p.word_space
  have hlength := length_tableBytes hlen hvalid p
  have hdvd : p.data ∣ 32 := Nat.dvd_trans p.data_dvd_eight (by decide)
  have hreads : (tableReads p devices (readAddresses p 0 32)).length * p.data = 32 :=
    tableReads_length (by omega) hdvd
  have hfill : ebSdbFillBlock 64 (tableReads p devices (readAddresses p 0 32)) =
      (.complete, opBytes (tableReads p devices (readAddresses p 0 32))) := by
    rw [ebSdbFillBlock_eq p.data_pos (tableReads_size _) (tableReads_error _), hreads, if_pos (by decide)]
  rw [opBytes_table devices (by omega) hdvd (by omega)] at hfill
  have hheader : ∀ offset n, offset + n ≤ 32 →
      field (onStack stale 64 ((tableBytes p.word devices).take 32)) offset n =
        field (tableBytes p.word devices) offset n := by
    intro offset n h
    rw [onStack, field_append (by rw [List.length_take]; omega), field_take h]
  have haddress : ((tableReads p devices (readAddresses p 0 32)).head?.map Operation.address).getD staleAddress =
      0 := by
    have hpos : 32 / p.data ≠ 0 := by
      obtain ⟨j, hj⟩ := hdvd
      rw [hj, Nat.mul_div_cancel_left _ p.data_pos]
      rintro rfl
      simp at hj
    rw [tableReads, readAddresses_zero (by omega), List.head?_map, List.head?_map, List.head?_range, if_neg hpos]
    simp [fullRead]
  rw [ebSdbGotHeader, if_neg (by simp), hfill]
  dsimp only
  rw [hheader 0 4 (by decide), hheader 4 2 (by decide), tableBytes_magic hlen, tableBytes_records hlen,
    if_neg (by simp), if_neg (by simp), haddress, Nat.mod_eq_of_lt (by omega), Nat.mul_comm]

end Stages

section Scan

variable {σ : Type} {devices : List SdbDevice} (handlers : List (Handler σ)) (writeConfig : σ → ℕ → ℕ → ℕ → σ)
  (buses : Bus σ × Bus σ × Bus σ) (staleHeader staleTable : ℕ → UInt8) (staleAddress : ℕ)
  (haddr : 2 ≤ p.addr) (hlen : devices.length ≤ 255) (hvalid : ∀ device ∈ devices, device.Valid)
include haddr hlen hvalid

/-- The scan comes to its last stage with all words of the table. -/
theorem scanRoot_published :
    (ebSdbScanRoot p (publishedWorld p handlers devices writeConfig buses staleHeader staleTable staleAddress)).1 =
      ebSdbGotAll staleTable 0 .ok (tableReads p devices (readAddresses p 0 (64 * (devices.length + 1)))) := by
  have hspace := p.word_space
  have haddress := p.addr_space haddr
  have hpointers : ∀ a ∈ (List.range (8 / p.data)).map (fun i => 8 + i * p.data), p.data ∣ a ∧ 8 ≤ a ∧ a < 16 := by
    intro a ha
    obtain ⟨i, hi, rfl⟩ := List.mem_map.mp ha
    have hnext := (Nat.le_div_iff_mul_le p.data_pos).mp (List.mem_range.mp hi)
    have hpos := p.data_pos
    rw [Nat.succ_mul] at hnext
    exact ⟨Nat.dvd_add p.data_dvd_eight (Nat.dvd_mul_left _ _), by omega, by omega⟩
  have hpointer := linkAnswer_config (p := p) buses.1
    (fun a ha => ⟨(hpointers a ha).1, by have := (hpointers a ha).2.2; omega, by have := (hpointers a ha).2.2; omega⟩)
    (fun a ha => (hpointers a ha).2.1) (socketGlue handlers (fun _ => ebSdb p.word devices) writeConfig)
  have hin : ∀ len, len < 256 ^ p.word → len ≤ 64 * (devices.length + 1) → ∀ a ∈ readAddresses p 0 len,
      p.data ∣ a ∧ a < 256 ^ p.addr ∧ a < 64 * (devices.length + 1) := by
    intro len hword hlen a ha
    obtain ⟨hdvd, hlt⟩ := mem_readAddresses hword ha
    exact ⟨hdvd, by omega, by omega⟩
  have hheader := linkAnswer_table (p := p) handlers writeConfig buses.2.1 hlen hvalid
    (hin 32 (by omega) (by omega))
  have hall := linkAnswer_table (p := p) handlers writeConfig buses.2.2 hlen hvalid
    (hin (64 * (devices.length + 1)) (by omega) (Nat.le_refl _))
  rw [ebSdbScanRoot, publishedWorld]
  dsimp only
  rw [hpointer, gotHeaderPtr_zeros, sdbScan]
  dsimp only
  rw [hheader, gotHeader_table hlen hvalid]
  dsimp only
  rw [hall]

omit haddr in
/-- A table with devices is decoded. -/
theorem gotAll_devices (hne : devices ≠ []) : RoundTrip devices
    (ebSdbGotAll staleTable 0 .ok (tableReads p devices (readAddresses p 0 (64 * (devices.length + 1))))) := by
  have hspace := p.word_space
  have hcount := List.length_pos_iff.mpr hne
  have h64 : p.data ∣ 64 := Nat.dvd_trans p.data_dvd_eight (by decide)
  have hdvd : p.data ∣ 64 * (devices.length + 1) := Nat.dvd_mul_right_of_dvd h64 _
  have hlength := length_tableBytes hlen hvalid p
  have hbytes := opBytes_table devices (p := p) (by omega) hdvd (Nat.le_of_eq hlength.symm)
  have hreads : (tableReads p devices (readAddresses p 0 (64 * (devices.length + 1)))).length * p.data =
      64 * (devices.length + 1) := tableReads_length (by omega) hdvd
  rw [List.take_of_length_le (Nat.le_of_eq hlength)] at hbytes
  have hrecords : recordsRead (tableReads p devices (readAddresses p 0 (64 * (devices.length + 1)))) =
      devices.length + 1 := by
    rw [recordsRead, hbytes, tableBytes_records hlen]
  cases hclass : sdbClass devices.length with
  | none =>
    have := sdbClass_none hclass
    omega
  | some x =>
    obtain ⟨hx, -⟩ := sdbClass_lt hclass
    have hok := ebSdbGotAll_ok (tableReads_size _) h64 p.data_pos staleTable 0 (tableReads_error _)
      (by rw [hreads]; omega) (x := x)
      (by rw [hrecords, show (devices.length + 1 + 0xFFFF) % 2 ^ 16 = devices.length by omega, hclass])
      (by rw [hreads]; omega) (by rw [hrecords]; omega)
    rw [hok, hbytes, onStack, decodeTable_table hlen hvalid]
    exact ⟨rfl, _, rfl, rfl, rfl, rfl⟩

omit haddr hlen hvalid in
/-- A table of one record is no longer than a header, and the scan takes that for a failure. -/
theorem gotAll_empty : ebSdbGotAll staleTable 0 .ok (tableReads p [] (readAddresses p 0 64)) = ⟨.fail, none⟩ := by
  have hspace := p.word_space
  have hdvd : p.data ∣ 64 := Nat.dvd_trans p.data_dvd_eight (by decide)
  have hreads : (tableReads p [] (readAddresses p 0 64)).length * p.data = 64 := tableReads_length (by omega) hdvd
  rw [ebSdbGotAll, if_neg (by simp), ebSdbFillBlock_eq p.data_pos (tableReads_size _) (tableReads_error _), hreads,
    if_pos (by decide)]

omit hlen in
theorem scanRoot_empty (hempty : devices = []) :
    (ebSdbScanRoot p (publishedWorld p handlers devices writeConfig buses staleHeader staleTable staleAddress)).1 =
      ⟨.fail, none⟩ := by
  subst hempty
  rw [scanRoot_published handlers writeConfig buses staleHeader staleTable staleAddress haddr (by simp) hvalid]
  exact gotAll_empty staleTable

/-- The table comes back exactly when a device is attached. -/
theorem roundTrip_iff : RoundTrip devices (ebSdbScanRoot p
    (publishedWorld p handlers devices writeConfig buses staleHeader staleTable staleAddress)).1 ↔
      devices ≠ [] := by
  constructor
  · rintro h rfl
    rw [scanRoot_empty handlers writeConfig buses staleHeader staleTable staleAddress haddr hvalid rfl] at h
    exact absurd h.1 (by decide)
  · intro hne
    rw [scanRoot_published handlers writeConfig buses staleHeader staleTable staleAddress haddr hlen hvalid]
    exact gotAll_devices staleTable hlen hvalid hne

end Scan

namespace Sample

def deviceProduct : SdbProduct := ⟨0x651, 0x12345678, 1, 0x20120101, List.replicate 19 0x20, sdbRecordDevice⟩

def attachedDevice : SdbDevice := ⟨1, 2, 3, 8, 0x10000, 0x1FFFF, deviceProduct⟩

theorem attachedDevice_valid : attachedDevice.Valid where
  abiClass := by decide
  abiVerMajor := by decide
  abiVerMinor := by decide
  busSpecific := by decide
  sdbComponent :=
    { addrFirst := by decide
      addrLast := by decide
      product :=
        { vendorId := by decide
          deviceId := by decide
          version := by decide
          date := by decide
          name := rfl } }

def idleBus : Bus Unit := ⟨(), 0, []⟩

/-- The scan of a socket with one device. -/
theorem oneDevice_roundTrip : RoundTrip [attachedDevice] (ebSdbScanRoot sdbPort (publishedWorld sdbPort []
    [attachedDevice] (fun _ _ _ _ => ()) (idleBus, idleBus, idleBus) (fun _ => 0) (fun _ => 0) 0)).1 :=
  (roundTrip_iff [] _ _ _ _ _ (by decide) (by decide) (by simpa using attachedDevice_valid)).mpr (by simp)

/-- The scan of a socket without devices fails. -/
theorem noDevices_fail : ¬ RoundTrip [] (ebSdbScanRoot sdbPort (publishedWorld sdbPort [] []
    (fun (_ : Unit) _ _ _ => ()) (idleBus, idleBus, idleBus) (fun _ => 0) (fun _ => 0) 0)).1 := by
  rw [scanRoot_empty [] _ _ _ _ _ (by decide) (by simp) rfl]
  intro h
  exact absurd h.1 (by decide)

end Sample

end WhiteRabbit.Etherbone
