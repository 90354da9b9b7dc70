import Mathlib.Data.Finite.Prod
import WhiteRabbit.CellLedger
import WhiteRabbit.PendingSearch
import WhiteRabbit.SdbTables

/-!
# The tables of a carrier

The tables in the memory of an FMC carrier are copied to the host, and behind every bridge of a
table a further one. A block of memory is named by the call of `kzalloc` that returned it.
-/

namespace WhiteRabbit.Fmc

open BigEndian CellLedger PendingSearch Relation
open Etherbone (field sdbMagic)

def enoent : ℤ := 2

def enomem : ℤ := 12

def ebusy : ℤ := 16

def enodev : ℤ := 19

def sdbTypeDevice : UInt8 := 0x01

def sdbTypeBridge : UInt8 := 0x02

/-- What `fmc_readl` returns for an offset, which is an `int`, and the byte order of the host. -/
structure Carrier where
  littleEndian : Bool
  fmcReadl : BitVec 32 → BitVec 32

namespace Carrier

/-- The bytes of a number in the memory of the host. -/
def bytes (c : Carrier) (value : BitVec 32) : Bytes :=
  if c.littleEndian then (encode 4 value.toNat).reverse else encode 4 value.toNat

def be32ToCpu (c : Carrier) (value : BitVec 32) : BitVec 32 := BitVec.ofNat 32 (decode (c.bytes value))

/-- `__sdb_rd`. -/
def sdbRd (c : Carrier) (address : BitVec 64) (convert : Bool) : BitVec 32 :=
  let res := c.fmcReadl (address.setWidth 32)
  if convert then c.be32ToCpu res else res

end Carrier

/-- A record as it stands in the memory of the host. -/
structure SdbCopy where
  bytes : Bytes
  length_eq : bytes.length = 64

namespace SdbCopy

def recordType (r : SdbCopy) : UInt8 := r.bytes.getD 63 0

def sdbChild (r : SdbCopy) : ℕ := field r.bytes 0 8

def addrFirst (r : SdbCopy) : ℕ := field r.bytes 8 8

def addrLast (r : SdbCopy) : ℕ := field r.bytes 16 8

def vendorId (r : SdbCopy) : ℕ := field r.bytes 24 8

def deviceId (r : SdbCopy) : ℕ := field r.bytes 32 4

end SdbCopy

namespace Carrier

theorem length_bytes (c : Carrier) (value : BitVec 32) : (c.bytes value).length = 4 := by
  rw [bytes]
  split
  · rw [List.length_reverse, length_encode]
  · exact length_encode 4 _

/-- The record `i` of a table, read in words. -/
def readRecord (c : Carrier) (convert : Bool) (sdbAddr : BitVec 64) (i : ℕ) : SdbCopy where
  bytes := (List.range 16).flatMap fun j =>
    c.bytes (c.sdbRd (sdbAddr + BitVec.ofNat 64 (i * 64) + BitVec.ofNat 64 (4 * j)) convert)
  length_eq := by simp [List.length_flatMap, length_bytes]

/-- Whether the words of a table are to be converted, and its count. Without the magic there is no
table. -/
def header (c : Carrier) (sdbAddr : BitVec 64) : Option (Bool × ℕ) :=
  let onew := c.fmcReadl (sdbAddr.setWidth 32)
  let magic := BitVec.ofNat 32 sdbMagic
  let count := fun convert => decode ((c.bytes (c.sdbRd (sdbAddr + 4) convert)).take 2)
  if onew = magic then
    let convert := decide (magic ≠ c.be32ToCpu magic)
    some (convert, count convert)
  else if onew = c.be32ToCpu magic then some (false, count false)
  else none

end Carrier

/-- The blocks of a table, its level, and where its bus begins. -/
structure SdbInfo where
  arr : ℕ
  record : ℕ
  subtree : ℕ
  level : ℕ
  baseaddr : BitVec 64

/-- The records of a table, each with its subtree or with an error in its place. -/
inductive SdbRows where
  | nil
  | failed (r : SdbCopy) (err : ℤ) (rest : SdbRows)
  | table (r : SdbCopy) (info : SdbInfo) (below rest : SdbRows)

structure SdbArray extends SdbInfo where
  rows : SdbRows

/-- How often `kzalloc` was called, and what became of the blocks. -/
structure Heap where
  calls : ℕ := 0
  ledger : Ledger ℕ Unit := {}

namespace Heap

/-- `ok` tells which calls succeed. -/
def kzalloc (ok : ℕ → Bool) (heap : Heap) : Option ℕ × Heap :=
  if ok heap.calls then (some heap.calls, ⟨heap.calls + 1, heap.ledger.allocate heap.calls⟩)
  else (none, ⟨heap.calls + 1, heap.ledger⟩)

def kfree (heap : Heap) : Option ℕ → Heap
  | none => heap
  | some block => ⟨heap.calls, heap.ledger.release block ()⟩

end Heap

/-- A scan of the table at an address, for a bus that begins at a register base. -/
abbrev Scan := BitVec 64 → BitVec 64 → ℕ → Heap → Option (Except ℤ SdbArray × Heap)

/-- What becomes of a bridge whose bus was scanned. -/
def SdbRows.attach (r : SdbCopy) (newbase : BitVec 64) (rest : SdbRows) : Except ℤ SdbArray → SdbRows
  | .error err => .failed r err rest
  | .ok sub => .table r { sub.toSdbInfo with baseaddr := newbase } sub.rows rest

/-- The loop of `__fmc_scan_sdb_tree`, from the record `i` on. -/
def scanRows (c : Carrier) (scan : Scan) (convert : Bool) (sdbAddr regBase : BitVec 64) (level : ℕ) :
    ℕ → ℕ → Heap → Option (SdbRows × Heap)
  | 0, _, heap => some (.nil, heap)
  | n + 1, i, heap =>
    let r := c.readRecord convert sdbAddr i
    if r.recordType = sdbTypeBridge then
      let subaddr := BitVec.ofNat 64 r.sdbChild + regBase
      let newbase := BitVec.ofNat 64 r.addrFirst + regBase
      (scan subaddr newbase (level + 1) heap).bind fun sub =>
        (scanRows c scan convert sdbAddr regBase level n (i + 1) sub.2).map fun rest =>
          (.attach r newbase rest.1 sub.1, rest.2)
    else
      (scanRows c scan convert sdbAddr regBase level n (i + 1) heap).map fun rest =>
        (.failed r (-enodev) rest.1, rest.2)

/-- `__fmc_scan_sdb_tree`. The fuel bounds the depth of the recursion. -/
def fmcScanTree (c : Carrier) (ok : ℕ → Bool) : ℕ → Scan
  | 0, _, _, _, _ => none
  | fuel + 1, sdbAddr, regBase, level, heap =>
    match c.header sdbAddr with
    | none => some (.error (-enoent), heap)
    | some (convert, n) =>
      match heap.kzalloc ok with
      | (none, heap) => some (.error (-enomem), heap)
      | (some arr, heap) =>
        let (record, heap) := heap.kzalloc ok
        let (subtree, heap) := heap.kzalloc ok
        match record, subtree with
        | some record, some subtree =>
          (scanRows c (fmcScanTree c ok fuel) convert sdbAddr regBase level n 0 heap).map fun rows =>
            (.ok ⟨⟨arr, record, subtree, level, 0⟩, rows.1⟩, rows.2)
        | record, subtree => some (.error (-enomem), ((heap.kfree record).kfree subtree).kfree (some arr))

/-- `fmc_scan_sdb_tree`: what it returns, and the tree of the device. -/
def fmcScanSdbTree (c : Carrier) (ok : ℕ → Bool) (fuel : ℕ) (sdb : Option SdbArray) (address : BitVec 64)
    (heap : Heap) : Option (ℤ × Option SdbArray × Heap) :=
  if sdb.isSome then some (-ebusy, sdb, heap)
  else
    (fmcScanTree c ok fuel address 0 0 heap).map fun ret =>
      match ret with
      | (.error err, heap) => (err, none, heap)
      | (.ok tree, heap) => (0, some tree, heap)

/-- The end of `__fmc_sdb_free`. -/
def SdbInfo.free (info : SdbInfo) (heap : Heap) : Heap :=
  ((heap.kfree (some info.record)).kfree (some info.subtree)).kfree (some info.arr)

/-- The loop of `__fmc_sdb_free`. -/
def SdbRows.free : SdbRows → Heap → Heap
  | .nil, heap => heap
  | .failed _ _ rest, heap => rest.free heap
  | .table _ info below rest, heap => rest.free (info.free (below.free heap))

/-- `__fmc_sdb_free`. -/
def SdbArray.free (tree : SdbArray) (heap : Heap) : Heap := tree.toSdbInfo.free (tree.rows.free heap)

/-- `fmc_free_sdb_tree`: the tree of the device is gone afterwards. -/
def fmcFreeSdbTree : Option SdbArray → Heap → Heap
  | none, heap => heap
  | some tree, heap => tree.free heap

/-- Where the table of a bus is, and where the bus begins. -/
abbrev BusAt := BitVec 64 × BitVec 64

instance finite_address : Finite (BitVec 64) := Finite.of_injective BitVec.toFin fun _ _ h => BitVec.toFin_inj.mp h

/-- The bus behind the record `i`, if that is a bridge. -/
def Carrier.bus (c : Carrier) (convert : Bool) (t : BusAt) (i : ℕ) : Option BusAt :=
  let r := c.readRecord convert t.1 i
  if r.recordType = sdbTypeBridge then
    some (BitVec.ofNat 64 r.sdbChild + t.2, BitVec.ofNat 64 r.addrFirst + t.2)
  else none

/-- The busses behind the bridges of a table. -/
def Carrier.busses (c : Carrier) (t : BusAt) : List BusAt :=
  match c.header t.1 with
  | none => []
  | some (convert, n) => (List.range' 0 n).filterMap (c.bus convert t)

/-- A scan of a device without a tree comes to an end, whichever calls of `kzalloc` succeed. It finds a
tree or returns an error, and after `fmc_free_sdb_tree` every block was freed once for each time it was
allocated. -/
def ScanEnds (c : Carrier) (address : BitVec 64) : Prop :=
  ∀ ok, ∃ fuel ret sdb heap, fmcScanSdbTree c ok fuel none address {} = some (ret, sdb, heap) ∧
    (sdb = none → ret < 0) ∧ (sdb.isSome → ret = 0) ∧
    (∀ block, returns (fmcFreeSdbTree sdb heap).ledger.history block =
      allocations (fmcFreeSdbTree sdb heap).ledger.history block) ∧
    Alternates (fmcFreeSdbTree sdb heap).ledger.history

section Ends

variable {c : Carrier} {ok : ℕ → Bool} {scan : Scan} {convert : Bool} {t : BusAt} {n i level fuel : ℕ}
  {heap : Heap}

theorem scanRows_isSome
    (h : ∀ bus ∈ (List.range' i n).filterMap (c.bus convert t), ∀ level heap,
      (scan bus.1 bus.2 level heap).isSome) :
    (scanRows c scan convert t.1 t.2 level n i heap).isSome := by
  induction n generalizing i heap with
  | zero => rfl
  | succ n ih =>
    rw [List.range'_succ] at h
    have hrest (heap : Heap) : (scanRows c scan convert t.1 t.2 level n (i + 1) heap).isSome :=
      ih fun bus hbus => h bus (((List.sublist_cons_self _ _).filterMap _).mem hbus)
    rw [scanRows]
    dsimp only
    split
    · rename_i hbridge
      have hbus : c.bus convert t i = some (BitVec.ofNat 64 (c.readRecord convert t.1 i).sdbChild + t.2,
          BitVec.ofNat 64 (c.readRecord convert t.1 i).addrFirst + t.2) := if_pos hbridge
      have hsub := h _ (List.mem_filterMap.mpr ⟨i, List.mem_cons_self, hbus⟩) (level + 1) heap
      obtain ⟨sub, hsub⟩ := Option.isSome_iff_exists.mp hsub
      rw [hsub, Option.bind_some, Option.isSome_map]
      exact hrest _
    · rw [Option.isSome_map]
      exact hrest heap

theorem scanRows_none {bus : BusAt} (hbus : bus ∈ (List.range' i n).filterMap (c.bus convert t))
    (h : ∀ level heap, scan bus.1 bus.2 level heap = none) :
    scanRows c scan convert t.1 t.2 level n i heap = none := by
  induction n generalizing i heap with
  | zero => simp at hbus
  | succ n ih =>
    rw [List.range'_succ] at hbus
    rw [scanRows]
    dsimp only
    split
    · rename_i hbridge
      have hfirst : c.bus convert t i = some (BitVec.ofNat 64 (c.readRecord convert t.1 i).sdbChild + t.2,
          BitVec.ofNat 64 (c.readRecord convert t.1 i).addrFirst + t.2) := if_pos hbridge
      rw [List.filterMap_cons_some hfirst] at hbus
      rw [Option.bind_eq_none_iff]
      intro sub hsub
      rw [Option.map_eq_none_iff]
      cases List.mem_cons.mp hbus with
      | inl heq =>
        subst heq
        rw [h] at hsub
        cases hsub
      | inr hrest => exact ih hrest
    · rename_i hbridge
      have hfirst : c.bus convert t i = none := if_neg hbridge
      rw [List.filterMap_cons_none hfirst] at hbus
      rw [Option.map_eq_none_iff]
      exact ih hbus

/-- A scan ends if the scans of the busses of the table end. -/
theorem fmcScanTree_isSome
    (h : ∀ bus ∈ c.busses t, ∀ level heap, (fmcScanTree c ok fuel bus.1 bus.2 level heap).isSome) :
    (fmcScanTree c ok (fuel + 1) t.1 t.2 level heap).isSome := by
  rw [fmcScanTree]
  rw [Carrier.busses] at h
  cases hheader : c.header t.1 with
  | none => rfl
  | some found =>
    rw [hheader] at h
    dsimp only at h ⊢
    split
    · rfl
    · split
      · rw [Option.isSome_map]
        exact scanRows_isSome h
      · rfl

/-- From an accessible table, some depth is enough for every scan. -/
theorem exists_depth (hacc : Acc (Function.swap (Asks c.busses)) t) :
    ∃ depth, ∀ fuel, depth ≤ fuel → ∀ level heap, (fmcScanTree c ok fuel t.1 t.2 level heap).isSome := by
  induction hacc with
  | intro t _ ih =>
    have hall : ∀ busses ⊆ c.busses t, ∃ depth, ∀ bus ∈ busses, ∀ fuel, depth ≤ fuel → ∀ level heap,
        (fmcScanTree c ok fuel bus.1 bus.2 level heap).isSome := by
      intro busses hsub
      induction busses with
      | nil => exact ⟨0, fun bus hbus => absurd hbus List.not_mem_nil⟩
      | cons bus busses ihrest =>
        obtain ⟨first, hfirst⟩ := ih bus (hsub List.mem_cons_self)
        obtain ⟨rest, hrest⟩ := ihrest fun other hother => hsub (List.mem_cons_of_mem bus hother)
        refine ⟨max first rest, fun other hother fuel hfuel => ?_⟩
        cases List.mem_cons.mp hother with
        | inl heq => exact heq ▸ hfirst fuel ((le_max_left first rest).trans hfuel)
        | inr hmem => exact hrest other hmem fuel ((le_max_right first rest).trans hfuel)
    obtain ⟨depth, hdepth⟩ := hall _ (List.Subset.refl _)
    refine ⟨depth + 1, fun fuel hfuel level heap => ?_⟩
    obtain ⟨fuel, rfl⟩ : ∃ k, fuel = k + 1 := ⟨fuel - 1, by omega⟩
    exact fmcScanTree_isSome fun bus hbus => hdepth bus hbus fuel (Nat.le_of_succ_le_succ hfuel)

/-- A chain of tables is followed to its end while there is memory. -/
theorem fmcScanTree_none (h : Chain c.busses fuel t) :
    fmcScanTree c (fun _ => true) fuel t.1 t.2 level heap = none := by
  induction fuel generalizing t level heap with
  | zero => rfl
  | succ fuel ih =>
    obtain ⟨bus, hbus, hrest⟩ := h
    rw [fmcScanTree]
    rw [Carrier.busses] at hbus
    cases hheader : c.header t.1 with
    | none =>
      rw [hheader] at hbus
      exact absurd hbus List.not_mem_nil
    | some found =>
      rw [hheader] at hbus
      simp only [Heap.kzalloc, if_true, Option.map_eq_none_iff]
      exact scanRows_none hbus fun level heap => ih hrest

end Ends

namespace SdbInfo

def blocks (info : SdbInfo) : List ℕ := [info.record, info.subtree, info.arr]

end SdbInfo

/-- The blocks of the tables below a table. -/
def SdbRows.blocks : SdbRows → List ℕ
  | .nil => []
  | .failed _ _ rest => rest.blocks
  | .table _ info below rest => below.blocks ++ (info.blocks ++ rest.blocks)

def SdbArray.blocks (tree : SdbArray) : List ℕ := tree.rows.blocks ++ tree.toSdbInfo.blocks

/-- The blocks of the result of a scan. -/
def scannedBlocks : Except ℤ SdbArray → List ℕ
  | .error _ => []
  | .ok tree => tree.blocks

/-- The given blocks are in use, each once. -/
structure Heap.Owns (heap : Heap) (blocks : List ℕ) : Prop where
  holds : heap.ledger.Holds blocks
  lt : ∀ block ∈ blocks, block < heap.calls

namespace Heap

variable {ok : ℕ → Bool} {heap heap' : Heap} {block : ℕ} {blocks others : List ℕ}

theorem owns_empty : Heap.Owns {} [] where
  holds := Ledger.holds_empty
  lt _ h := absurd h List.not_mem_nil

theorem Owns.of_perm (h : heap.Owns blocks) (hperm : blocks.Perm others) : heap.Owns others where
  holds := h.holds.of_perm hperm
  lt other hother := h.lt other (hperm.mem_iff.mpr hother)

theorem Owns.kzalloc (h : heap.Owns blocks) (ok : ℕ → Bool) :
    (heap.kzalloc ok).2.Owns ((heap.kzalloc ok).1.toList ++ blocks) := by
  have hlt : ∀ other ∈ blocks, other < heap.calls + 1 :=
    fun other hother => Nat.lt_succ_of_lt (h.lt other hother)
  rw [Heap.kzalloc]
  split
  · have hnew : heap.calls ∉ heap.ledger.live := fun hmem =>
      absurd (h.lt _ (h.holds.mem_live.mp hmem)) (Nat.lt_irrefl _)
    refine ⟨h.holds.allocate hnew, fun other hother => ?_⟩
    cases List.mem_cons.mp hother with
    | inl heq => exact heq ▸ Nat.lt_succ_self _
    | inr hmem => exact hlt other hmem
  · exact ⟨h.holds, hlt⟩

theorem Owns.kfree {ret : Option ℕ} (h : heap.Owns (ret.toList ++ blocks)) :
    (heap.kfree ret).Owns blocks := by
  cases ret with
  | none => exact h
  | some block =>
    exact ⟨h.holds.release (), fun other hother => h.lt other (List.mem_cons_of_mem block hother)⟩

end Heap

section Frees

variable {c : Carrier} {ok : ℕ → Bool} {scan : Scan} {convert : Bool} {sdbAddr regBase : BitVec 64}
  {n i level fuel : ℕ} {heap heap' : Heap} {blocks : List ℕ}

theorem SdbInfo.free_owns {info : SdbInfo} (h : heap.Owns (info.blocks ++ blocks)) :
    (info.free heap).Owns blocks := by
  have hrecord : (heap.kfree (some info.record)).Owns (info.subtree :: info.arr :: blocks) := h.kfree
  have hsubtree : ((heap.kfree (some info.record)).kfree (some info.subtree)).Owns (info.arr :: blocks) :=
    hrecord.kfree
  exact hsubtree.kfree

theorem SdbRows.free_owns {rows : SdbRows} (h : heap.Owns (rows.blocks ++ blocks)) :
    (rows.free heap).Owns blocks := by
  induction rows generalizing heap blocks with
  | nil => exact h
  | failed r err rest ih => exact ih h
  | table r info below rest ihbelow ihrest =>
    rw [SdbRows.blocks, List.append_assoc, List.append_assoc] at h
    exact ihrest (SdbInfo.free_owns (ihbelow h))

theorem SdbArray.free_owns {tree : SdbArray} (h : heap.Owns (tree.blocks ++ blocks)) :
    (tree.free heap).Owns blocks := by
  rw [SdbArray.blocks, List.append_assoc] at h
  exact SdbInfo.free_owns (SdbRows.free_owns h)

/-- The blocks of a bus that was scanned stand in its row. -/
theorem attach_blocks (r : SdbCopy) (newbase : BitVec 64) (rest : SdbRows) (sub : Except ℤ SdbArray) :
    (SdbRows.attach r newbase rest sub).blocks = scannedBlocks sub ++ rest.blocks := by
  cases sub with
  | error err => rfl
  | ok tree => exact (List.append_assoc _ _ _).symm

/-- A scan keeps the blocks that are in use, and its result has all that it allocated. -/
def Scan.KeepsBlocks (scan : Scan) : Prop :=
  ∀ {sdbAddr regBase level heap sub heap' blocks}, scan sdbAddr regBase level heap = some (sub, heap') →
    heap.Owns blocks → heap'.Owns (scannedBlocks sub ++ blocks)

theorem scanRows_owns (hscan : scan.KeepsBlocks) {rows : SdbRows}
    (h : scanRows c scan convert sdbAddr regBase level n i heap = some (rows, heap'))
    (howns : heap.Owns blocks) : heap'.Owns (rows.blocks ++ blocks) := by
  induction n generalizing i heap rows heap' blocks with
  | zero =>
    cases h
    exact howns
  | succ n ih =>
    rw [scanRows] at h
    dsimp only at h
    split at h
    · obtain ⟨⟨sub, mid⟩, hsub, hmap⟩ := Option.bind_eq_some_iff.mp h
      obtain ⟨⟨rest, last⟩, hrest, heq⟩ := Option.map_eq_some_iff.mp hmap
      cases heq
      have hall := ih hrest (hscan hsub howns)
      rw [attach_blocks, List.append_assoc]
      exact hall.of_perm (List.perm_append_comm_assoc _ _ _)
    · obtain ⟨⟨rest, last⟩, hrest, heq⟩ := Option.map_eq_some_iff.mp h
      cases heq
      have hall := ih hrest howns
      exact hall

theorem fmcScanTree_owns (c : Carrier) (ok : ℕ → Bool) (fuel : ℕ) :
    Scan.KeepsBlocks (fmcScanTree c ok fuel) := by
  induction fuel with
  | zero => exact fun h => (by cases h)
  | succ fuel ih =>
    intro sdbAddr regBase level heap sub heap' blocks h howns
    rw [fmcScanTree] at h
    split at h
    · cases h
      exact howns
    · have howns₁ := howns.kzalloc ok
      split at h
      · rename_i heap₁ harr
        cases h
        rw [harr] at howns₁
        exact howns₁
      · rename_i arr heap₁ harr
        rw [harr] at howns₁
        have howns₃ := (howns₁.kzalloc ok).kzalloc ok
        dsimp only at h howns₃
        generalize (heap₁.kzalloc ok).1 = record, ((heap₁.kzalloc ok).2.kzalloc ok).1 = subtree,
          ((heap₁.kzalloc ok).2.kzalloc ok).2 = heap₃ at h howns₃
        split at h
        · rename_i record subtree
          obtain ⟨⟨rows, last⟩, hrows, heq⟩ := Option.map_eq_some_iff.mp h
          cases heq
          rw [scannedBlocks, SdbArray.blocks, List.append_assoc]
          exact (scanRows_owns ih hrows howns₃).of_perm ((List.Perm.swap record subtree _).append_left _)
        · cases h
          have hrecord : heap₃.Owns (record.toList ++ (subtree.toList ++ (arr :: blocks))) :=
            howns₃.of_perm (List.perm_append_comm_assoc _ _ _)
          have hsubtree := hrecord.kfree.kfree
          exact hsubtree.kfree

theorem fmcScanTree_neg {err : ℤ}
    (h : fmcScanTree c ok fuel sdbAddr regBase level heap = some (.error err, heap')) : err < 0 := by
  cases fuel with
  | zero => cases h
  | succ fuel =>
    rw [fmcScanTree] at h
    split at h
    · cases h
      decide
    · split at h
      · cases h
        decide
      · dsimp only at h
        split at h
        · obtain ⟨rows, -, heq⟩ := Option.map_eq_some_iff.mp h
          cases heq
        · cases h
          decide

/-- What has been freed when all blocks are back. -/
theorem Heap.Owns.freed (h : heap.Owns []) :
    (∀ block, returns heap.ledger.history block = allocations heap.ledger.history block) ∧
      Alternates heap.ledger.history :=
  ⟨fun _ => h.holds.returned List.not_mem_nil, h.holds.alternates⟩

end Frees

/-- While there is memory, a scan does not come to the end of a chain without end. -/
theorem not_scanEnds {c : Carrier} {address : BitVec 64} (h : ∀ n, Chain c.busses n (address, 0)) :
    ¬ ScanEnds c address := by
  intro hends
  obtain ⟨fuel, ret, sdb, heap, hscan, -⟩ := hends fun _ => true
  have hnone : fmcScanTree c (fun _ => true) fuel address 0 0 {} = none := fmcScanTree_none (h fuel)
  rw [fmcScanSdbTree, if_neg (by simp), hnone] at hscan
  cases hscan

/-- A scan ends, and its tree is freed, if and only if no table that it reaches leads back to itself. -/
theorem scan_ends_iff (c : Carrier) (address : BitVec 64) :
    ScanEnds c address ↔ Acyclic c.busses (address, 0) := by
  constructor
  · intro hends bus hreach hloop
    exact not_scanEnds (chain_of_loop hloop (TransGen.trans_right hreach hloop)) hends
  · intro hacyclic ok
    obtain ⟨fuel, hfuel⟩ := exists_depth (acc_of_acyclic hacyclic)
    obtain ⟨⟨sub, heap⟩, hsub⟩ := Option.isSome_iff_exists.mp (hfuel fuel (Nat.le_refl _) 0 {})
    have howns : heap.Owns (scannedBlocks sub ++ []) := fmcScanTree_owns c ok fuel hsub Heap.owns_empty
    cases sub with
    | error err =>
      have hscan : fmcScanSdbTree c ok fuel none address {} = some (err, none, heap) := by
        rw [fmcScanSdbTree, if_neg (by simp), hsub, Option.map_some]
      have hneg := fmcScanTree_neg hsub
      exact ⟨fuel, err, none, heap, hscan, fun _ => hneg, fun h => (by cases h), howns.freed⟩
    | ok tree =>
      have hscan : fmcScanSdbTree c ok fuel none address {} = some (0, some tree, heap) := by
        rw [fmcScanSdbTree, if_neg (by simp), hsub, Option.map_some]
      exact ⟨fuel, 0, some tree, heap, hscan, fun h => (by cases h), fun _ => rfl,
        (SdbArray.free_owns howns).freed⟩

/-- The table at address zero has a bridge to the same table. -/
def loopingCarrier : Carrier where
  littleEndian := true
  fmcReadl := fun offset =>
    if offset = 0 then BitVec.ofNat 32 sdbMagic
    else if offset = 4 then 0x20000
    else if offset = 124 then BitVec.ofNat 32 sdbTypeBridge.toNat
    else 0

theorem loopingCarrier_busses : loopingCarrier.busses (0, 0) = [(0, 0)] := by decide +kernel

theorem looping_scan : ¬ ScanEnds loopingCarrier 0 := by
  have hself : Asks loopingCarrier.busses (0, 0) (0, 0) := by
    rw [Asks, loopingCarrier_busses]
    exact List.mem_singleton_self _
  exact not_scanEnds (chain_of_loop (.single hself) (.single hself))

end WhiteRabbit.Fmc
