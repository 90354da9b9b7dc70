import Mathlib.Data.Finite.Prod
import Mathlib.Data.Fintype.Option
import WhiteRabbit.PendingSearch
import WhiteRabbit.SdbScan

/-!
# Searching the tables of a device

Both searches scan the root bus, and from their callback the busses behind the bridges they find.
What the device holds does not change meanwhile, so a scan depends only on the address of the
table and on the base of its bus.
-/

namespace WhiteRabbit.Etherbone
open PendingSearch StepRuns

/-- What a scan is started for. -/
inductive TableRef (p : Port) where
  | root
  | nested (address busBase : Fin (256 ^ p.word))
  deriving DecidableEq

/-- The bus behind a bridge. -/
def nestedTable (p : Port) (bridge : SdbBridge) : TableRef p :=
  have hpos : 0 < 256 ^ p.word := Nat.pow_pos (by decide)
  .nested ⟨bridge.sdbChild % 256 ^ p.word, Nat.mod_lt _ hpos⟩
    ⟨bridge.sdbComponent.addrFirst % 256 ^ p.word, Nat.mod_lt _ hpos⟩

/-- What is called back for a scan. -/
def scanReport (p : Port) (w : ScanWorld) : TableRef p → SdbReport
  | .root => (ebSdbScanRoot p w).1
  | .nested address busBase => (sdbScan p w busBase (.read (readAddresses p address 32))).1

/-- `struct eb_find_by_address`. The status is `none` while it is positive. -/
structure FindByAddress where
  address : ℕ
  output : Option SdbDevice := none
  status : Option Status := none

/-- `struct eb_find_by_identity`. Its counters are of type `int`; here they are natural numbers, which are the
same while fewer than 2^31 devices are found and fewer scans are pending. -/
structure FindByIdentity where
  vendorId : ℕ
  deviceId : ℕ
  size : ℕ
  output : List SdbDevice := []
  fill : ℕ := 0
  pending : ℕ := 1
  status : Status := .ok

def SdbComponent.holds (component : SdbComponent) (address : ℕ) : Bool :=
  decide (component.addrFirst ≤ address ∧ address ≤ component.addrLast)

/-- The loop of `eb_cb_find_by_address`, with the bridge whose bus it scans. `scanned i` is what
`eb_sdb_scan_bus` returns for the record `i`. -/
def addressLoop (scanned : ℕ → Status) (record : FindByAddress) :
    List SdbRecord → FindByAddress × List SdbBridge
  | [] => ({ record with status := some .address }, [])
  | .bridge b :: rest =>
    if b.sdbComponent.holds record.address then
      if scanned 0 = .ok then (record, [b]) else ({ record with status := some (scanned 0) }, [])
    else addressLoop (fun i => scanned (i + 1)) record rest
  | .device d :: rest =>
    if d.sdbComponent.holds record.address then ({ record with output := some d, status := some .ok }, [])
    else addressLoop (fun i => scanned (i + 1)) record rest
  | _ :: rest => addressLoop (fun i => scanned (i + 1)) record rest

def ebCbFindByAddress (scanned : ℕ → Status) (record : FindByAddress) (report : SdbReport) :
    FindByAddress × List SdbBridge :=
  match report.status, report.table with
  | .ok, some sdb => addressLoop scanned record sdb.record
  | status, _ => ({ record with status := some status }, [])

/-- The loop of `eb_cb_find_by_identity`, with the bridges whose busses it scans. -/
def identityLoop (scanned : ℕ → Status) (record : FindByIdentity) :
    List SdbRecord → FindByIdentity × List SdbBridge
  | [] => (record, [])
  | .bridge b :: rest =>
    if scanned 0 = .ok then
      let (record, bridges) :=
        identityLoop (fun i => scanned (i + 1)) { record with pending := record.pending + 1 } rest
      (record, b :: bridges)
    else identityLoop (fun i => scanned (i + 1)) { record with status := scanned 0 } rest
  | .device d :: rest =>
    if d.sdbComponent.product.vendorId = record.vendorId ∧
        d.sdbComponent.product.deviceId = record.deviceId then
      let output := if record.fill < record.size then record.output ++ [d] else record.output
      identityLoop (fun i => scanned (i + 1)) { record with output := output, fill := record.fill + 1 } rest
    else identityLoop (fun i => scanned (i + 1)) record rest
  | _ :: rest => identityLoop (fun i => scanned (i + 1)) record rest

def ebCbFindByIdentity (scanned : ℕ → Status) (record : FindByIdentity) (report : SdbReport) :
    FindByIdentity × List SdbBridge :=
  let record := { record with pending := record.pending - 1 }
  match report.status, report.table with
  | .ok, some sdb => identityLoop scanned record sdb.record
  | status, _ => ({ record with status := status }, [])

/-- A search with the scans that are not called back yet, and the number of scans it started. -/
structure Search (p : Port) (R : Type) where
  record : R
  inFlight : List (TableRef p)
  scans : ℕ

/-- The scan at some position is called back. -/
structure SearchAct where
  position : ℕ
  scanned : ℕ → Status

section Machine

variable {p : Port} {R : Type} (w : ScanWorld) (callback : (ℕ → Status) → R → SdbReport → R × List SdbBridge)

def searchStep (s : Search p R) (act : SearchAct) : Option (Search p R) :=
  s.inFlight[act.position]?.map fun table =>
    let (record, bridges) := callback act.scanned s.record (scanReport p w table)
    { record := record
      inFlight := s.inFlight.eraseIdx act.position ++ bridges.map (nestedTable p)
      scans := s.scans + bridges.length }

/-- A search from a scan of the root bus. -/
def startSearch (p : Port) (record : R) : Search p R := ⟨record, [.root], 1⟩

/-- Only finitely many scans are started, and once they are all called back the blocking loop ends. -/
def SearchEnds (p : Port) (record : R) (finished : R → Prop) : Prop :=
  (∃ bound, ∀ acts s, run (searchStep w callback) (startSearch p record) acts = some s → s.scans ≤ bound) ∧
    ∀ acts s, run (searchStep w callback) (startSearch p record) acts = some s →
      s.inFlight = [] → finished s.record

end Machine

/-- The records of a successful report. -/
def SdbReport.records (report : SdbReport) : List SdbRecord :=
  match report.status, report.table with
  | .ok, some sdb => sdb.record
  | _, _ => []

/-- The bridge that is the first record on the way to an address. -/
def bridgeTowards (address : ℕ) : List SdbRecord → Option SdbBridge
  | [] => none
  | .bridge b :: rest => if b.sdbComponent.holds address then some b else bridgeTowards address rest
  | .device d :: rest => if d.sdbComponent.holds address then none else bridgeTowards address rest
  | _ :: rest => bridgeTowards address rest

/-- The bridges of a table. -/
def bridges : List SdbRecord → List SdbBridge
  | [] => []
  | .bridge b :: rest => b :: bridges rest
  | _ :: rest => bridges rest

/-- The tables that a table leads to, towards an address. -/
def tablesTowards (p : Port) (w : ScanWorld) (address : ℕ) (table : TableRef p) : List (TableRef p) :=
  (bridgeTowards address (scanReport p w table).records).toList.map (nestedTable p)

/-- All tables that a table leads to. -/
def tablesBelow (p : Port) (w : ScanWorld) (table : TableRef p) : List (TableRef p) :=
  (bridges (scanReport p w table).records).map (nestedTable p)

section Machine

variable {p : Port} {R : Type} {w : ScanWorld} {callback : (ℕ → Status) → R → SdbReport → R × List SdbBridge}

theorem searchStep_eq {s t : Search p R} {act : SearchAct} (h : searchStep w callback s act = some t) :
    ∃ table, s.inFlight[act.position]? = some table ∧
      t.record = (callback act.scanned s.record (scanReport p w table)).1 ∧
      t.inFlight = s.inFlight.eraseIdx act.position ++
        (callback act.scanned s.record (scanReport p w table)).2.map (nestedTable p) ∧
      t.scans = s.scans + (callback act.scanned s.record (scanReport p w table)).2.length := by
  obtain ⟨table, htable, rfl⟩ := Option.map_eq_some_iff.mp h
  exact ⟨table, htable, rfl, rfl, rfl⟩

/-- Every scan that was started is in flight or was called back. -/
theorem scans_eq {s t : Search p R} {acts : List SearchAct} (h : run (searchStep w callback) s acts = some t)
    (hs : s.scans = s.inFlight.length) : t.scans = acts.length + t.inFlight.length := by
  induction acts using List.reverseRecOn generalizing t with
  | nil =>
    cases h
    simpa using hs
  | append_singleton acts act ih =>
    rw [run_append] at h
    obtain ⟨u, hu, hlast⟩ := Option.bind_eq_some_iff.mp h
    rw [run_cons] at hlast
    obtain ⟨v, hv, hnil⟩ := Option.bind_eq_some_iff.mp hlast
    cases hnil
    obtain ⟨table, htable, -, hflight, hscans⟩ := searchStep_eq hv
    obtain ⟨hlt, -⟩ := List.getElem?_eq_some_iff.mp htable
    have hbefore := ih hu
    simp only [hscans, hflight, hbefore, List.length_append, List.length_eraseIdx_of_lt hlt, List.length_map,
      List.length_singleton]
    omega

/-- What a callback has to do for the search to be one with pending tables. -/
structure Follows (callback : (ℕ → Status) → R → SdbReport → R × List SdbBridge)
    (Inv : R → Prop) (follow : SdbReport → List SdbBridge) : Prop where
  keep : ∀ scanned record report, Inv record → Inv (callback scanned record report).1
  sub : ∀ scanned record report, Inv record → (callback scanned record report).2.Sublist (follow report)
  all : ∀ record report, Inv record → (callback (fun _ => .ok) record report).2 = follow report

theorem Follows.implements {Inv : R → Prop} {follow : SdbReport → List SdbBridge}
    (h : Follows callback Inv follow) :
    Implements (fun table => (follow (scanReport p w table)).map (nestedTable p)) (searchStep w callback)
      Search.inFlight (fun s => Inv s.record) where
  sound {s a t} hs hstep := by
    obtain ⟨table, htable, hrecord, hflight, -⟩ := searchStep_eq hstep
    rw [hrecord]
    exact ⟨h.keep _ _ _ hs, a.position, table, _, htable, (h.sub _ _ _ hs).map _, hflight⟩
  complete {s i table} hs hget := by
    refine ⟨⟨i, fun _ => .ok⟩, _, by rw [searchStep, hget]; rfl, ?_⟩
    dsimp only
    rw [h.all _ _ hs]

instance : Finite (TableRef p) :=
  Finite.of_injective
    (fun table : TableRef p => match table with
      | .root => none
      | .nested address busBase => some (address, busBase)) fun a b h => by
    cases a <;> cases b <;> simp_all

/-- Finitely many scans are started exactly when no table that is reached leads back to itself. -/
theorem Follows.bounded_iff {Inv : R → Prop} {follow : SdbReport → List SdbBridge}
    (h : Follows callback Inv follow) (record : R) (hrecord : Inv record) :
    (∃ bound, ∀ acts s, run (searchStep w callback) (startSearch p record) acts = some s → s.scans ≤ bound) ↔
      Acyclic (fun table => (follow (scanReport p w table)).map (nestedTable p)) .root := by
  rw [← (h.implements (p := p) (w := w)).bounded_iff (s := startSearch p record) hrecord rfl]
  apply exists_congr
  intro bound
  apply forall_congr'
  intro acts
  apply forall_congr'
  intro s
  apply forall_congr'
  intro hrun
  rw [scans_eq hrun rfl]

end Machine

section Address

/-- The records that a search towards an address skips. -/
theorem addressLoop_spec (scanned : ℕ → Status) (record : FindByAddress) (records : List SdbRecord) :
    (addressLoop scanned record records).1.address = record.address ∧
      ((addressLoop scanned record records = (record, (bridgeTowards record.address records).toList) ∧
        (bridgeTowards record.address records).isSome = true) ∨
      ((addressLoop scanned record records).1.status.isSome = true ∧ (addressLoop scanned record records).2 = [] ∧
        ((∀ i, scanned i = .ok) → bridgeTowards record.address records = none))) := by
  induction records generalizing scanned with
  | nil => exact ⟨rfl, .inr ⟨rfl, rfl, fun _ => rfl⟩⟩
  | cons r records ih =>
    have hrest := ih fun i => scanned (i + 1)
    have hok : ∀ h : (∀ i, scanned i = .ok), ∀ i, scanned (i + 1) = .ok := fun h i => h (i + 1)
    cases r with
    | bridge b =>
      rw [addressLoop, bridgeTowards]
      by_cases hholds : b.sdbComponent.holds record.address = true
      · rw [if_pos hholds, if_pos hholds]
        by_cases hscanned : scanned 0 = .ok
        · rw [if_pos hscanned]
          exact ⟨rfl, .inl ⟨rfl, rfl⟩⟩
        · rw [if_neg hscanned]
          exact ⟨rfl, .inr ⟨rfl, rfl, fun h => absurd (h 0) hscanned⟩⟩
      · rw [if_neg hholds, if_neg hholds]
        exact ⟨hrest.1, hrest.2.imp id fun h => ⟨h.1, h.2.1, fun hall => h.2.2 (hok hall)⟩⟩
    | device d =>
      rw [addressLoop, bridgeTowards]
      by_cases hholds : d.sdbComponent.holds record.address = true
      · rw [if_pos hholds, if_pos hholds]
        exact ⟨rfl, .inr ⟨rfl, rfl, fun _ => rfl⟩⟩
      · rw [if_neg hholds, if_neg hholds]
        exact ⟨hrest.1, hrest.2.imp id fun h => ⟨h.1, h.2.1, fun hall => h.2.2 (hok hall)⟩⟩
    | integration _ => exact ⟨hrest.1, hrest.2.imp id fun h => ⟨h.1, h.2.1, fun hall => h.2.2 (hok hall)⟩⟩
    | other _ => exact ⟨hrest.1, hrest.2.imp id fun h => ⟨h.1, h.2.1, fun hall => h.2.2 (hok hall)⟩⟩

/-- A callback of the search either follows a bridge and leaves the record, or sets its status. -/
theorem ebCbFindByAddress_spec (scanned : ℕ → Status) (record : FindByAddress) (report : SdbReport) :
    (ebCbFindByAddress scanned record report).1.address = record.address ∧
      ((ebCbFindByAddress scanned record report =
          (record, (bridgeTowards record.address report.records).toList) ∧
        (bridgeTowards record.address report.records).isSome = true) ∨
      ((ebCbFindByAddress scanned record report).1.status.isSome = true ∧
        (ebCbFindByAddress scanned record report).2 = [] ∧
        ((∀ i, scanned i = .ok) → bridgeTowards record.address report.records = none))) := by
  obtain ⟨status, table⟩ := report
  cases status with
  | ok =>
    cases table with
    | none => exact ⟨rfl, .inr ⟨rfl, rfl, fun _ => rfl⟩⟩
    | some sdb => exact addressLoop_spec scanned record sdb.record
  | _ => exact ⟨rfl, .inr ⟨rfl, rfl, fun _ => rfl⟩⟩

theorem follows_address (address : ℕ) : Follows ebCbFindByAddress (fun record => record.address = address)
    fun report => (bridgeTowards address report.records).toList where
  keep scanned record report h := (ebCbFindByAddress_spec scanned record report).1.trans h
  sub scanned record report h := by
    obtain ⟨-, hfollow | hdone⟩ := ebCbFindByAddress_spec scanned record report
    · rw [hfollow.1, h]
    · rw [hdone.2.1]
      exact List.nil_sublist _
  all record report h := by
    obtain ⟨-, hfollow | hdone⟩ := ebCbFindByAddress_spec (fun _ => .ok) record report
    · rw [hfollow.1, h]
    · rw [hdone.2.1, ← h, hdone.2.2 fun _ => rfl]
      rfl

/-- The search waits for one scan, or its status is set. -/
def AddressWaits {p : Port} (s : Search p FindByAddress) : Prop :=
  (s.record.status = none ∧ s.inFlight.length = 1) ∨ (s.record.status.isSome = true ∧ s.inFlight = [])

theorem AddressWaits.step {p : Port} {w : ScanWorld} {s t : Search p FindByAddress} {act : SearchAct}
    (h : AddressWaits s) (hstep : searchStep w ebCbFindByAddress s act = some t) : AddressWaits t := by
  obtain ⟨table, htable, hrecord, hflight, -⟩ := searchStep_eq hstep
  cases h with
  | inr hdone => simp [hdone.2] at htable
  | inl hwaits =>
    obtain ⟨hlt, -⟩ := List.getElem?_eq_some_iff.mp htable
    have hrest : s.inFlight.eraseIdx act.position = [] := by
      apply List.eq_nil_of_length_eq_zero
      rw [List.length_eraseIdx_of_lt hlt, hwaits.2]
    rw [hrest, List.nil_append] at hflight
    obtain ⟨-, hfollow | hdone⟩ := ebCbFindByAddress_spec act.scanned s.record (scanReport p w table)
    · obtain ⟨b, hb⟩ := Option.isSome_iff_exists.mp hfollow.2
      rw [hfollow.1] at hrecord hflight
      refine .inl ⟨by rw [hrecord, hwaits.1], ?_⟩
      rw [hflight, hb]
      rfl
    · rw [hdone.2.1] at hflight
      exact .inr ⟨by rw [hrecord]; exact hdone.1, hflight⟩

end Address

section Identity

/-- A loop over the records follows some of the bridges, and counts them. -/
theorem identityLoop_spec (scanned : ℕ → Status) (record : FindByIdentity) (records : List SdbRecord) :
    (identityLoop scanned record records).2.Sublist (bridges records) ∧
      (identityLoop scanned record records).1.pending =
        record.pending + (identityLoop scanned record records).2.length ∧
      ((∀ i, scanned i = .ok) → (identityLoop scanned record records).2 = bridges records) := by
  induction records generalizing scanned record with
  | nil => exact ⟨.refl _, rfl, fun _ => rfl⟩
  | cons r records ih =>
    have hskip : ∀ record' : FindByIdentity, record'.pending = record.pending →
        (identityLoop (fun i => scanned (i + 1)) record' records).2.Sublist (bridges records) ∧
          (identityLoop (fun i => scanned (i + 1)) record' records).1.pending = record.pending +
            (identityLoop (fun i => scanned (i + 1)) record' records).2.length ∧
          ((∀ i, scanned i = .ok) →
            (identityLoop (fun i => scanned (i + 1)) record' records).2 = bridges records) := by
      intro record' hpending
      obtain ⟨hsub, hcount, hall⟩ := ih (fun i => scanned (i + 1)) record'
      exact ⟨hsub, by rw [hcount, hpending], fun h => hall fun i => h (i + 1)⟩
    cases r with
    | bridge b =>
      rw [identityLoop, bridges]
      by_cases hscanned : scanned 0 = .ok
      · rw [if_pos hscanned]
        obtain ⟨hsub, hcount, hall⟩ :=
          ih (fun i => scanned (i + 1)) { record with pending := record.pending + 1 }
        refine ⟨hsub.cons_cons b, ?_, fun h => congrArg (b :: ·) (hall fun i => h (i + 1))⟩
        dsimp only at hcount ⊢
        rw [hcount, List.length_cons]
        omega
      · rw [if_neg hscanned]
        obtain ⟨hsub, hcount, -⟩ := hskip { record with status := scanned 0 } rfl
        exact ⟨hsub.cons b, hcount, fun h => absurd (h 0) hscanned⟩
    | device d =>
      rw [identityLoop, bridges]
      · split
        · exact hskip _ rfl
        · exact hskip _ rfl
      · simp
    | integration _ => exact hskip record rfl
    | other _ => exact hskip record rfl

theorem ebCbFindByIdentity_spec (scanned : ℕ → Status) (record : FindByIdentity) (report : SdbReport) :
    (ebCbFindByIdentity scanned record report).2.Sublist (bridges report.records) ∧
      (ebCbFindByIdentity scanned record report).1.pending =
        record.pending - 1 + (ebCbFindByIdentity scanned record report).2.length ∧
      ((∀ i, scanned i = .ok) → (ebCbFindByIdentity scanned record report).2 = bridges report.records) := by
  obtain ⟨status, table⟩ := report
  cases status with
  | ok =>
    cases table with
    | none => exact ⟨.refl _, rfl, fun _ => rfl⟩
    | some sdb => exact identityLoop_spec scanned _ sdb.record
  | _ => exact ⟨.refl _, rfl, fun _ => rfl⟩

theorem follows_identity :
    Follows ebCbFindByIdentity (fun _ => True) fun report => bridges report.records where
  keep _ _ _ _ := trivial
  sub scanned record report _ := (ebCbFindByIdentity_spec scanned record report).1
  all record report _ := (ebCbFindByIdentity_spec _ record report).2.2 fun _ => rfl

/-- The record counts the scans in flight. -/
theorem pending_step {p : Port} {w : ScanWorld} {s t : Search p FindByIdentity} {act : SearchAct}
    (h : s.record.pending = s.inFlight.length) (hstep : searchStep w ebCbFindByIdentity s act = some t) :
    t.record.pending = t.inFlight.length := by
  obtain ⟨table, htable, hrecord, hflight, -⟩ := searchStep_eq hstep
  obtain ⟨hlt, -⟩ := List.getElem?_eq_some_iff.mp htable
  have hcount := (ebCbFindByIdentity_spec act.scanned s.record (scanReport p w table)).2.1
  rw [hrecord, hflight, hcount, h, List.length_append, List.length_eraseIdx_of_lt hlt, List.length_map]

end Identity

/-- A search ends, in every order of the answers, exactly when no table that it reaches leads back
to itself. -/
theorem searches_end_iff (p : Port) (w : ScanWorld) :
    (∀ address,
      SearchEnds w ebCbFindByAddress p { address := address } (fun record => record.status.isSome = true) ↔
      Acyclic (tablesTowards p w address) .root) ∧
    ∀ vendorId deviceId size,
      SearchEnds w ebCbFindByIdentity p { vendorId := vendorId, deviceId := deviceId, size := size }
        (fun record => record.pending = 0) ↔ Acyclic (tablesBelow p w) .root := by
  constructor
  · intro address
    have hbounded := (follows_address address).bounded_iff (p := p) (w := w) { address := address } rfl
    refine ⟨fun h => hbounded.mp h.1, fun h => ⟨hbounded.mpr h, fun acts s hrun hflight => ?_⟩⟩
    have hwaits : AddressWaits s := run_keeps (fun hs hstep => hs.step hstep) (.inl ⟨rfl, rfl⟩) hrun
    cases hwaits with
    | inl hone => simp [hflight] at hone
    | inr hdone => exact hdone.1
  · intro vendorId deviceId size
    have hbounded := follows_identity.bounded_iff (p := p) (w := w)
      { vendorId := vendorId, deviceId := deviceId, size := size } trivial
    refine ⟨fun h => hbounded.mp h.1, fun h => ⟨hbounded.mpr h, fun acts s hrun hflight => ?_⟩⟩
    have hpending : s.record.pending = s.inFlight.length :=
      run_keeps (I := fun s : Search p FindByIdentity => s.record.pending = s.inFlight.length)
        (fun hs hstep => pending_step hs hstep) rfl hrun
    exact hpending.trans (by rw [hflight]; rfl)

namespace Sample

/-- A table of one bridge, over the whole bus, whose child is the table itself. -/
def loopingTable : BigEndian.Bytes :=
  [0x53, 0x44, 0x42, 0x2D, 0, 2, 1, 0] ++ List.replicate 72 0 ++ List.replicate 8 0xFF ++ List.replicate 39 0 ++
    [sdbRecordBridge]

def loopingWorld : ScanWorld where
  staleHeader := fun _ => 0
  staleTable := fun _ => 0
  staleAddress := 0
  openHeader := .ok
  openAll := .ok
  pointer := readMemory sdbPort (fun _ => 0) [8, 10, 12, 14]
  header := readMemory sdbPort fun i => loopingTable.getD i 0
  all := readMemory sdbPort fun i => loopingTable.getD i 0

theorem loopingWorld_root : tablesTowards sdbPort loopingWorld 0 .root = [.nested 0 0] := by decide +kernel

theorem loopingWorld_nested :
    tablesTowards sdbPort loopingWorld 0 (.nested 0 0) = [.nested 0 0] := by decide +kernel

/-- The search for address zero scans the bus behind the bridge over and over. -/
theorem looping_search : ¬ SearchEnds loopingWorld ebCbFindByAddress sdbPort { address := 0 }
    fun record => record.status.isSome = true := by
  intro h
  have hacyclic := ((follows_address 0).bounded_iff (p := sdbPort) (w := loopingWorld) { address := 0 } rfl).mp h.1
  have hroot : Asks (tablesTowards sdbPort loopingWorld 0) .root (.nested 0 0) := by
    rw [Asks, loopingWorld_root]
    exact List.mem_singleton_self _
  have hloop : Asks (tablesTowards sdbPort loopingWorld 0) (.nested 0 0) (.nested 0 0) := by
    rw [Asks, loopingWorld_nested]
    exact List.mem_singleton_self _
  exact hacyclic (.nested 0 0) (.single hroot) (.single hloop)

end Sample

end WhiteRabbit.Etherbone
