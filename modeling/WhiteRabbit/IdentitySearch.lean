import WhiteRabbit.SdbSearch
import WhiteRabbit.UnfoldedForests

/-!
# What a search by identity finds

The tables behind the root bus unfold into a tree when no bridge leads back. Whatever the order in
which the scans are called back, the search visits every table of the tree, and each callback adds
the devices of its table behind those found before, as long as there is room.
-/

namespace WhiteRabbit.Etherbone

open PendingSearch StepRuns UnfoldedForests

/-- Does a record name a device that is looked for? -/
def matchingDevice (vendorId deviceId : ℕ) : SdbRecord → Option SdbDevice
  | .device d =>
    if d.sdbComponent.product.vendorId = vendorId ∧ d.sdbComponent.product.deviceId = deviceId then some d
    else none
  | _ => none

def matchingDevices (vendorId deviceId : ℕ) (records : List SdbRecord) : List SdbDevice :=
  records.filterMap (matchingDevice vendorId deviceId)

/-- The scan of a table succeeds. -/
def ScanSucceeds (p : Port) (w : ScanWorld) (table : TableRef p) : Prop :=
  (scanReport p w table).status = .ok ∧ (scanReport p w table).table.isSome = true

/-- A tree of tables below the root bus in which every scan succeeds. -/
structure TableTree (p : Port) (w : ScanWorld) where
  tables : Forest (TableRef p)
  unfolds : tables.Unfolds (tablesBelow p w) (ScanSucceeds p w)
  root : tables.roots = [.root]

/-- The devices of a table that are looked for. -/
def devicesOf (p : Port) (w : ScanWorld) (vendorId deviceId : ℕ) (table : TableRef p) : List SdbDevice :=
  matchingDevices vendorId deviceId (scanReport p w table).records

/-- All devices in the tree that are looked for. -/
def TableTree.devices {p : Port} {w : ScanWorld} (tree : TableTree p w) (vendorId deviceId : ℕ) : List SdbDevice :=
  tree.tables.items (devicesOf p w vendorId deviceId)

/-- A search that reaches no loop and no failing scan has such a tree. -/
theorem nonempty_tableTree {p : Port} {w : ScanWorld} (hacyclic : Acyclic (tablesBelow p w) .root)
    (hscans : ∀ table, Relation.ReflTransGen (Asks (tablesBelow p w)) .root table → ScanSucceeds p w table) :
    Nonempty (TableTree p w) := by
  obtain ⟨tables, hunfolds, hroot⟩ := Forest.exists_of_acc (acc_of_acyclic hacyclic) hscans
  exact ⟨⟨tables, hunfolds, hroot⟩⟩

/-- What `eb_sdb_find_by_identity` returns through `devices` and `output`, once it has left its loop. -/
def identityResult {p : Port} (s : Search p FindByIdentity) : Option (ℕ × List SdbDevice) :=
  if 0 < s.record.pending then none else some (s.record.fill, s.record.output)

/-- Every scan can be started. -/
def SearchAct.starts (act : SearchAct) : Prop := ∀ i, act.scanned i = .ok

section Callback

variable {record : FindByIdentity} {found : List SdbDevice}

/-- What a search has found so far, first the devices it has room for. -/
structure Found (record : FindByIdentity) (found : List SdbDevice) : Prop where
  fill : record.fill = found.length
  output : record.output = found.take record.size

/-- What a search looks for. -/
def FindByIdentity.key (record : FindByIdentity) : ℕ × ℕ × ℕ := (record.vendorId, record.deviceId, record.size)

theorem Found.add (h : Found record found) (d : SdbDevice) :
    Found { record with
        output := if record.fill < record.size then record.output ++ [d] else record.output
        fill := record.fill + 1 } (found ++ [d]) where
  fill := by rw [List.length_append, List.length_singleton, h.fill]
  output := by
    simp only [h.fill, h.output]
    split
    · rename_i hlt
      rw [List.take_of_length_le (by omega), List.take_of_length_le (by simp; omega)]
    · rw [List.take_append_of_le_length (by omega)]

/-- The loop over the records adds the devices that are looked for. -/
theorem identityLoop_found (scanned : ℕ → Status) (records : List SdbRecord) (h : Found record found) :
    (identityLoop scanned record records).1.key = record.key ∧
      Found (identityLoop scanned record records).1
        (found ++ matchingDevices record.vendorId record.deviceId records) := by
  induction records generalizing scanned record found with
  | nil => simpa [identityLoop, matchingDevices] using h
  | cons r rest ih =>
    cases r with
    | bridge b =>
      rw [identityLoop]
      split
      · have hstarted : Found { record with pending := record.pending + 1 } found := ⟨h.fill, h.output⟩
        exact ih _ hstarted
      · have hfailed : Found { record with status := scanned 0 } found := ⟨h.fill, h.output⟩
        exact ih _ hfailed
    | device d =>
      rw [identityLoop]
      split
      · rename_i hkey
        have hadd := ih (fun i => scanned (i + 1)) (h.add d)
        have hcons : matchingDevices record.vendorId record.deviceId (.device d :: rest) =
            [d] ++ matchingDevices record.vendorId record.deviceId rest := by
          simp [matchingDevices, matchingDevice, hkey]
        rw [hcons, ← List.append_assoc]
        exact hadd
      · rename_i hkey
        have hcons : matchingDevices record.vendorId record.deviceId (.device d :: rest) =
            matchingDevices record.vendorId record.deviceId rest := by
          simp [matchingDevices, matchingDevice, hkey]
        rw [hcons]
        exact ih _ h
    | integration r => exact ih _ h
    | other bytes => exact ih _ h

/-- The callback of a scan that succeeds. -/
theorem ebCbFindByIdentity_found (scanned : ℕ → Status) {report : SdbReport} (hstatus : report.status = .ok)
    (htable : report.table.isSome = true) (h : Found record found) :
    (ebCbFindByIdentity scanned record report).1.key = record.key ∧
      Found (ebCbFindByIdentity scanned record report).1
        (found ++ matchingDevices record.vendorId record.deviceId report.records) := by
  obtain ⟨status, table⟩ := report
  obtain ⟨sdb, rfl⟩ := Option.isSome_iff_exists.mp htable
  obtain rfl : status = .ok := hstatus
  have hanswered : Found { record with pending := record.pending - 1 } found := ⟨h.fill, h.output⟩
  exact identityLoop_found scanned sdb.record hanswered

end Callback

section Runs

variable {p : Port} {w : ScanWorld} {vendorId deviceId size : ℕ} {s t : Search p FindByIdentity}
  {remaining : Forest (TableRef p)} {found : List SdbDevice}

/-- A search with the tables that it has not seen yet. -/
structure SearchProgress (w : ScanWorld) (vendorId deviceId size : ℕ) (s : Search p FindByIdentity)
    (remaining : Forest (TableRef p)) (found : List SdbDevice) : Prop where
  key : s.record.key = (vendorId, deviceId, size)
  unfolds : remaining.Unfolds (tablesBelow p w) (ScanSucceeds p w)
  roots : remaining.roots = s.inFlight
  pending : s.record.pending = s.inFlight.length
  found : Found s.record found

/-- A callback takes one table out of the remaining ones. -/
theorem SearchProgress.step {act : SearchAct} (h : SearchProgress w vendorId deviceId size s remaining found)
    (hact : act.starts) (hstep : searchStep w ebCbFindByIdentity s act = some t) :
    ∃ remaining' new, SearchProgress w vendorId deviceId size t remaining' (found ++ new) ∧
      (new ++ remaining'.items (devicesOf p w vendorId deviceId)).Perm
        (remaining.items (devicesOf p w vendorId deviceId)) ∧
      remaining'.size + 1 = remaining.size := by
  obtain ⟨table, htable, hrecord, hflight, -⟩ := searchStep_eq hstep
  rw [← h.roots] at htable
  obtain ⟨⟨hstatus, hsome⟩, remaining', hunfolds, hroots, hitems, hsize⟩ :=
    h.unfolds.answer (f := devicesOf p w vendorId deviceId) htable
  have hkey := h.key
  have hvendor : s.record.vendorId = vendorId := congrArg Prod.fst hkey
  have hdevice : s.record.deviceId = deviceId := congrArg (fun key => key.2.1) hkey
  obtain ⟨hkey', hfound⟩ := ebCbFindByIdentity_found act.scanned hstatus hsome h.found
  have hbridges := (ebCbFindByIdentity_spec act.scanned s.record (scanReport p w table)).2.2 hact
  rw [hvendor, hdevice] at hfound
  refine ⟨remaining', devicesOf p w vendorId deviceId table, ⟨?_, hunfolds, ?_, pending_step h.pending hstep, ?_⟩,
    hitems, hsize⟩
  · rw [hrecord, hkey', hkey]
  · rw [hroots, hflight, hbridges, h.roots]
    rfl
  · rw [hrecord]
    exact hfound

/-- Callbacks in any order. -/
theorem SearchProgress.run {acts : List SearchAct} (h : SearchProgress w vendorId deviceId size s remaining found)
    (hacts : ∀ act ∈ acts, act.starts) (hrun : run (searchStep w ebCbFindByIdentity) s acts = some t) :
    ∃ remaining' found', SearchProgress w vendorId deviceId size t remaining' found' ∧
      (found' ++ remaining'.items (devicesOf p w vendorId deviceId)).Perm
        (found ++ remaining.items (devicesOf p w vendorId deviceId)) ∧
      acts.length + remaining'.size = remaining.size := by
  induction acts generalizing s remaining found with
  | nil =>
    cases hrun
    exact ⟨remaining, found, h, .refl _, by simp⟩
  | cons act acts ih =>
    rw [run_cons] at hrun
    obtain ⟨u, hu, hrun⟩ := Option.bind_eq_some_iff.mp hrun
    obtain ⟨mid, new, hmid, hperm, hsize⟩ := h.step (hacts act (by simp)) hu
    obtain ⟨remaining', found', h', hperm', hsize'⟩ :=
      ih hmid (fun act' hact' => hacts act' (List.mem_cons_of_mem act hact')) hrun
    refine ⟨remaining', found', h', hperm'.trans ?_, ?_⟩
    · rw [List.append_assoc]
      exact hperm.append_left found
    · rw [List.length_cons]
      omega

/-- The search as it starts. -/
theorem searchProgress_start (tree : TableTree p w) (vendorId deviceId size : ℕ) :
    SearchProgress w vendorId deviceId size
      (startSearch p { vendorId := vendorId, deviceId := deviceId, size := size }) tree.tables [] where
  key := rfl
  unfolds := tree.unfolds
  roots := tree.root
  pending := rfl
  found := ⟨rfl, List.take_nil.symm⟩

theorem identityResult_eq_some {devices : ℕ} {output : List SdbDevice} :
    identityResult s = some (devices, output) ↔
      s.record.pending = 0 ∧ s.record.fill = devices ∧ s.record.output = output := by
  rw [identityResult]
  split
  · simp
    omega
  · simp
    omega

/-- Where nothing is left, everything was found. -/
theorem SearchProgress.eq_nil (h : SearchProgress w vendorId deviceId size s remaining found)
    (hpending : s.record.pending = 0) : remaining = .nil := by
  have hroots : remaining.roots = [] := by
    rw [h.roots, ← List.length_eq_zero_iff, ← h.pending, hpending]
  cases remaining with
  | nil => rfl
  | cons table below rest => cases hroots

/-- As long as a scan is in flight it can be called back. -/
theorem SearchProgress.continues (h : SearchProgress w vendorId deviceId size s remaining found)
    (hpending : 0 < s.record.pending) :
    ∃ act t, SearchAct.starts act ∧ searchStep w ebCbFindByIdentity s act = some t := by
  rw [h.pending] at hpending
  have hsome : (searchStep w ebCbFindByIdentity s ⟨0, fun _ => .ok⟩).isSome = true := by
    rw [searchStep, List.getElem?_eq_getElem hpending]
    rfl
  obtain ⟨t, ht⟩ := Option.isSome_iff_exists.mp hsome
  exact ⟨⟨0, fun _ => .ok⟩, t, fun _ => rfl, ht⟩

/-- On a tree of tables a search by identity ends with the number of all devices that it looks for,
and with as many of them as there is room for. -/
theorem findByIdentity_result (tree : TableTree p w) (vendorId deviceId size : ℕ) {acts : List SearchAct}
    (hacts : ∀ act ∈ acts, act.starts)
    (hrun : run (searchStep w ebCbFindByIdentity)
      (startSearch p { vendorId := vendorId, deviceId := deviceId, size := size }) acts = some s) :
    s.scans = acts.length + s.record.pending ∧
    ((identityResult s).isSome = true ↔ s.scans = acts.length) ∧
    (identityResult s = none → ∃ act t, SearchAct.starts act ∧ searchStep w ebCbFindByIdentity s act = some t) ∧
    acts.length ≤ tree.tables.size ∧
    s.record.output.length = min size s.record.fill ∧
    ∀ devices output, identityResult s = some (devices, output) →
      acts.length = tree.tables.size ∧ devices = (tree.devices vendorId deviceId).length ∧
      output.length = min size devices ∧ output.Subperm (tree.devices vendorId deviceId) := by
  obtain ⟨remaining, found, h, hperm, hsize⟩ := (searchProgress_start tree vendorId deviceId size).run hacts hrun
  have hscans : s.scans = acts.length + s.record.pending := by
    rw [scans_eq hrun rfl, h.pending]
  have hroom : s.record.size = size := congrArg (fun key => key.2.2) h.key
  have houtput : s.record.output.length = min size s.record.fill := by
    rw [h.found.output, h.found.fill, hroom, List.length_take]
  refine ⟨hscans, ?_, fun hnone => ?_, by omega, houtput, fun devices output hsome => ?_⟩
  · rw [identityResult]
    split
    · simp
      omega
    · simp
      omega
  · apply h.continues
    by_contra hzero
    rw [identityResult, if_neg hzero] at hnone
    cases hnone
  · obtain ⟨hpending, rfl, rfl⟩ := identityResult_eq_some.mp hsome
    obtain rfl := h.eq_nil hpending
    have hall : found.Perm (tree.devices vendorId deviceId) := by
      simpa [Forest.items, TableTree.devices] using hperm
    refine ⟨hsize, ?_, houtput, ?_⟩
    · rw [h.found.fill, hall.length_eq]
    · rw [h.found.output]
      exact (List.take_sublist _ _).subperm.trans hall.subperm

end Runs

namespace Sample

/-- A record of a device with vendor `0x651`. -/
def deviceRecord (deviceId : UInt8) : BigEndian.Bytes :=
  List.replicate 30 0 ++ [6, 0x51, 0, 0, 0, deviceId] ++ List.replicate 27 0 ++ [sdbRecordDevice]

/-- A bridge to a table at `0xC0`. -/
def bridgeRecord : BigEndian.Bytes :=
  List.replicate 7 0 ++ [0xC0] ++ List.replicate 8 0 ++ List.replicate 8 0xFF ++ List.replicate 39 0 ++
    [sdbRecordBridge]

/-- A root table of a device and a bridge, and the table behind the bridge. -/
def nestedTables : BigEndian.Bytes :=
  [0x53, 0x44, 0x42, 0x2D, 0, 3, 1, 0] ++ List.replicate 56 0 ++ deviceRecord 1 ++ bridgeRecord ++
    [0x53, 0x44, 0x42, 0x2D, 0, 3, 1, 0] ++ List.replicate 56 0 ++ deviceRecord 1 ++ deviceRecord 2

def nestedWorld : ScanWorld where
  staleHeader := fun _ => 0
  staleTable := fun _ => 0
  staleAddress := 0
  openHeader := .ok
  openAll := .ok
  pointer := readMemory sdbPort (fun _ => 0) [8, 10, 12, 14]
  header := readMemory sdbPort fun i => nestedTables.getD i 0
  all := readMemory sdbPort fun i => nestedTables.getD i 0

def nestedTree : TableTree sdbPort nestedWorld where
  tables := .cons .root (.cons (.nested 0xC0 0) .nil .nil) .nil
  unfolds := by
    have hroot : ScanSucceeds sdbPort nestedWorld .root := by
      unfold ScanSucceeds
      decide +kernel
    have hnested : ScanSucceeds sdbPort nestedWorld (.nested 0xC0 0) := by
      unfold ScanSucceeds
      decide +kernel
    have hchildren : [.nested 0xC0 0] = tablesBelow sdbPort nestedWorld .root := by decide +kernel
    have hleaf : [] = tablesBelow sdbPort nestedWorld (.nested 0xC0 0) := by decide +kernel
    exact ⟨hroot, hchildren, ⟨hnested, hleaf, trivial, trivial⟩, trivial⟩
  root := rfl

/-- Two devices match, and there is room for one. -/
theorem findByIdentity_nested : ∃ s output,
    run (searchStep nestedWorld ebCbFindByIdentity)
        (startSearch sdbPort { vendorId := 0x651, deviceId := 1, size := 1 })
        [⟨0, fun _ => .ok⟩, ⟨0, fun _ => .ok⟩] = some s ∧
      identityResult s = some (2, output) ∧ output.length = 1 ∧ output.Subperm (nestedTree.devices 0x651 1) := by
  have hresult : ((run (searchStep nestedWorld ebCbFindByIdentity)
      (startSearch sdbPort { vendorId := 0x651, deviceId := 1, size := 1 })
      [⟨0, fun _ => .ok⟩, ⟨0, fun _ => .ok⟩]).bind identityResult).map Prod.fst = some 2 := by decide +kernel
  obtain ⟨⟨devices, output⟩, hbind, rfl⟩ := Option.map_eq_some_iff.mp hresult
  obtain ⟨s, hrun, hdone⟩ := Option.bind_eq_some_iff.mp hbind
  have hacts : ∀ act ∈ [SearchAct.mk 0 fun _ => .ok, ⟨0, fun _ => .ok⟩], act.starts := by
    intro act hact
    simp only [List.mem_cons, List.not_mem_nil, or_false, or_self] at hact
    rw [hact]
    exact fun _ => rfl
  obtain ⟨-, -, -, -, -, hall⟩ := findByIdentity_result nestedTree 0x651 1 1 hacts hrun
  obtain ⟨-, -, hlength, hsub⟩ := hall 2 output hdone
  exact ⟨s, output, hrun, hdone, hlength, hsub⟩

end Sample

end WhiteRabbit.Etherbone
