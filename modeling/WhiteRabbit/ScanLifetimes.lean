import WhiteRabbit.CellLedger
import WhiteRabbit.SdbScan
import WhiteRabbit.StepRuns

/-!
# The cells of running scans

A scan has a cell which the callbacks of its cycles share, and the last of them frees. User code
runs between the calls of the library and inside of its callbacks; there it may start further
scans, and have the socket end further cycles.
-/

namespace WhiteRabbit.Etherbone
open StepRuns

/-- The callback of a cycle of a scan. -/
inductive ScanStage where
  | gotHeaderPtr | gotHeader | gotAll
  deriving DecidableEq

/-- How many cycles of the scan may still have to end. -/
def ScanStage.left : ScanStage → ℕ
  | .gotHeaderPtr => 3
  | .gotHeader => 2
  | .gotAll => 1

/-- An `eb_sdb_scan` cell. Handles are not reused. -/
structure ScanCell where
  scan : ℕ
  busBase : ℕ

/-- A closed cycle of a scan that has not ended. -/
structure ScanCycle where
  cycle : ℕ
  port : Port
  stage : ScanStage
  scan : ℕ

/-- A call of the user's callback that has not returned. Under `decode`, `eb_sdb_got_all` frees the
cell when it returns. -/
inductive ScanFrame where
  | callback
  | decode (scan : ℕ)

inductive ScanEvent where
  | allocated (scan : ℕ)
  | accepted (scan : ℕ)
  | answered (scan : ℕ)
  | called (scan : ℕ) (report : SdbReport)
  | released (scan : ℕ)
  deriving DecidableEq

structure ScanMachine where
  cells : List ScanCell := []
  cycles : List ScanCycle := []
  stack : List ScanFrame := []
  nextId : ℕ := 0
  log : List ScanEvent := []

/-- Calls of user code, the end of a cycle, and the return of a callback. `alloc` says whether there
is a cell, and `opened` is what `eb_cycle_open` returns. -/
inductive ScanAct where
  | scanRoot (port : Port) (alloc : Bool) (opened : Status)
  | scanBus (port : Port) (bridge : SdbBridge) (alloc : Bool) (opened : Status)
  | answer (cycle : ℕ) (opened : Status) (stale : ℕ → UInt8) (staleAddress : ℕ) (answer : Answer)
  | done

/-- Whether `eb_sdb_got_all` frees the cell before it calls back. -/
def freesFirst (status : Status) (ops : List Operation) : Bool :=
  status != .ok || (ebSdbFillBlock 64 ops).1 != .more

namespace ScanMachine

def newSdbScan (m : ScanMachine) (busBase : ℕ) : ScanMachine :=
  { m with
    cells := ⟨m.nextId, busBase⟩ :: m.cells
    nextId := m.nextId + 1
    log := m.log ++ [.allocated m.nextId] }

def freeSdbScan (m : ScanMachine) (scan : ℕ) : ScanMachine :=
  { m with cells := m.cells.eraseP fun cell => cell.scan == scan, log := m.log ++ [.released scan] }

def call (m : ScanMachine) (scan : ℕ) (report : SdbReport) (frame : ScanFrame) : ScanMachine :=
  { m with stack := frame :: m.stack, log := m.log ++ [.called scan report] }

/-- A cycle is opened, filled and closed. -/
def closeCycle (m : ScanMachine) (port : Port) (stage : ScanStage) (scan : ℕ) : ScanMachine :=
  { m with cycles := ⟨m.nextId, port, stage, scan⟩ :: m.cycles, nextId := m.nextId + 1 }

/-- The call returns `EB_OK`. -/
def accept (m : ScanMachine) (scan : ℕ) : ScanMachine := { m with log := m.log ++ [.accepted scan] }

/-- A cycle ends. -/
def endCycle (m : ScanMachine) (c : ScanCycle) : ScanMachine :=
  { m with
    cycles := m.cycles.eraseP fun other => other.cycle == c.cycle
    log := m.log ++ [.answered c.scan] }

/-- What `eb_sdb_scan_root` and `eb_sdb_scan_bus` have in common, with the status they return. -/
def startScan (m : ScanMachine) (port : Port) (stage : ScanStage) (busBase : ℕ) (alloc : Bool)
    (opened : Status) : ScanMachine × Status :=
  if !alloc then (m, .oom)
  else
    let scan := m.nextId
    let m := m.newSdbScan busBase
    if opened ≠ .ok then (m.freeSdbScan scan, opened)
    else ((m.closeCycle port stage scan).accept scan, .ok)

def ebSdbScanRoot (m : ScanMachine) (port : Port) (alloc : Bool) (opened : Status) : ScanMachine × Status :=
  m.startScan port .gotHeaderPtr 0 alloc opened

def ebSdbScanBus (m : ScanMachine) (port : Port) (bridge : SdbBridge) (alloc : Bool) (opened : Status) :
    ScanMachine × Status :=
  if bridge.sdbComponent.product.recordType ≠ sdbRecordBridge then (m, .address)
  else m.startScan port .gotHeader (bridge.sdbComponent.addrFirst % 256 ^ port.word) alloc opened

/-- What the first two callbacks do with the cell: it is freed before the user is called back, or
passed to the next cycle. -/
def proceed (m : ScanMachine) (port : Port) (stage : ScanStage) (scan : ℕ) : SdbNext → ScanMachine
  | .report r => (m.freeSdbScan scan).call scan r .callback
  | .read _ => m.closeCycle port stage scan

/-- `eb_sdb_got_all` up to the callback. -/
def gotAll (m : ScanMachine) (cell : ScanCell) (stale : ℕ → UInt8) (answer : Answer) : ScanMachine :=
  let report := ebSdbGotAll stale cell.busBase answer.status answer.ops
  if freesFirst answer.status answer.ops then (m.freeSdbScan cell.scan).call cell.scan report .callback
  else m.call cell.scan report (.decode cell.scan)

/-- The callback of a cycle. -/
def callback (m : ScanMachine) (c : ScanCycle) (cell : ScanCell) (opened : Status) (stale : ℕ → UInt8)
    (staleAddress : ℕ) (answer : Answer) : ScanMachine :=
  match c.stage with
  | .gotHeaderPtr =>
    m.proceed c.port .gotHeader cell.scan (ebSdbGotHeaderPtr c.port opened answer.status answer.ops)
  | .gotHeader =>
    m.proceed c.port .gotAll cell.scan
      (ebSdbGotHeader c.port stale staleAddress opened answer.status answer.ops)
  | .gotAll => m.gotAll cell stale answer

/-- The callback on top returns. -/
def popTo (m : ScanMachine) (stack : List ScanFrame) : ScanMachine := { m with stack := stack }

def cycle? (m : ScanMachine) (cycle : ℕ) : Option ScanCycle := m.cycles.find? fun c => c.cycle == cycle

def cell? (m : ScanMachine) (scan : ℕ) : Option ScanCell := m.cells.find? fun cell => cell.scan == scan

/-- The end of a cycle. Without its cell the callback would read freed memory. -/
def answer (m : ScanMachine) (cycle : ℕ) (opened : Status) (stale : ℕ → UInt8) (staleAddress : ℕ)
    (answer : Answer) : Option ScanMachine :=
  (m.cycle? cycle).bind fun c =>
    (m.cell? c.scan).map fun cell => (m.endCycle c).callback c cell opened stale staleAddress answer

def step (m : ScanMachine) : ScanAct → Option ScanMachine
  | .scanRoot port alloc opened => some (m.ebSdbScanRoot port alloc opened).1
  | .scanBus port bridge alloc opened => some (m.ebSdbScanBus port bridge alloc opened).1
  | .answer cycle opened stale staleAddress answer => m.answer cycle opened stale staleAddress answer
  | .done =>
    match m.stack with
    | [] => none
    | .callback :: stack => some (m.popTo stack)
    | .decode scan :: stack => some ((m.popTo stack).freeSdbScan scan)

section Counts

variable (m : ScanMachine) (n : ℕ)

def allocations : ℕ := m.log.count (.allocated n)

def acceptances : ℕ := m.log.count (.accepted n)

def answers : ℕ := m.log.count (.answered n)

/-- How often the user was called back for a scan. -/
def calls : ℕ := m.log.countP fun e => match e with | .called scan _ => scan == n | _ => false

def releases : ℕ := m.log.count (.released n)

def live : ℕ := m.cells.countP fun cell => cell.scan == n

/-- In how many cycles the scan waits. -/
def waiting : ℕ := m.cycles.countP fun c => c.scan == n

def decoding : ℕ := m.stack.countP fun frame => match frame with | .decode scan => scan == n | _ => false

/-- How many cycles of the scan may still have to end. -/
def left : ℕ := ((m.cycles.filter fun c => c.scan == n).map fun c => c.stage.left).sum

end Counts

/-- Every cell is held by one cycle of its scan or by a callback behind the last one; `held` and `budget`
are what the running library code holds, and how many cycles it may still close. -/
structure Accounts (m : ScanMachine) (held budget : ℕ → ℕ) : Prop where
  fresh : ∀ n, m.nextId ≤ n → m.allocations n = 0
  once : ∀ n, m.allocations n ≤ 1
  accepted : ∀ n, m.acceptances n ≤ m.allocations n
  cells : ∀ n, m.allocations n = m.releases n + m.live n
  owner : ∀ n, m.live n = m.waiting n + m.decoding n + held n
  callback : ∀ n, m.acceptances n = m.calls n + m.waiting n + held n
  behind : ∀ n, m.decoding n ≤ m.calls n
  bounded : ∀ n, m.answers n + m.left n + budget n ≤ 3 * m.acceptances n

/-- Between the calls nothing is held. -/
def Sound (m : ScanMachine) : Prop := m.Accounts (fun _ => 0) fun _ => 0

theorem countP_eraseP {α : Type*} {p q : α → Bool} {l : List α} {a : α} (h : l.find? p = some a) :
    l.countP q = (l.eraseP p).countP q + if q a then 1 else 0 :=
  ((CellLedger.perm_cons_eraseP h).countP_eq q).trans List.countP_cons

theorem sum_eraseP {α : Type*} {p q : α → Bool} {f : α → ℕ} {l : List α} {a : α} (h : l.find? p = some a) :
    ((l.filter q).map f).sum = (((l.eraseP p).filter q).map f).sum + if q a then f a else 0 := by
  rw [(((CellLedger.perm_cons_eraseP h).filter q).map f).sum_nat, List.filter_cons]
  split
  · rw [List.map_cons, List.sum_cons, Nat.add_comm]
  · rfl

/-- One scan has `k` of something. -/
def one (scan k n : ℕ) : ℕ := if scan = n then k else 0

section Effects

variable (m : ScanMachine) (scan n : ℕ) (port : Port) (stage : ScanStage) (r : SdbReport) (frame : ScanFrame)

@[simp] theorem releases_freeSdbScan : (m.freeSdbScan scan).releases n = m.releases n + one scan 1 n := by
  simp [releases, freeSdbScan, one, List.count_singleton]

@[simp] theorem allocations_freeSdbScan : (m.freeSdbScan scan).allocations n = m.allocations n := by
  simp [allocations, freeSdbScan]

@[simp] theorem acceptances_freeSdbScan : (m.freeSdbScan scan).acceptances n = m.acceptances n := by
  simp [acceptances, freeSdbScan]

@[simp] theorem answers_freeSdbScan : (m.freeSdbScan scan).answers n = m.answers n := by
  simp [answers, freeSdbScan]

@[simp] theorem calls_freeSdbScan : (m.freeSdbScan scan).calls n = m.calls n := by
  simp [calls, freeSdbScan]

@[simp] theorem waiting_freeSdbScan : (m.freeSdbScan scan).waiting n = m.waiting n := rfl
@[simp] theorem left_freeSdbScan : (m.freeSdbScan scan).left n = m.left n := rfl
@[simp] theorem decoding_freeSdbScan : (m.freeSdbScan scan).decoding n = m.decoding n := rfl
@[simp] theorem nextId_freeSdbScan : (m.freeSdbScan scan).nextId = m.nextId := rfl

@[simp] theorem calls_call : (m.call scan r frame).calls n = m.calls n + one scan 1 n := by
  simp [calls, call, one]

@[simp] theorem allocations_call : (m.call scan r frame).allocations n = m.allocations n := by
  simp [allocations, call]

@[simp] theorem acceptances_call : (m.call scan r frame).acceptances n = m.acceptances n := by
  simp [acceptances, call]

@[simp] theorem answers_call : (m.call scan r frame).answers n = m.answers n := by
  simp [answers, call]

@[simp] theorem releases_call : (m.call scan r frame).releases n = m.releases n := by
  simp [releases, call]

@[simp] theorem decoding_call : (m.call scan r .callback).decoding n = m.decoding n := by
  simp [decoding, call]

@[simp] theorem decoding_decode : (m.call scan r (.decode scan)).decoding n = m.decoding n + one scan 1 n := by
  simp [decoding, call, one, List.countP_cons]

@[simp] theorem live_call : (m.call scan r frame).live n = m.live n := rfl
@[simp] theorem waiting_call : (m.call scan r frame).waiting n = m.waiting n := rfl
@[simp] theorem left_call : (m.call scan r frame).left n = m.left n := rfl
@[simp] theorem nextId_call : (m.call scan r frame).nextId = m.nextId := rfl

@[simp] theorem waiting_closeCycle :
    (m.closeCycle port stage scan).waiting n = m.waiting n + one scan 1 n := by
  simp [waiting, closeCycle, one, List.countP_cons]

@[simp] theorem left_closeCycle :
    (m.closeCycle port stage scan).left n = m.left n + one scan stage.left n := by
  simp only [left, closeCycle, one, List.filter_cons]
  by_cases h : scan = n
  · simp [h, Nat.add_comm]
  · simp [h]

@[simp] theorem live_closeCycle : (m.closeCycle port stage scan).live n = m.live n := rfl
@[simp] theorem decoding_closeCycle : (m.closeCycle port stage scan).decoding n = m.decoding n := rfl
@[simp] theorem nextId_closeCycle : (m.closeCycle port stage scan).nextId = m.nextId + 1 := rfl
@[simp] theorem allocations_closeCycle : (m.closeCycle port stage scan).allocations n = m.allocations n := rfl
@[simp] theorem releases_closeCycle : (m.closeCycle port stage scan).releases n = m.releases n := rfl
@[simp] theorem calls_closeCycle : (m.closeCycle port stage scan).calls n = m.calls n := rfl
@[simp] theorem answers_closeCycle : (m.closeCycle port stage scan).answers n = m.answers n := rfl
@[simp] theorem acceptances_closeCycle : (m.closeCycle port stage scan).acceptances n = m.acceptances n := rfl

@[simp] theorem allocations_newSdbScan (busBase : ℕ) :
    (m.newSdbScan busBase).allocations n = m.allocations n + one m.nextId 1 n := by
  simp [allocations, newSdbScan, one, List.count_singleton]

@[simp] theorem acceptances_newSdbScan (busBase : ℕ) :
    (m.newSdbScan busBase).acceptances n = m.acceptances n := by
  simp [acceptances, newSdbScan]

@[simp] theorem answers_newSdbScan (busBase : ℕ) : (m.newSdbScan busBase).answers n = m.answers n := by
  simp [answers, newSdbScan]

@[simp] theorem calls_newSdbScan (busBase : ℕ) : (m.newSdbScan busBase).calls n = m.calls n := by
  simp [calls, newSdbScan]

@[simp] theorem releases_newSdbScan (busBase : ℕ) : (m.newSdbScan busBase).releases n = m.releases n := by
  simp [releases, newSdbScan]

@[simp] theorem live_newSdbScan (busBase : ℕ) :
    (m.newSdbScan busBase).live n = m.live n + one m.nextId 1 n := by
  simp [live, newSdbScan, one, List.countP_cons]

@[simp] theorem waiting_newSdbScan (busBase : ℕ) : (m.newSdbScan busBase).waiting n = m.waiting n := rfl
@[simp] theorem left_newSdbScan (busBase : ℕ) : (m.newSdbScan busBase).left n = m.left n := rfl
@[simp] theorem decoding_newSdbScan (busBase : ℕ) : (m.newSdbScan busBase).decoding n = m.decoding n := rfl
@[simp] theorem nextId_newSdbScan (busBase : ℕ) : (m.newSdbScan busBase).nextId = m.nextId + 1 := rfl

@[simp] theorem acceptances_accept : (m.accept scan).acceptances n = m.acceptances n + one scan 1 n := by
  simp [acceptances, accept, one, List.count_singleton]

@[simp] theorem allocations_accept : (m.accept scan).allocations n = m.allocations n := by
  simp [allocations, accept]

@[simp] theorem answers_accept : (m.accept scan).answers n = m.answers n := by simp [answers, accept]

@[simp] theorem calls_accept : (m.accept scan).calls n = m.calls n := by simp [calls, accept]

@[simp] theorem releases_accept : (m.accept scan).releases n = m.releases n := by simp [releases, accept]

@[simp] theorem live_accept : (m.accept scan).live n = m.live n := rfl
@[simp] theorem waiting_accept : (m.accept scan).waiting n = m.waiting n := rfl
@[simp] theorem left_accept : (m.accept scan).left n = m.left n := rfl
@[simp] theorem decoding_accept : (m.accept scan).decoding n = m.decoding n := rfl
@[simp] theorem nextId_accept : (m.accept scan).nextId = m.nextId := rfl

@[simp] theorem allocations_popTo (stack : List ScanFrame) : (m.popTo stack).allocations n = m.allocations n := rfl
@[simp] theorem acceptances_popTo (stack : List ScanFrame) : (m.popTo stack).acceptances n = m.acceptances n := rfl
@[simp] theorem answers_popTo (stack : List ScanFrame) : (m.popTo stack).answers n = m.answers n := rfl
@[simp] theorem calls_popTo (stack : List ScanFrame) : (m.popTo stack).calls n = m.calls n := rfl
@[simp] theorem releases_popTo (stack : List ScanFrame) : (m.popTo stack).releases n = m.releases n := rfl
@[simp] theorem live_popTo (stack : List ScanFrame) : (m.popTo stack).live n = m.live n := rfl
@[simp] theorem waiting_popTo (stack : List ScanFrame) : (m.popTo stack).waiting n = m.waiting n := rfl
@[simp] theorem left_popTo (stack : List ScanFrame) : (m.popTo stack).left n = m.left n := rfl
@[simp] theorem nextId_popTo (stack : List ScanFrame) : (m.popTo stack).nextId = m.nextId := rfl

@[simp] theorem answers_endCycle (c : ScanCycle) :
    (m.endCycle c).answers n = m.answers n + one c.scan 1 n := by
  simp [answers, endCycle, one, List.count_singleton]

@[simp] theorem allocations_endCycle (c : ScanCycle) : (m.endCycle c).allocations n = m.allocations n := by
  simp [allocations, endCycle]

@[simp] theorem acceptances_endCycle (c : ScanCycle) : (m.endCycle c).acceptances n = m.acceptances n := by
  simp [acceptances, endCycle]

@[simp] theorem calls_endCycle (c : ScanCycle) : (m.endCycle c).calls n = m.calls n := by
  simp [calls, endCycle]

@[simp] theorem releases_endCycle (c : ScanCycle) : (m.endCycle c).releases n = m.releases n := by
  simp [releases, endCycle]

@[simp] theorem live_endCycle (c : ScanCycle) : (m.endCycle c).live n = m.live n := rfl
@[simp] theorem decoding_endCycle (c : ScanCycle) : (m.endCycle c).decoding n = m.decoding n := rfl
@[simp] theorem nextId_endCycle (c : ScanCycle) : (m.endCycle c).nextId = m.nextId := rfl

/-- A cycle that is found. -/
theorem find_cycle {c : ScanCycle} {cycle : ℕ} (h : m.cycle? cycle = some c) :
    (m.cycles.find? fun other => other.cycle == c.cycle) = some c := by
  have hid : c.cycle = cycle := by simpa using List.find?_some h
  rw [hid]
  exact h

theorem waiting_endCycle {c : ScanCycle} {cycle : ℕ} (h : m.cycle? cycle = some c) :
    m.waiting n = (m.endCycle c).waiting n + one c.scan 1 n := by
  have hcount := countP_eraseP (q := fun c => c.scan == n) (m.find_cycle h)
  simpa [waiting, endCycle, one] using hcount

theorem left_endCycle {c : ScanCycle} {cycle : ℕ} (h : m.cycle? cycle = some c) :
    m.left n = (m.endCycle c).left n + one c.scan c.stage.left n := by
  have hsum := sum_eraseP (q := fun c => c.scan == n) (f := fun c => c.stage.left) (m.find_cycle h)
  simpa [left, endCycle, one] using hsum

theorem live_freeSdbScan (h : 0 < m.live scan) :
    m.live n = (m.freeSdbScan scan).live n + one scan 1 n := by
  obtain ⟨cell, hcell, hscan⟩ := List.countP_pos_iff.mp h
  cases hfind : m.cell? scan with
  | none =>
    have := List.find?_eq_none.mp hfind cell hcell
    exact absurd hscan this
  | some cell =>
    have hs : cell.scan = scan := by simpa using List.find?_some hfind
    have hcount := countP_eraseP (q := fun cell => cell.scan == n) hfind
    simpa [live, freeSdbScan, hs, one] using hcount

end Effects

section Steps

variable {m : ScanMachine} {scan : ℕ} {budget : ℕ → ℕ}

theorem Accounts.live_pos (h : m.Accounts (one scan 1) budget) : 0 < m.live scan := by
  have howner := h.owner scan
  rw [one, if_pos rfl] at howner
  omega

/-- Freeing the cell and calling the user back. -/
theorem Accounts.report (h : m.Accounts (one scan 1) budget) (r : SdbReport) :
    ((m.freeSdbScan scan).call scan r .callback).Sound where
  fresh n hn := by simpa using h.fresh n hn
  once n := by simpa using h.once n
  accepted n := by simpa using h.accepted n
  cells n := by
    have hcells := h.cells n
    have hfree := live_freeSdbScan m scan n h.live_pos
    simp
    omega
  owner n := by
    have howner := h.owner n
    have hfree := live_freeSdbScan m scan n h.live_pos
    simp
    omega
  callback n := by
    have hcallback := h.callback n
    simp
    omega
  behind n := by
    have hbehind := h.behind n
    simp
    omega
  bounded n := by
    have hbounded := h.bounded n
    simp
    omega

/-- Calling the user back, with the cell still there. -/
theorem Accounts.decode (h : m.Accounts (one scan 1) budget) (r : SdbReport) :
    (m.call scan r (.decode scan)).Sound where
  fresh n hn := by simpa using h.fresh n hn
  once n := by simpa using h.once n
  accepted n := by simpa using h.accepted n
  cells n := by simpa using h.cells n
  owner n := by
    have howner := h.owner n
    simp
    omega
  callback n := by
    have hcallback := h.callback n
    simp
    omega
  behind n := by
    have hbehind := h.behind n
    simp
    omega
  bounded n := by
    have hbounded := h.bounded n
    simp
    omega

/-- Passing the cell to the next cycle. -/
theorem Accounts.close {stage : ScanStage} (h : m.Accounts (one scan 1) (one scan stage.left)) (port : Port) :
    (m.closeCycle port stage scan).Sound where
  fresh n hn := by
    have hle : m.nextId ≤ n := Nat.le_of_succ_le hn
    exact h.fresh n hle
  once := h.once
  accepted := h.accepted
  cells := h.cells
  owner n := by
    have howner := h.owner n
    simp
    omega
  callback n := by
    have hcallback := h.callback n
    simp
    omega
  behind := h.behind
  bounded n := by
    have hbounded := h.bounded n
    simp
    omega

/-- When a cycle ends, the library takes over its cell. -/
theorem Sound.endCycle {c : ScanCycle} {cycle : ℕ} (h : m.Sound) (hc : m.cycle? cycle = some c) :
    (m.endCycle c).Accounts (one c.scan 1) (one c.scan (c.stage.left - 1)) where
  fresh n hn := by simpa using h.fresh n hn
  once n := by simpa using h.once n
  accepted n := by simpa using h.accepted n
  cells n := by simpa using h.cells n
  owner n := by
    have howner := h.owner n
    have hwaiting := waiting_endCycle m n hc
    simp
    omega
  callback n := by
    have hcallback := h.callback n
    have hwaiting := waiting_endCycle m n hc
    simp
    omega
  behind n := by simpa using h.behind n
  bounded n := by
    have hbounded := h.bounded n
    have hleft := left_endCycle m n hc
    have hpos : one c.scan c.stage.left n = one c.scan 1 n + one c.scan (c.stage.left - 1) n := by
      have hstage : 1 ≤ c.stage.left := by cases c.stage <;> decide
      simp only [one]
      split <;> omega
    simp
    omega

theorem one_of_lt {n : ℕ} (h : scan < n) (k : ℕ) : one scan k n = 0 := if_neg (Nat.ne_of_lt h)

theorem Sound.fresh_new (h : m.Sound) {n : ℕ} (hn : m.nextId + 1 ≤ n) :
    m.allocations n + one m.nextId 1 n = 0 := by
  rw [h.fresh n (Nat.le_of_succ_le hn), one_of_lt hn]

/-- A new handle is allocated for the first time. -/
theorem Sound.once_new (h : m.Sound) (n : ℕ) : m.allocations n + one m.nextId 1 n ≤ 1 := by
  have honce := h.once n
  rw [one]
  split
  · rename_i hn
    have hfresh := h.fresh n (Nat.le_of_eq hn)
    omega
  · exact honce

/-- A scan for which no cycle can be opened. -/
theorem Sound.refuse (h : m.Sound) (busBase : ℕ) : ((m.newSdbScan busBase).freeSdbScan m.nextId).Sound := by
  have hlive : 0 < (m.newSdbScan busBase).live m.nextId := by simp [one]
  exact {
    fresh := fun n hn => by simpa using h.fresh_new hn
    once := fun n => by simpa using h.once_new n
    accepted := fun n => by
      have haccepted := h.accepted n
      simp
      omega
    cells := fun n => by
      have hcells := h.cells n
      have hfree := live_freeSdbScan (m.newSdbScan busBase) m.nextId n hlive
      simp at hfree ⊢
      omega
    owner := fun n => by
      have howner := h.owner n
      have hfree := live_freeSdbScan (m.newSdbScan busBase) m.nextId n hlive
      simp at hfree ⊢
      omega
    callback := fun n => by simpa using h.callback n
    behind := fun n => by simpa using h.behind n
    bounded := fun n => by simpa using h.bounded n }

/-- A scan whose first cycle is closed. -/
theorem Sound.accept (h : m.Sound) (port : Port) (stage : ScanStage) (busBase : ℕ) :
    (((m.newSdbScan busBase).closeCycle port stage m.nextId).accept m.nextId).Sound where
  fresh n hn := by simpa using h.fresh_new (Nat.le_of_succ_le hn)
  once n := by simpa using h.once_new n
  accepted n := by
    have haccepted := h.accepted n
    simp
    omega
  cells n := by
    have hcells := h.cells n
    simp
    omega
  owner n := by
    have howner := h.owner n
    simp
    omega
  callback n := by
    have hcallback := h.callback n
    simp
    omega
  behind n := by simpa using h.behind n
  bounded n := by
    have hbounded := h.bounded n
    have hleft : one m.nextId stage.left n ≤ 3 * one m.nextId 1 n := by
      have hstage : stage.left ≤ 3 := by cases stage <;> decide
      simp only [one]
      split <;> omega
    simp
    omega

theorem Sound.startScan (h : m.Sound) (port : Port) (stage : ScanStage) (busBase : ℕ) (alloc : Bool)
    (opened : Status) : (m.startScan port stage busBase alloc opened).1.Sound := by
  rw [ScanMachine.startScan]
  split
  · exact h
  · dsimp only
    split
    · exact h.refuse busBase
    · exact h.accept port stage busBase

theorem Accounts.proceed {port : Port} {stage : ScanStage} (next : SdbNext)
    (h : m.Accounts (one scan 1) (one scan stage.left)) : (m.proceed port stage scan next).Sound := by
  cases next with
  | report r => exact h.report r
  | read addresses => exact h.close port

theorem Accounts.gotAll {cell : ScanCell} (h : m.Accounts (one cell.scan 1) budget) (stale : ℕ → UInt8)
    (answer : Answer) : (m.gotAll cell stale answer).Sound := by
  rw [ScanMachine.gotAll]
  split
  · exact h.report _
  · exact h.decode _

theorem Sound.answer {m' : ScanMachine} (h : m.Sound) {cycle : ℕ} {opened : Status} {stale : ℕ → UInt8}
    {staleAddress : ℕ} {answer : Answer}
    (hanswer : m.answer cycle opened stale staleAddress answer = some m') : m'.Sound := by
  obtain ⟨c, hc, hcell⟩ := Option.bind_eq_some_iff.mp hanswer
  obtain ⟨cell, hfind, rfl⟩ := Option.map_eq_some_iff.mp hcell
  have hscan : cell.scan = c.scan := by simpa using List.find?_some hfind
  have hheld := h.endCycle hc
  rw [← hscan] at hheld
  rw [ScanMachine.callback]
  cases hstage : c.stage with
  | gotHeaderPtr =>
    rw [hstage] at hheld
    exact hheld.proceed _
  | gotHeader =>
    rw [hstage] at hheld
    exact hheld.proceed _
  | gotAll => exact hheld.gotAll _ _

/-- A callback of the user returns, with nothing left to do. -/
theorem Sound.pop {stack : List ScanFrame} (h : m.Sound) (hstack : m.stack = .callback :: stack) :
    (m.popTo stack).Sound := by
  have hdecoding : ∀ n, m.decoding n = (m.popTo stack).decoding n := fun n => by
    simp [decoding, hstack, popTo]
  exact {
    fresh := h.fresh
    once := h.once
    accepted := h.accepted
    cells := h.cells
    owner := fun n => (hdecoding n) ▸ h.owner n
    callback := h.callback
    behind := fun n => (hdecoding n) ▸ h.behind n
    bounded := h.bounded }

/-- A callback under `eb_sdb_got_all` returns, and the cell is freed. -/
theorem Sound.popDecode {stack : List ScanFrame} (h : m.Sound) (hstack : m.stack = .decode scan :: stack) :
    ((m.popTo stack).freeSdbScan scan).Sound := by
  have hdecoding : ∀ n, m.decoding n = (m.popTo stack).decoding n + one scan 1 n := fun n => by
    simp [decoding, hstack, popTo, one, List.countP_cons]
  have hlive : 0 < (m.popTo stack).live scan := by
    have howner := h.owner scan
    have hscan := hdecoding scan
    rw [one, if_pos rfl] at hscan
    simp
    omega
  exact {
    fresh := fun n hn => by simpa using h.fresh n hn
    once := fun n => by simpa using h.once n
    accepted := fun n => by simpa using h.accepted n
    cells := fun n => by
      have hcells := h.cells n
      have hfree := live_freeSdbScan _ scan n hlive
      simp at hfree ⊢
      omega
    owner := fun n => by
      have howner := h.owner n
      have hfree := live_freeSdbScan _ scan n hlive
      have hn := hdecoding n
      simp at hfree ⊢
      omega
    callback := fun n => by simpa using h.callback n
    behind := fun n => by
      have hbehind := h.behind n
      have hn := hdecoding n
      simp
      omega
    bounded := fun n => by simpa using h.bounded n }

theorem Sound.done {m' : ScanMachine} (h : m.Sound) (hdone : m.step .done = some m') : m'.Sound := by
  cases hstack : m.stack with
  | nil => simp [step, hstack] at hdone
  | cons frame stack =>
    cases frame with
    | callback =>
      simp only [step, hstack, Option.some.injEq] at hdone
      subst hdone
      exact h.pop hstack
    | decode scan =>
      simp only [step, hstack, Option.some.injEq] at hdone
      subst hdone
      exact h.popDecode hstack

theorem Sound.step {m' : ScanMachine} {act : ScanAct} (h : m.Sound) (hstep : m.step act = some m') : m'.Sound := by
  cases act with
  | scanRoot port alloc opened =>
    cases hstep
    exact h.startScan _ _ _ _ _
  | scanBus port bridge alloc opened =>
    cases hstep
    rw [ebSdbScanBus]
    split
    · exact h
    · exact h.startScan _ _ _ _ _
  | answer cycle opened stale staleAddress answer => exact h.answer hstep
  | done => exact h.done hstep

theorem sound_initial : ({} : ScanMachine).Sound := by
  constructor
  all_goals simp [allocations, acceptances, answers, calls, releases, live, waiting, decoding, left]

theorem sound_run {acts : List ScanAct} (h : run ScanMachine.step {} acts = some m) : m.Sound :=
  run_keeps (fun hm hstep => hm.step hstep) sound_initial h

end Steps

/-- A call that starts a scan, with what it returns. -/
def Starts (m : ScanMachine) (start : ScanMachine × Status) : Prop :=
  (∃ port alloc opened, start = m.ebSdbScanRoot port alloc opened) ∨
    ∃ port bridge alloc opened, start = m.ebSdbScanBus port bridge alloc opened

/-- Every accepted scan waits in one cycle or has called back once, and its cell is live or was
released once. -/
structure Delivers (m : ScanMachine) : Prop where
  accepted : ∀ n, m.acceptances n = 1 → m.calls n + m.waiting n = 1 ∧ m.releases n + m.live n = 1
  -- no scan is answered more than three times
  ended : ∀ n, m.acceptances n = 1 → m.answers n ≤ 3 ∧ (m.answers n = 3 ∨ m.waiting n = 0 → m.calls n = 1)
  released : ∀ n, m.acceptances n = 1 → m.waiting n = 0 → m.decoding n = 0 → m.releases n = 1 ∧ m.live n = 0
  others : ∀ n, m.acceptances n ≠ 1 → m.acceptances n = 0 ∧ m.calls n = 0 ∧ m.live n = 0
  -- the callback of a cycle finds the cell of its scan
  answerable : ∀ cycle c, m.cycle? cycle = some c → ∀ opened stale staleAddress answer,
    ∃ m', m.step (.answer cycle opened stale staleAddress answer) = some m'
  starts : ∀ start, m.Starts start →
    (start.2 = .ok → start.1.acceptances m.nextId = 1 ∧ ∀ n, start.1.calls n = m.calls n) ∧
      (start.2 ≠ .ok → ∀ n, start.1.acceptances n = m.acceptances n ∧ start.1.calls n = m.calls n ∧
        start.1.live n = m.live n)

section Delivery

variable {m : ScanMachine}

theorem waiting_le_left (m : ScanMachine) (n : ℕ) : m.waiting n ≤ m.left n := by
  have hone : ∀ k ∈ (m.cycles.filter fun c => c.scan == n).map (fun c => c.stage.left), 1 ≤ k := by
    intro k hk
    obtain ⟨c, -, rfl⟩ := List.mem_map.mp hk
    cases c.stage <;> decide
  have hlength := List.length_le_sum_of_one_le _ hone
  rwa [List.length_map, ← List.countP_eq_length_filter] at hlength

theorem Sound.live_of_cycle (h : m.Sound) {cycle : ℕ} {c : ScanCycle} (hc : m.cycle? cycle = some c) :
    0 < m.live c.scan := by
  have hwaiting := waiting_endCycle m c.scan hc
  have howner := h.owner c.scan
  rw [one, if_pos rfl] at hwaiting
  omega

theorem Sound.answerable (h : m.Sound) {cycle : ℕ} {c : ScanCycle} (hc : m.cycle? cycle = some c)
    (opened : Status) (stale : ℕ → UInt8) (staleAddress : ℕ) (answer : Answer) :
    ∃ m', m.step (.answer cycle opened stale staleAddress answer) = some m' := by
  obtain ⟨cell, hmem, hscan⟩ := List.countP_pos_iff.mp (h.live_of_cycle hc)
  cases hcell : m.cell? c.scan with
  | none => exact absurd hscan (List.find?_eq_none.mp hcell cell hmem)
  | some cell =>
    refine ⟨(m.endCycle c).callback c cell opened stale staleAddress answer, ?_⟩
    simp [ScanMachine.step, ScanMachine.answer, hc, hcell]

theorem startScan_returns (hfresh : m.acceptances m.nextId = 0) (port : Port) (stage : ScanStage) (busBase : ℕ)
    (alloc : Bool) (opened : Status) :
    ((m.startScan port stage busBase alloc opened).2 = .ok →
      (m.startScan port stage busBase alloc opened).1.acceptances m.nextId = 1 ∧
        ∀ n, (m.startScan port stage busBase alloc opened).1.calls n = m.calls n) ∧
      ((m.startScan port stage busBase alloc opened).2 ≠ .ok →
        ∀ n, (m.startScan port stage busBase alloc opened).1.acceptances n = m.acceptances n ∧
          (m.startScan port stage busBase alloc opened).1.calls n = m.calls n ∧
            (m.startScan port stage busBase alloc opened).1.live n = m.live n) := by
  rw [startScan]
  split
  · exact ⟨fun h => absurd h (by simp), fun _ n => ⟨rfl, rfl, rfl⟩⟩
  · dsimp only
    split
    · rename_i hopened
      refine ⟨fun h => absurd h hopened, fun _ n => ⟨by simp, by simp, ?_⟩⟩
      have hlive : 0 < (m.newSdbScan busBase).live m.nextId := by simp [one]
      have hfree := live_freeSdbScan (m.newSdbScan busBase) m.nextId n hlive
      rw [live_newSdbScan] at hfree
      exact (Nat.add_right_cancel hfree).symm
    · exact ⟨fun _ => ⟨by simp [one, hfresh], fun n => by simp⟩, fun h => absurd rfl h⟩

theorem Sound.delivers (h : m.Sound) : m.Delivers where
  accepted n hn := by
    have hcallback := h.callback n
    have hcells := h.cells n
    have honce := h.once n
    have haccepted := h.accepted n
    omega
  ended n hn := by
    have hcallback := h.callback n
    have hbounded := h.bounded n
    refine ⟨by omega, fun hended => ?_⟩
    cases hended with
    | inl hthree =>
      have hleft := m.waiting_le_left n
      omega
    | inr hwaiting => omega
  released n hn hwaiting hdecoding := by
    have howner := h.owner n
    have hcells := h.cells n
    have honce := h.once n
    have haccepted := h.accepted n
    omega
  others n hn := by
    have hcallback := h.callback n
    have howner := h.owner n
    have hbehind := h.behind n
    have honce := h.once n
    have haccepted := h.accepted n
    omega
  answerable cycle c hc := h.answerable hc
  starts start hstart := by
    have hfresh : m.acceptances m.nextId = 0 := by
      have haccepted := h.accepted m.nextId
      have hnone := h.fresh m.nextId (Nat.le_refl _)
      omega
    rcases hstart with ⟨port, alloc, opened, rfl⟩ | ⟨port, bridge, alloc, opened, rfl⟩
    · exact startScan_returns hfresh _ _ _ _ _
    · rw [ebSdbScanBus]
      split
      · exact ⟨fun h => absurd h (by simp), fun _ n => ⟨rfl, rfl, rfl⟩⟩
      · exact startScan_returns hfresh _ _ _ _ _

end Delivery

/-- Every accepted scan ends in exactly one callback, and its cell is released exactly once. -/
theorem scans_delivered {acts : List ScanAct} {m : ScanMachine} (h : run step {} acts = some m) : m.Delivers :=
  (sound_run h).delivers

end ScanMachine

namespace Sample

/-- A scan of which the first cycle times out. -/
def timedOutScan : List ScanAct :=
  [.scanRoot sdbPort true .ok, .answer 1 .ok (fun _ => 0) 0 ⟨.timeout, []⟩, .done]

theorem timedOutScan_delivered :
    ∃ m, run ScanMachine.step {} timedOutScan = some m ∧ m.Delivers ∧ m.calls 0 = 1 ∧ m.releases 0 = 1 :=
  ⟨_, rfl, @ScanMachine.scans_delivered timedOutScan _ rfl, rfl, rfl⟩

end Sample

end WhiteRabbit.Etherbone
