import WhiteRabbit.CellLedger
import WhiteRabbit.SocketMachine

/-!
# Who owns the cells of a cycle

Cycles, operations and responses are cells of one pool. A cycle owns its operations; it belongs to
the user while it is filled, then to its device, and then to a response. Callbacks do not call the
library here, so a call goes on turn by turn until it returns. Where the source would use a device
that was freed, or take a passive device for a list of cycles, there is no step.
-/

namespace WhiteRabbit.Etherbone
open CellLedger StepRuns

/-- A cycle. `unOps` are the operation cells from the first one on, and `ops` is what they hold; a
cycle that ran out of memory has its own cell there. -/
structure PoolCycle where
  cell : ℕ
  device : ℕ
  unOps : List ℕ := []
  ops : List Operation := []

structure PoolResponse where
  cell : ℕ
  cycle : PoolCycle

/-- `passive` says that the word it shares with the head of its ready list names the device. -/
structure PoolDevice where
  cell : ℕ
  port : Port
  mtu : ℕ
  passive : Bool
  link : Bool := true
  unready : ℕ := 0

/-- The calls that work off cycles, with what they have left. `newest` is what the ready word of
the device names until the flush is over. -/
inductive PoolFrame where
  | flush (device : ℕ) (port : Port) (mtu : ℕ) (newest : Option ℕ) (todo : List PoolCycle)
    (buffer : FlushState)
  | close (device : ℕ) (bads : List PoolResponse) (todo : List PoolCycle)

/-- What links to a cell: a cycle on a ready list, one that a call still has to work off, a response
in flight, or only the ready word of the device being flushed. -/
inductive QueueLink where
  | readyList
  | walked
  | inFlight
  | readyWord (device : ℕ)
  deriving DecidableEq

/-- `ready` has the cycles of all devices, the newest first, and `responses` the oldest first;
`others` are the cells that other objects use, links among them. -/
structure PoolMachine where
  pool : Ledger ℕ (List QueueLink) := {}
  others : List ℕ := []
  devices : List PoolDevice := []
  filling : List PoolCycle := []
  ready : List PoolCycle := []
  responses : List PoolResponse := []
  rba : ℕ := 0x8000
  frame : Option PoolFrame := none

/-- What user code does, the next turn of a call, and the end of a response: the last of its reply
or a reply it cannot use, or its deadline. `cell` is what the allocator hands out, if anything. -/
inductive PoolAct where
  | takeOther (cell : ℕ)
  | freeOther (cell : ℕ)
  | openDevice (cell : Option ℕ) (port : Port) (mtu : ℕ) (passive : Bool)
  | breakLink (device : ℕ)
  | openCycle (device : ℕ) (cell : Option ℕ)
  | operate (cycle : ℕ) (op : Operation) (cell : Option ℕ)
  | closeCycle (cycle : ℕ) (checked : Bool)
  | abort (cycle : ℕ)
  | flush (device : ℕ)
  | closeDevice (device : ℕ)
  | complete (response : ℕ)
  | next (cell : Option ℕ)

def PoolAct.cell : PoolAct → Option ℕ
  | .takeOther cell => some cell
  | .openDevice cell _ _ _ => cell
  | .openCycle _ cell => cell
  | .operate _ _ cell => cell
  | .next cell => cell
  | _ => none

namespace PoolCycle

/-- Whether `un_ops.dead` names the cycle. -/
def dead (c : PoolCycle) : Bool := c.unOps.head? == some c.cell

def operations (c : PoolCycle) : List ℕ := if c.unOps = [c.cell] then [] else c.unOps

/-- The cells that a cycle owns. -/
def cells (c : PoolCycle) : List ℕ := c.cell :: c.operations

/-- `eb_raw_cycle_close`, with what `eb_cycle_close` adds. -/
def close (c : PoolCycle) (checked : Bool) : PoolCycle :=
  if c.dead then c
  else
    { c with
      unOps := c.unOps.reverse
      ops := c.ops.reverse.modifyHead fun op => { op with checked := checked } }

end PoolCycle

/-- `unready` is a byte; its count goes up by `k`. -/
def PoolDevice.countUnready (dev : PoolDevice) (k : ℕ) : PoolDevice :=
  { dev with unready := (dev.unready + k) % 256 }

def PoolResponse.cells (r : PoolResponse) : List ℕ := r.cell :: r.cycle.cells

/-- The cells that a call still has to work off. -/
def PoolFrame.cells : PoolFrame → List ℕ
  | .flush _ _ _ _ todo _ => todo.flatMap PoolCycle.cells
  | .close _ bads todo => bads.flatMap PoolResponse.cells ++ todo.flatMap PoolCycle.cells

namespace PoolMachine

def device? (m : PoolMachine) (d : ℕ) : Option PoolDevice := m.devices.find? fun dev => dev.cell == d

def cycle? (m : PoolMachine) (c : ℕ) : Option PoolCycle := m.filling.find? fun cyc => cyc.cell == c

def response? (m : PoolMachine) (r : ℕ) : Option PoolResponse := m.responses.find? fun resp => resp.cell == r

def setDevice (m : PoolMachine) (d : ℕ) (f : PoolDevice → PoolDevice) : PoolMachine :=
  { m with devices := m.devices.map fun dev => if dev.cell = d then f dev else dev }

def dropCycle (m : PoolMachine) (c : ℕ) : PoolMachine :=
  { m with filling := m.filling.eraseP fun cyc => cyc.cell == c }

def setCycle (m : PoolMachine) (cyc : PoolCycle) : PoolMachine :=
  { m.dropCycle cyc.cell with filling := cyc :: (m.dropCycle cyc.cell).filling }

/-- The ready list of a device. -/
def readyOf (m : PoolMachine) (d : ℕ) : List PoolCycle := m.ready.filter fun c => c.device == d

def frameCells (m : PoolMachine) : List ℕ := (m.frame.map PoolFrame.cells).getD []

/-- The cells with an owner. -/
def owned (m : PoolMachine) : List ℕ :=
  m.others ++ m.devices.map PoolDevice.cell ++ m.filling.flatMap PoolCycle.cells ++
    m.ready.flatMap PoolCycle.cells ++ m.frameCells ++ m.responses.flatMap PoolResponse.cells

/-- The device whose ready word names a cell while it is flushed. -/
def readyWord (m : PoolMachine) (cell : ℕ) : List QueueLink :=
  match m.frame with
  | some (.flush d _ _ newest _ _) => if newest = some cell then [.readyWord d] else []
  | _ => []

/-- The queues that link to a cell. -/
def links (m : PoolMachine) (cell : ℕ) : List QueueLink :=
  (if cell ∈ m.ready.flatMap PoolCycle.cells then [.readyList] else []) ++
    (if cell ∈ m.frameCells then [.walked] else []) ++
    (if cell ∈ m.responses.flatMap PoolResponse.cells then [.inFlight] else []) ++ m.readyWord cell

def take (m : PoolMachine) (cell : ℕ) : PoolMachine := { m with pool := m.pool.allocate cell }

def free (m : PoolMachine) (cell : ℕ) : PoolMachine := { m with pool := m.pool.release cell (m.links cell) }

def ebCycleDestroy (m : PoolMachine) (c : PoolCycle) : PoolMachine :=
  if c.dead then m else c.unOps.foldl free m

/-- The operations of a cycle and its cell are freed. -/
def endCycle (m : PoolMachine) (c : PoolCycle) : PoolMachine := (m.ebCycleDestroy c).free c.cell

def ebDeviceOpen (m : PoolMachine) (cell : Option ℕ) (port : Port) (mtu : ℕ) (passive : Bool) : PoolMachine :=
  match cell with
  | none => m
  | some d => { m.take d with devices := ⟨d, port, mtu, passive, true, 0⟩ :: m.devices }

def ebCycleOpen (m : PoolMachine) (d : ℕ) (cell : Option ℕ) : Option PoolMachine :=
  match cell with
  | none => some m
  | some c =>
    (m.device? d).map fun dev =>
      -- is the device closing?
      if dev.passive then (m.take c).free c
      else
        { (m.take c).setDevice d fun dev => dev.countUnready 1 with
          filling := ⟨c, d, [], []⟩ :: m.filling }

def ebCycleDoop (m : PoolMachine) (c : ℕ) (op : Operation) (cell : Option ℕ) : Option PoolMachine :=
  (m.cycle? c).map fun cyc =>
    match cell with
    -- record out-of-memory with a self-pointer
    | none => (m.setCycle { cyc with unOps := [cyc.cell], ops := [] }).ebCycleDestroy cyc
    | some i =>
      if cyc.dead then (m.take i).free i
      else (m.take i).setCycle { cyc with unOps := i :: cyc.unOps, ops := op :: cyc.ops }

def ebCycleAbort (m : PoolMachine) (c : ℕ) : Option PoolMachine :=
  (m.cycle? c).bind fun cyc =>
    (m.device? cyc.device).map fun _ =>
      ((m.setDevice cyc.device fun dev => dev.countUnready 255).dropCycle c).endCycle cyc

def ebCycleClose (m : PoolMachine) (c : ℕ) (checked : Bool) : Option PoolMachine :=
  (m.cycle? c).bind fun cyc =>
    (m.device? cyc.device).bind fun dev =>
      if dev.passive then none
      else
        some { (m.setDevice cyc.device fun dev => dev.countUnready 255).dropCycle c with
          ready := cyc.close checked :: m.ready }

/-- `eb_device_flush`, up to its loop over the cycles. -/
def ebDeviceFlush (m : PoolMachine) (d : ℕ) : Option PoolMachine :=
  (m.device? d).bind fun dev =>
    if dev.passive then none
    else if !dev.link then some m
    else
      some { m with
        ready := m.ready.filter fun c => !(c.device == d)
        frame := some (.flush d dev.port dev.mtu ((m.readyOf d).head?.map PoolCycle.cell) (m.readyOf d).reverse
          (FlushState.start m.rba)) }

/-- `eb_device_close`, up to its loops over the responses and cycles of the device. -/
def ebDeviceClose (m : PoolMachine) (d : ℕ) : Option PoolMachine :=
  (m.device? d).map fun dev =>
    if dev.unready ≠ 0 then m
    else if dev.passive then { m with frame := some (.close d [] []) }
    else
      { m.setDevice d fun dev => { dev with passive := true } with
        ready := m.ready.filter fun c => !(c.device == d)
        responses := m.responses.filter fun r => !(r.cycle.device == d)
        frame := some (.close d (m.responses.filter fun r => r.cycle.device == d) (m.readyOf d).reverse) }

/-- The end of a response in `eb_socket_write_config` or in `eb_socket_check`. -/
def completeResponse (m : PoolMachine) (r : ℕ) : Option PoolMachine :=
  (m.response? r).map fun resp =>
    (({ m with responses := m.responses.eraseP fun resp => resp.cell == r }.endCycle resp.cycle).free resp.cell)

/-- The cycle on top of a flush, behind its checks. -/
def format (m : PoolMachine) (d : ℕ) (p : Port) (mtu : ℕ) (newest : Option ℕ) (todo : List PoolCycle)
    (buffer : FlushState) (c : PoolCycle) (ops : List Operation) (r : ℕ) : PoolMachine :=
  let (buffer, fate) := { buffer with rba := m.rba }.formatCycle p mtu ops
  let m := { m.take r with rba := buffer.rba, frame := some (.flush d p mtu newest todo buffer) }
  match fate with
  -- overflow, or no response will arrive
  | .callback _ _ => (m.endCycle c).free r
  | .response _ => { m with responses := m.responses ++ [⟨r, c⟩] }

/-- A turn of `eb_device_flush`. -/
def flushTurn (m : PoolMachine) (d : ℕ) (p : Port) (mtu : ℕ) (newest : Option ℕ) (todo : List PoolCycle)
    (buffer : FlushState) (cell : Option ℕ) : PoolMachine :=
  match todo with
  -- clear the queue
  | [] => { m with frame := none }
  | c :: todo =>
    let m := { m with frame := some (.flush d p mtu newest todo buffer) }
    -- out of memory, or a no-op
    if c.dead || c.unOps.isEmpty then m.free c.cell
    else
      match checkOperations p c.ops with
      | (_, some _) => m.endCycle c
      | (ops, none) =>
        match cell with
        | none => m.endCycle c
        | some r => m.format d p mtu newest todo buffer c ops r

/-- A turn of `eb_device_close`, first in `eb_socket_kill_inflight`. -/
def closeTurn (m : PoolMachine) (d : ℕ) (bads : List PoolResponse) (todo : List PoolCycle) : Option PoolMachine :=
  match bads, todo with
  | r :: bads, todo => some (({ m with frame := some (.close d bads todo) }.endCycle r.cycle).free r.cell)
  | [], c :: todo => some ({ m with frame := some (.close d [] todo) }.endCycle c)
  | [], [] => (m.device? d).map fun dev =>
      { m with devices := m.devices.eraseP fun dev => dev.cell == d, frame := none }.free dev.cell

def turn (m : PoolMachine) (frame : PoolFrame) (cell : Option ℕ) : Option PoolMachine :=
  match frame with
  | .flush d p mtu newest todo buffer => some (m.flushTurn d p mtu newest todo buffer cell)
  | .close d bads todo => m.closeTurn d bads todo

/-- An action between the calls. -/
def call (m : PoolMachine) : PoolAct → Option PoolMachine
  | .takeOther cell => some { m.take cell with others := cell :: m.others }
  | .freeOther cell => if cell ∈ m.others then some ({ m with others := m.others.erase cell }.free cell) else none
  | .openDevice cell port mtu passive => some (m.ebDeviceOpen cell port mtu passive)
  | .breakLink d => some (m.setDevice d fun dev => { dev with link := false })
  | .openCycle d cell => m.ebCycleOpen d cell
  | .operate c op cell => m.ebCycleDoop c op cell
  | .closeCycle c checked => m.ebCycleClose c checked
  | .abort c => m.ebCycleAbort c
  | .flush d => m.ebDeviceFlush d
  | .closeDevice d => m.ebDeviceClose d
  | .complete r => m.completeResponse r
  | .next _ => none

def step (m : PoolMachine) (act : PoolAct) : Option PoolMachine :=
  -- only cells that are not in use are handed out
  if act.cell.any fun cell => cell ∈ m.pool.live then none
  else
    match m.frame, act with
    | none, act => m.call act
    | some frame, .next cell => m.turn frame cell
    | some _, _ => none

/-- Cells were only returned when no queue linked to them, apart from the ready word of a device
being flushed. -/
def Unlinked (m : PoolMachine) : Prop :=
  ∀ cell links, CellEvent.returned cell links ∈ m.pool.history → ∀ link ∈ links, ∃ d, link = .readyWord d

/-- The live cells are those with an owner and those that the running code holds, each once. -/
structure Conserves (m : PoolMachine) (held : List ℕ) : Prop where
  holds : m.pool.Holds (held ++ m.owned)
  unlinked : m.Unlinked

/-- Between the turns nothing is held. -/
def Sound (m : PoolMachine) : Prop := m.Conserves []

section Cells

variable {m m' : PoolMachine} {held held' : List ℕ} {cell : ℕ} {c : PoolCycle}

@[simp] theorem owned_take : (m.take cell).owned = m.owned := rfl
@[simp] theorem owned_free : (m.free cell).owned = m.owned := rfl

/-- Cells change hands while the pool stays as it is. -/
theorem Conserves.transfer (h : m.Conserves held) (hpool : m'.pool = m.pool)
    (hcount : ∀ i, held'.count i + m'.owned.count i = held.count i + m.owned.count i) : m'.Conserves held' where
  holds := by
    rw [hpool]
    apply h.holds.of_perm
    rw [List.perm_iff_count]
    intro i
    simp only [List.count_append]
    exact (hcount i).symm
  unlinked := by
    rw [Unlinked, hpool]
    exact h.unlinked

theorem Conserves.of_perm (h : m.Conserves held) (hperm : held.Perm held') : m.Conserves held' :=
  h.transfer rfl fun i => by rw [hperm.count_eq]

theorem Conserves.take (h : m.Conserves held) (hcell : cell ∉ m.pool.live) :
    (m.take cell).Conserves (cell :: held) where
  holds := h.holds.allocate hcell
  unlinked other links hmem := by
    rw [PoolMachine.take, Ledger.allocate, List.mem_append] at hmem
    cases hmem with
    | inl hpast => exact h.unlinked other links hpast
    | inr hlast => simp at hlast

theorem links_of_notMem (h : cell ∉ m.owned) : m.links cell = m.readyWord cell := by
  simp only [owned, List.mem_append, not_or] at h
  obtain ⟨⟨⟨-, hready⟩, hframe⟩, hresponses⟩ := h
  rw [links, if_neg hready, if_neg hframe, if_neg hresponses]
  rfl

theorem readyWord_device {link : QueueLink} (h : link ∈ m.readyWord cell) : ∃ d, link = .readyWord d := by
  rw [readyWord] at h
  split at h
  · split at h
    · exact ⟨_, List.mem_singleton.mp h⟩
    · cases h
  · cases h

/-- Freeing a cell that the running code holds. -/
theorem Conserves.free (h : m.Conserves (cell :: held)) : (m.free cell).Conserves held where
  holds := h.holds.release (m.links cell)
  unlinked other links hmem := by
    rw [PoolMachine.free, Ledger.release, List.mem_append] at hmem
    cases hmem with
    | inl hpast => exact h.unlinked other links hpast
    | inr hlast =>
      have hnew : cell ∉ m.owned := fun hmem => h.holds.notMem (List.mem_append_right held hmem)
      have hlinks : links = m.readyWord cell := by
        have hlast := List.mem_singleton.mp hlast
        simp only [CellEvent.returned.injEq] at hlast
        rw [← links_of_notMem hnew, hlast.2]
      intro link hlink
      rw [hlinks] at hlink
      exact readyWord_device hlink

theorem Conserves.freeAll {cells : List ℕ} (h : m.Conserves (cells ++ held)) :
    (cells.foldl PoolMachine.free m).Conserves held := by
  induction cells generalizing m with
  | nil => exact h
  | cons cell cells ih => exact ih h.free

theorem Conserves.cells_nodup (h : m.Conserves (c.cells ++ held)) : c.cells.Nodup :=
  (List.nodup_append.mp (List.nodup_append.mp h.holds.nodup).1).1

/-- The self-pointer is told apart from the head of a list: no operation has the cell of its cycle. -/
theorem dead_iff (h : c.cells.Nodup) : c.dead = true ↔ c.unOps = [c.cell] := by
  constructor
  · intro hdead
    by_contra hne
    rw [PoolCycle.cells, PoolCycle.operations, if_neg hne, List.nodup_cons] at h
    have hhead : c.unOps.head? = some c.cell := by simpa [PoolCycle.dead] using hdead
    exact h.1 (List.mem_of_mem_head? hhead)
  · intro hops
    simp [PoolCycle.dead, hops]

theorem Conserves.destroy (h : m.Conserves (c.operations ++ held)) (hc : c.cells.Nodup) :
    (m.ebCycleDestroy c).Conserves held := by
  rw [ebCycleDestroy]
  by_cases hops : c.unOps = [c.cell]
  · rw [if_pos ((dead_iff hc).mpr hops)]
    rwa [PoolCycle.operations, if_pos hops] at h
  · have hdead : ¬ c.dead = true := fun hdead => hops ((dead_iff hc).mp hdead)
    rw [if_neg hdead]
    rw [PoolCycle.operations, if_neg hops] at h
    exact h.freeAll

/-- The end of a cycle that the running code holds. -/
theorem Conserves.endCycle (h : m.Conserves (c.cells ++ held)) : (m.endCycle c).Conserves held := by
  have hperm : (c.cells ++ held).Perm (c.operations ++ (c.cell :: held)) := by
    rw [PoolCycle.cells, List.cons_append]
    exact List.perm_middle.symm
  exact ((h.of_perm hperm).destroy h.cells_nodup).free

end Cells

section Moves

variable {m : PoolMachine} {held : List ℕ} {c d r : ℕ} {cyc : PoolCycle} {dev : PoolDevice} {resp : PoolResponse}

theorem count_owned (m : PoolMachine) (i : ℕ) :
    m.owned.count i = m.others.count i + (m.devices.map PoolDevice.cell).count i +
      (m.filling.flatMap PoolCycle.cells).count i + (m.ready.flatMap PoolCycle.cells).count i +
      ((m.frame.map PoolFrame.cells).getD []).count i + (m.responses.flatMap PoolResponse.cells).count i := by
  simp only [owned, List.count_append, frameCells]

theorem Conserves.setDevice (h : m.Conserves held) (f : PoolDevice → PoolDevice)
    (hf : ∀ dev, (f dev).cell = dev.cell) : (m.setDevice d f).Conserves held := by
  have hcells : (m.setDevice d f).devices.map PoolDevice.cell = m.devices.map PoolDevice.cell := by
    rw [PoolMachine.setDevice, List.map_map]
    apply List.map_congr_left
    intro dev _
    by_cases hdev : dev.cell = d
    · simp [hdev, hf]
    · simp [hdev]
  refine h.transfer ?_ fun i => ?_
  · rfl
  · rw [count_owned, count_owned, hcells]
    rfl

/-- The cells of a list without the entry that was found in it. -/
theorem count_eraseP {β : Type*} {q : β → Bool} {l : List β} {b : β} (f : β → List ℕ) (h : l.find? q = some b)
    (i : ℕ) : (l.flatMap f).count i = (f b).count i + ((l.eraseP q).flatMap f).count i := by
  have hperm := (perm_cons_eraseP h).flatMap_right f
  rw [hperm.count_eq, List.flatMap_cons, List.count_append]

theorem Conserves.dropCycle (h : m.Conserves held) (hc : m.cycle? c = some cyc) :
    (m.dropCycle c).Conserves (cyc.cells ++ held) := by
  refine h.transfer ?_ fun i => ?_
  · rfl
  · have hcount := count_eraseP PoolCycle.cells hc i
    simp only [count_owned, PoolMachine.dropCycle, List.count_append]
    omega

theorem Conserves.addDevice (h : m.Conserves (dev.cell :: held)) :
    Conserves { m with devices := dev :: m.devices } held := by
  refine h.transfer ?_ fun i => ?_
  · rfl
  · simp only [count_owned, List.map_cons, List.count_cons]
    omega

/-- A cycle is filled, or goes on the ready list. -/
theorem Conserves.fill (h : m.Conserves (cyc.cells ++ held)) :
    Conserves { m with filling := cyc :: m.filling } held := by
  refine h.transfer ?_ fun i => ?_
  · rfl
  · simp only [count_owned, List.flatMap_cons, List.count_append]
    omega

theorem Conserves.enqueue (h : m.Conserves (cyc.cells ++ held)) :
    Conserves { m with ready := cyc :: m.ready } held := by
  refine h.transfer ?_ fun i => ?_
  · rfl
  · simp only [count_owned, List.flatMap_cons, List.count_append]
    omega

theorem Conserves.hook {r : PoolResponse} (h : m.Conserves (r.cells ++ held)) :
    Conserves { m with responses := m.responses ++ [r] } held := by
  refine h.transfer ?_ fun i => ?_
  · rfl
  · simp only [count_owned, List.flatMap_append, List.flatMap_cons, List.flatMap_nil, List.append_nil,
      List.count_append]
    omega

theorem Conserves.unhook (h : m.Conserves held) (hr : m.response? r = some resp) :
    Conserves { m with responses := m.responses.eraseP fun resp => resp.cell == r } (resp.cells ++ held) := by
  refine h.transfer ?_ fun i => ?_
  · rfl
  · have hcount := count_eraseP PoolResponse.cells hr i
    simp only [count_owned, List.count_append]
    omega

/-- The end of a response that the running code holds. -/
theorem Conserves.endResponse {r : PoolResponse} (h : m.Conserves (r.cells ++ held)) :
    ((m.endCycle r.cycle).free r.cell).Conserves held := by
  have hperm : (r.cells ++ held).Perm (r.cycle.cells ++ (r.cell :: held)) := by
    rw [PoolResponse.cells, List.cons_append]
    exact List.perm_middle.symm
  exact ((h.of_perm hperm).endCycle).free

/-- Closing a cycle turns its operations around. -/
theorem close_cells (h : cyc.cells.Nodup) (checked : Bool) : (cyc.close checked).cells.Perm cyc.cells := by
  rw [PoolCycle.close]
  split
  · exact List.Perm.refl _
  · rename_i hdead
    have hops : cyc.unOps ≠ [cyc.cell] := fun hops => hdead ((dead_iff h).mpr hops)
    have hreverse : cyc.unOps.reverse ≠ [cyc.cell] := fun hrev => hops (by simpa using congrArg List.reverse hrev)
    simp only [PoolCycle.cells, PoolCycle.operations, if_neg hops, if_neg hreverse]
    exact (List.reverse_perm _).cons _

end Moves

section Calls

variable {m m' : PoolMachine} {c d r : ℕ} {cell : Option ℕ}

theorem Sound.ebDeviceOpen (h : m.Sound) (hcell : ∀ i, cell = some i → i ∉ m.pool.live) (port : Port) (mtu : ℕ)
    (passive : Bool) : (m.ebDeviceOpen cell port mtu passive).Sound := by
  cases cell with
  | none => exact h
  | some d =>
    have htake := h.take (hcell d rfl)
    exact @Conserves.addDevice _ _ ⟨d, port, mtu, passive, true, 0⟩ htake

theorem Sound.ebCycleOpen (h : m.Sound) (hcell : ∀ i, cell = some i → i ∉ m.pool.live)
    (hopen : m.ebCycleOpen d cell = some m') : m'.Sound := by
  cases cell with
  | none =>
    cases hopen
    exact h
  | some c =>
    have htake := h.take (hcell c rfl)
    obtain ⟨dev, -, hdev⟩ := Option.map_eq_some_iff.mp hopen
    split at hdev
    · cases hdev
      exact htake.free
    · cases hdev
      have hdevice := htake.setDevice (d := d) (fun dev => dev.countUnready 1) fun _ => rfl
      exact @Conserves.fill _ _ ⟨c, d, [], []⟩ hdevice

theorem Sound.ebCycleAbort (h : m.Sound) (habort : m.ebCycleAbort c = some m') : m'.Sound := by
  obtain ⟨cyc, hc, hdev⟩ := Option.bind_eq_some_iff.mp habort
  obtain ⟨dev, -, rfl⟩ := Option.map_eq_some_iff.mp hdev
  have hdevice := h.setDevice (d := cyc.device) (fun dev => dev.countUnready 255) fun _ => rfl
  exact (hdevice.dropCycle hc).endCycle

theorem Sound.ebCycleClose {checked : Bool} (h : m.Sound) (hclose : m.ebCycleClose c checked = some m') :
    m'.Sound := by
  obtain ⟨cyc, hc, hdev⟩ := Option.bind_eq_some_iff.mp hclose
  obtain ⟨dev, -, hdev⟩ := Option.bind_eq_some_iff.mp hdev
  split at hdev
  · cases hdev
  · cases hdev
    have hdevice := h.setDevice (d := cyc.device) (fun dev => dev.countUnready 255) fun _ => rfl
    have hdrop := hdevice.dropCycle hc
    have hperm := close_cells hdrop.cells_nodup checked
    exact (hdrop.of_perm (hperm.symm.append_right [])).enqueue

/-- A cycle runs out of memory. -/
theorem Conserves.mark {m : PoolMachine} {held : List ℕ} {cyc : PoolCycle} (h : m.Conserves (cyc.cells ++ held)) :
    Conserves { m with filling := { cyc with unOps := [cyc.cell], ops := [] } :: m.filling }
      (cyc.operations ++ held) := by
  apply Conserves.fill
  have hdead : PoolCycle.cells { cyc with unOps := [cyc.cell], ops := [] } = [cyc.cell] := by
    simp [PoolCycle.cells, PoolCycle.operations]
  rw [hdead]
  exact h

/-- An operation is put in front of the others. -/
theorem Conserves.queue {m : PoolMachine} {cyc : PoolCycle} {i : ℕ} (h : m.Conserves (cyc.cells ++ [i]))
    (hdead : cyc.unOps ≠ [cyc.cell]) (op : Operation) :
    Conserves { m with filling := { cyc with unOps := i :: cyc.unOps, ops := op :: cyc.ops } :: m.filling } [] := by
  have hne : i ≠ cyc.cell := by
    intro heq
    have hnodup := (List.nodup_append.mp h.holds.nodup).1
    simp [PoolCycle.cells, heq] at hnodup
  have hcells : PoolCycle.cells { cyc with unOps := i :: cyc.unOps, ops := op :: cyc.ops } =
      cyc.cell :: i :: cyc.operations := by
    simp [PoolCycle.cells, PoolCycle.operations, hdead, hne]
  apply Conserves.fill
  rw [hcells]
  apply h.of_perm
  rw [List.perm_iff_count]
  intro j
  simp only [PoolCycle.cells, List.count_cons, List.count_append, List.count_nil]
  omega

theorem Sound.ebCycleDoop {op : Operation} (h : m.Sound) (hcell : ∀ i, cell = some i → i ∉ m.pool.live)
    (hdoop : m.ebCycleDoop c op cell = some m') : m'.Sound := by
  obtain ⟨cyc, hc, hcyc⟩ := Option.map_eq_some_iff.mp hdoop
  have hname : cyc.cell = c := by simpa using List.find?_some hc
  subst hname
  have hdrop := h.dropCycle hc
  have hnodup := hdrop.cells_nodup
  cases cell with
  | none =>
    cases hcyc
    exact hdrop.mark.destroy hnodup
  | some i =>
    have htake := h.take (hcell i rfl)
    dsimp only at hcyc
    split at hcyc
    · cases hcyc
      exact htake.free
    · rename_i hdead
      cases hcyc
      have hops : cyc.unOps ≠ [cyc.cell] := fun hops => hdead ((dead_iff hnodup).mpr hops)
      exact (htake.dropCycle hc).queue hops op

/-- The cells of a list are those of the entries that meet a condition, and those of the others. -/
theorem count_filter {β : Type*} (q : β → Bool) (f : β → List ℕ) (l : List β) (i : ℕ) :
    (l.flatMap f).count i = ((l.filter q).flatMap f).count i + ((l.filter fun b => !(q b)).flatMap f).count i := by
  have hperm := (List.filter_append_perm q l).flatMap_right f
  rw [← hperm.count_eq, List.flatMap_append, List.count_append]

/-- A flush or a close takes the cycles of the device off the ready list. -/
theorem count_ready (m : PoolMachine) (d i : ℕ) :
    (m.ready.flatMap PoolCycle.cells).count i = ((m.readyOf d).reverse.flatMap PoolCycle.cells).count i +
      ((m.ready.filter fun c => !(c.device == d)).flatMap PoolCycle.cells).count i := by
  rw [((List.reverse_perm (m.readyOf d)).flatMap_right PoolCycle.cells).count_eq]
  exact count_filter (fun c => c.device == d) PoolCycle.cells m.ready i

theorem Sound.ebDeviceFlush (h : m.Sound) (hframe : m.frame = none) (hflush : m.ebDeviceFlush d = some m') :
    m'.Sound := by
  obtain ⟨dev, -, hdev⟩ := Option.bind_eq_some_iff.mp hflush
  split at hdev
  · cases hdev
  · split at hdev
    · cases hdev
      exact h
    · cases hdev
      refine h.transfer ?_ fun i => ?_
      · rfl
      · have hready := m.count_ready d i
        simp only [count_owned, hframe, Option.map_none, Option.getD_none, Option.map_some, Option.getD_some,
          PoolFrame.cells, List.count_nil]
        omega

theorem Sound.ebDeviceClose (h : m.Sound) (hframe : m.frame = none) (hclose : m.ebDeviceClose d = some m') :
    m'.Sound := by
  obtain ⟨dev, -, hdev⟩ := Option.map_eq_some_iff.mp hclose
  split at hdev
  · cases hdev
    exact h
  · split at hdev
    · cases hdev
      refine h.transfer ?_ fun i => ?_
      · rfl
      · simp [count_owned, hframe, PoolFrame.cells]
    · cases hdev
      have hdevice := h.setDevice (d := d) (fun dev => { dev with passive := true }) fun _ => rfl
      refine hdevice.transfer ?_ fun i => ?_
      · rfl
      · have hready := m.count_ready d i
        have hresponses := count_filter (fun r => r.cycle.device == d) PoolResponse.cells m.responses i
        simp only [count_owned, PoolMachine.setDevice, hframe, Option.map_none, Option.getD_none, Option.map_some,
          Option.getD_some, PoolFrame.cells, List.count_nil, List.count_append]
        omega

theorem Sound.completeResponse (h : m.Sound) (hcomplete : m.completeResponse r = some m') : m'.Sound := by
  obtain ⟨resp, hr, rfl⟩ := Option.map_eq_some_iff.mp hcomplete
  exact (h.unhook hr).endResponse

end Calls

section Turns

variable {m m' : PoolMachine} {d mtu : ℕ} {p : Port} {newest cell : Option ℕ} {todo : List PoolCycle}
  {bads : List PoolResponse} {buffer : FlushState} {c : PoolCycle}

/-- A flush goes on to its next cycle. -/
theorem Conserves.nextFlush {held : List ℕ} (h : m.Conserves held)
    (hframe : m.frame = some (.flush d p mtu newest (c :: todo) buffer)) (buffer' : FlushState) :
    Conserves { m with frame := some (.flush d p mtu newest todo buffer') } (c.cells ++ held) := by
  refine h.transfer ?_ fun i => ?_
  · rfl
  · simp only [count_owned, hframe, Option.map_some, Option.getD_some, PoolFrame.cells, List.flatMap_cons,
      List.count_append]
    omega

/-- Only the position in the buffer changes. -/
theorem Conserves.withBuffer {held : List ℕ} (h : m.Conserves held)
    (hframe : m.frame = some (.flush d p mtu newest todo buffer)) (buffer' : FlushState) (rba : ℕ) :
    Conserves { m with rba := rba, frame := some (.flush d p mtu newest todo buffer') } held := by
  refine h.transfer ?_ fun i => ?_
  · rfl
  · simp only [count_owned, hframe, Option.map_some, Option.getD_some, PoolFrame.cells]

theorem Conserves.format {ops : List Operation} {r : ℕ} (h : m.Conserves (c.cells ++ []))
    (hframe : m.frame = some (.flush d p mtu newest todo buffer)) (hr : r ∉ m.pool.live) :
    (m.format d p mtu newest todo buffer c ops r).Sound := by
  have htake := h.take hr
  rw [PoolMachine.format]
  cases hformat : ({ buffer with rba := m.rba }.formatCycle p mtu ops) with
  | mk buffer' fate =>
    have hnext := htake.withBuffer hframe buffer' buffer'.rba
    cases fate with
    | callback status operation =>
      exact Conserves.endResponse (r := ⟨r, c⟩) hnext
    | response address =>
      exact Conserves.hook (r := ⟨r, c⟩) hnext

theorem Sound.flushTurn (h : m.Sound) (hframe : m.frame = some (.flush d p mtu newest todo buffer))
    (hcell : ∀ i, cell = some i → i ∉ m.pool.live) : (m.flushTurn d p mtu newest todo buffer cell).Sound := by
  cases todo with
  | nil =>
    refine h.transfer ?_ fun i => ?_
    · rfl
    · simp [PoolMachine.flushTurn, count_owned, hframe, PoolFrame.cells]
  | cons c todo =>
    have hnext := h.nextFlush hframe buffer
    unfold PoolMachine.flushTurn
    dsimp only
    split
    · rename_i hempty
      have hoperations : c.operations = [] := by
        rw [Bool.or_eq_true] at hempty
        rw [PoolCycle.operations]
        cases hempty with
        | inl hdead => rw [if_pos ((dead_iff hnext.cells_nodup).mp hdead)]
        | inr hops => simpa using fun _ => List.isEmpty_iff.mp hops
      rw [PoolCycle.cells, hoperations] at hnext
      exact hnext.free
    · split
      · exact hnext.endCycle
      · cases cell with
        | none => exact hnext.endCycle
        | some r => exact hnext.format rfl (hcell r rfl)

theorem Sound.closeTurn (h : m.Sound) (hframe : m.frame = some (.close d bads todo))
    (hclose : m.closeTurn d bads todo = some m') : m'.Sound := by
  cases bads with
  | cons r bads =>
    cases hclose
    have hnext : Conserves { m with frame := some (.close d bads todo) } (r.cells ++ []) := by
      refine h.transfer ?_ fun i => ?_
      · rfl
      · simp only [count_owned, hframe, Option.map_some, Option.getD_some, PoolFrame.cells, List.flatMap_cons,
          List.count_append]
        omega
    exact hnext.endResponse
  | nil =>
    cases todo with
    | cons c todo =>
      cases hclose
      have hnext : Conserves { m with frame := some (.close d [] todo) } (c.cells ++ []) := by
        refine h.transfer ?_ fun i => ?_
        · rfl
        · simp only [count_owned, hframe, Option.map_some, Option.getD_some, PoolFrame.cells, List.flatMap_cons,
            List.count_append]
          omega
      exact hnext.endCycle
    | nil =>
      obtain ⟨dev, hdev, rfl⟩ := Option.map_eq_some_iff.mp hclose
      have hdevice : Conserves { m with devices := m.devices.eraseP fun dev => dev.cell == d, frame := none }
          [dev.cell] := by
        have hperm := (perm_cons_eraseP hdev).map PoolDevice.cell
        refine h.transfer ?_ fun i => ?_
        · rfl
        · simp only [count_owned, hframe, hperm.count_eq, List.map_cons, List.count_cons, Option.map_some,
            Option.getD_some, PoolFrame.cells, List.flatMap_nil, List.append_nil, List.count_nil, Option.map_none,
            Option.getD_none]
          omega
      exact hdevice.free

end Turns

section Runs

variable {m m' : PoolMachine} {act : PoolAct} {cell : ℕ}

theorem Sound.takeOther (h : m.Sound) (hcell : cell ∉ m.pool.live) :
    Sound { m.take cell with others := cell :: m.others } := by
  refine (h.take hcell).transfer ?_ fun i => ?_
  · rfl
  · simp only [count_owned, PoolMachine.take, List.count_cons, List.count_nil]
    omega

theorem Sound.freeOther (h : m.Sound) (hcell : cell ∈ m.others) :
    ({ m with others := m.others.erase cell }.free cell).Sound := by
  have hperm := List.perm_cons_erase hcell
  have hother : Conserves { m with others := m.others.erase cell } [cell] := by
    refine h.transfer ?_ fun i => ?_
    · rfl
    · simp only [count_owned, hperm.count_eq, List.count_cons, List.count_nil]
      omega
  exact hother.free

theorem Sound.call (h : m.Sound) (hframe : m.frame = none) (hcell : ∀ i, act.cell = some i → i ∉ m.pool.live)
    (hcall : m.call act = some m') : m'.Sound := by
  cases act with
  | takeOther cell =>
    cases hcall
    exact h.takeOther (hcell cell rfl)
  | freeOther cell =>
    rw [PoolMachine.call] at hcall
    split at hcall
    · rename_i hmem
      cases hcall
      exact h.freeOther hmem
    · cases hcall
  | openDevice cell port mtu passive =>
    cases hcall
    exact h.ebDeviceOpen hcell port mtu passive
  | breakLink d =>
    cases hcall
    exact h.setDevice _ fun _ => rfl
  | openCycle d cell => exact h.ebCycleOpen hcell hcall
  | operate c op cell => exact h.ebCycleDoop hcell hcall
  | closeCycle c checked => exact h.ebCycleClose hcall
  | abort c => exact h.ebCycleAbort hcall
  | flush d => exact h.ebDeviceFlush hframe hcall
  | closeDevice d => exact h.ebDeviceClose hframe hcall
  | complete r => exact h.completeResponse hcall
  | next cell => cases hcall

theorem Sound.turn {frame : PoolFrame} {cell : Option ℕ} (h : m.Sound) (hframe : m.frame = some frame)
    (hcell : ∀ i, cell = some i → i ∉ m.pool.live) (hturn : m.turn frame cell = some m') : m'.Sound := by
  cases frame with
  | flush d p mtu newest todo buffer =>
    cases hturn
    exact h.flushTurn hframe hcell
  | close d bads todo => exact h.closeTurn hframe hturn

theorem Sound.step (h : m.Sound) (hstep : m.step act = some m') : m'.Sound := by
  unfold PoolMachine.step at hstep
  split at hstep
  · cases hstep
  · rename_i hgranted
    have hcell : ∀ i, act.cell = some i → i ∉ m.pool.live := by
      intro i hi hlive
      simp [hi, hlive] at hgranted
    split at hstep
    · rename_i hframe
      exact h.call hframe hcell hstep
    · rename_i frame cell hframe
      exact h.turn hframe hcell hstep
    · cases hstep

theorem sound_initial : ({} : PoolMachine).Sound :=
  ⟨Ledger.holds_empty, fun cell links hmem => by cases hmem⟩

theorem sound_run {acts : List PoolAct} (h : run PoolMachine.step {} acts = some m) : m.Sound :=
  run_keeps (fun hm hstep => hm.step hstep) sound_initial h

end Runs

/-- No cycle is open, queued or in flight. -/
structure Idle (m : PoolMachine) : Prop where
  filling : m.filling = []
  ready : m.ready = []
  responses : m.responses = []
  frame : m.frame = none

/-- Every cell was returned once for each time it was allocated, except for those with an owner, which
are the live ones. -/
structure Conserved (m : PoolMachine) : Prop where
  alternates : Alternates m.pool.history
  live : m.pool.live.Perm m.owned
  once : m.owned.Nodup
  returned : ∀ cell, cell ∉ m.owned → returns m.pool.history cell = allocations m.pool.history cell
  unlinked : m.Unlinked

theorem Sound.conserved {m : PoolMachine} (h : m.Sound) : m.Conserved where
  alternates := h.holds.alternates
  live := h.holds.perm
  once := h.holds.nodup
  returned _ hcell := h.holds.returned hcell
  unlinked := h.unlinked

theorem Idle.owned {m : PoolMachine} (h : m.Idle) : m.owned = m.others ++ m.devices.map PoolDevice.cell := by
  simp [PoolMachine.owned, frameCells, h.filling, h.ready, h.responses, h.frame]

/-- No cell of a cycle is lost or returned twice on any run; when no cycle is left, the live cells are
what they were before there was one. -/
theorem pool_conserved {pre acts : List PoolAct} {m₀ m : PoolMachine} (hpre : run step {} pre = some m₀)
    (hrun : run step m₀ acts = some m) :
    m.Conserved ∧ (m₀.Idle → m.Idle → m.others = m₀.others →
      m.devices.map PoolDevice.cell = m₀.devices.map PoolDevice.cell → m.pool.live.Perm m₀.pool.live) := by
  have hstart : m₀.Sound := sound_run hpre
  have hend : m.Sound := run_keeps (fun hm hstep => hm.step hstep) hstart hrun
  refine ⟨hend.conserved, fun hidle₀ hidle hothers hdevices => ?_⟩
  have hlive := hend.conserved.live
  have hlive₀ := hstart.conserved.live
  rw [hidle.owned, hothers, hdevices, ← hidle₀.owned] at hlive
  exact hlive.trans hlive₀.symm

end PoolMachine

namespace Sample

def openPool : List PoolAct := [.openDevice (some 0) narrowPort 0 false]

/-- A cycle with one read, answered. -/
def answeredRead : List PoolAct :=
  [.openCycle 0 (some 1), .operate 1 wordRead (some 2), .closeCycle 1 false, .flush 0, .next (some 3), .next none,
    .complete 3]

theorem answeredRead_conserved :
    ∃ m₀ m, run PoolMachine.step {} openPool = some m₀ ∧ run PoolMachine.step m₀ answeredRead = some m ∧
      m.Conserved ∧ m.pool.live.Perm m₀.pool.live :=
  have hconserved := @PoolMachine.pool_conserved openPool answeredRead _ _ rfl rfl
  ⟨_, _, rfl, rfl, hconserved.1, hconserved.2 ⟨rfl, rfl, rfl, rfl⟩ ⟨rfl, rfl, rfl, rfl⟩ rfl rfl⟩

/-- A cycle without operations. -/
def emptyCycle : List PoolAct := [.openCycle 0 (some 1), .closeCycle 1 false, .flush 0, .next none]

/-- The ready word of a device names the cycle until the flush is over. -/
theorem emptyCycle_linked :
    ¬ ∀ acts m, run PoolMachine.step {} acts = some m →
      ∀ cell links, CellEvent.returned cell links ∈ m.pool.history → links = [] := by
  intro h
  have hhistory : (run PoolMachine.step {} (openPool ++ emptyCycle)).map (fun m => m.pool.history) =
      some [.allocated 0, .allocated 1, .returned 1 [.readyWord 0]] := by decide
  obtain ⟨m, hm, hlast⟩ := Option.map_eq_some_iff.mp hhistory
  have hnone := h _ m hm 1 [.readyWord 0] (by simp [hlast])
  cases hnone

end Sample

end WhiteRabbit.Etherbone
