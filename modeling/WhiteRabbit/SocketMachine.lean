import WhiteRabbit.DeviceFlush
import WhiteRabbit.Responses
import WhiteRabbit.StepRuns

/-!
# The socket as a machine

User code runs between the calls of the library and inside its callbacks, so a call of the
library can be suspended while user code calls the library again. The calls in progress are
kept as a stack of frames, each with what its loop still has to do; a step is taken by the
frame on top. Where the source would work on freed memory, or walk a list that another
frame is working off, there is no step.
-/

namespace WhiteRabbit.Etherbone

/-- A closed cycle that waits to be sent. -/
structure Waiting where
  cycle : ℕ
  content : Queued

/-- A cycle being filled, its newest operation first. -/
structure OpenCycle where
  id : ℕ
  device : ℕ
  ops : List Operation := []
  dead : Bool := false

/-- An active device. `ready` has the newest cycle first. `closing` says that the word it
shares with `passive` names the device itself; when a cycle is closed then, the list no
longer ends in a null handle, which is `stray`. -/
structure Device where
  id : ℕ
  port : Port
  mtu : ℕ
  link : Bool := true
  unready : ℕ := 0
  ready : List Waiting := []
  closing : Bool := false
  stray : Bool := false

/-- A response in flight. Only the low half of `due` is in its deadline; `serial` counts the
responses of the socket. -/
structure Flight where
  cycle : ℕ
  response : Response
  due : ℕ
  serial : ℕ

/-- How far a call of `eb_socket_check` has come. The device that follows is read before the
one visited is polled and flushed. -/
inductive CheckPhase where
  | expire
  | poll
  | devices (cursor : Option ℕ)
  | slave (device : ℕ) (next : Option ℕ)

/-- The calls that can be suspended: a callback (user code), `eb_socket_check`,
`eb_device_flush`, `eb_socket_kill_inflight` and `eb_device_close`. -/
inductive Frame where
  | callback
  | check (now : ℕ) (phase : CheckPhase)
  | flush (device : ℕ) (port : Port) (mtu : ℕ) (todo : List Waiting) (buffer : FlushState)
  | kill (bads : List Flight)
  | close (device : ℕ) (todo : List Waiting)

inductive SocketEvent where
  | closed (cycle : ℕ)
  | aborted (cycle : ℕ)
  | called (cycle : ℕ) (status : Status)
  | expired (due now : ℕ)
  deriving DecidableEq

/-- `first` leads the queue of responses, `last` has the newest one first. Handles are not
reused: `nextId` is fresh. -/
structure Machine where
  devices : List Device := []
  cycles : List OpenCycle := []
  first : List Flight := []
  last : List Flight := []
  timeCache : ℕ := 0
  rba : ℕ := 0x8000
  issued : ℕ := 0
  nextId : ℕ := 0
  stack : List Frame := []
  log : List SocketEvent := []

/-- What user code does, and what happens inside the library. `next` is the next turn of the
call on top; `alloc` says whether it gets the memory it asks for. -/
inductive SocketAct where
  | openDevice (port : Port) (mtu : ℕ)
  | openCycle (device : ℕ)
  | operate (cycle : ℕ) (op : Option Operation)
  | closeCycle (cycle : ℕ) (checked : Bool)
  | abort (cycle : ℕ)
  | closeDevice (device : ℕ)
  | timeout
  | check (now : ℕ)
  | done
  | next (alloc : Bool)
  | writeBack (widths addr value : ℕ)
  | handler
  | breakLink

def Frame.flushes (d : ℕ) : Frame → Bool
  | .flush device _ _ _ _ => device == d
  | _ => false

/-- Whether the call can take in a message. Passive devices, which hold no cycles, are left
out: a message for one of them counts as taken in while another connection is polled. -/
def Frame.polls : Frame → Bool
  | .check _ .poll => true
  | .check _ (.slave _ _) => true
  | _ => false

/-- What is queued when the cycle is closed. The operations are in order then, and
`eb_cycle_close` marks the first one. -/
def OpenCycle.close (cyc : OpenCycle) (checked : Bool) : Waiting where
  cycle := cyc.id
  content :=
    { ops := cyc.ops.reverse.modifyHead fun op => { op with checked := checked }
      dead := cyc.dead }

/-- Queue a cycle to the device. -/
def Device.enqueue (dev : Device) (c : Waiting) : Device :=
  if dev.closing then
    { dev with ready := [c], closing := false, stray := true, unready := (dev.unready + 255) % 256 }
  else { dev with ready := c :: dev.ready, unready := (dev.unready + 255) % 256 }

namespace Machine

/-- The responses in flight, in the order they were issued. -/
def queue (m : Machine) : List Flight := m.first ++ m.last.reverse

def device? (m : Machine) (d : ℕ) : Option Device := m.devices.find? fun dev => dev.id == d

def cycle? (m : Machine) (c : ℕ) : Option OpenCycle := m.cycles.find? fun cyc => cyc.id == c

def setDevice (m : Machine) (d : ℕ) (f : Device → Device) : Machine :=
  { m with devices := m.devices.map fun dev => if dev.id = d then f dev else dev }

def setCycle (m : Machine) (c : ℕ) (f : OpenCycle → OpenCycle) : Machine :=
  { m with cycles := m.cycles.map fun cyc => if cyc.id = c then f cyc else cyc }

def dropCycle (m : Machine) (c : ℕ) : Machine :=
  { m with cycles := m.cycles.filter fun cyc => cyc.id != c }

/-- Whether a flush of the device is suspended. -/
def flushing (m : Machine) (d : ℕ) : Bool := m.stack.any (Frame.flushes d)

/-- Run the callback of a cycle. -/
def call (m : Machine) (c : ℕ) (status : Status) : Machine :=
  { m with stack := .callback :: m.stack, log := m.log ++ [.called c status] }

/-- Move the new responses behind the old ones. -/
def refill (m : Machine) : Machine := { m with first := m.queue, last := [] }

/-- The device is in the list of the socket before `eb_device_open` returns. -/
def ebDeviceOpen (m : Machine) (port : Port) (mtu : ℕ) : Machine :=
  { m with
    devices := { id := m.nextId, port := port, mtu := mtu } :: m.devices
    nextId := m.nextId + 1 }

def ebCycleOpen (m : Machine) (d : ℕ) : Option Machine :=
  (m.device? d).map fun dev =>
    -- is the device closing?
    if dev.closing then m
    else
      { m.setDevice d fun dev => { dev with unready := (dev.unready + 1) % 256 } with
        cycles := { id := m.nextId, device := d } :: m.cycles
        nextId := m.nextId + 1 }

/-- Add an operation; `none` is running out of memory. -/
def ebCycleDoop (m : Machine) (c : ℕ) (op : Option Operation) : Option Machine :=
  (m.cycle? c).map fun cyc =>
    match op with
    | none => m.setCycle c fun cyc => { cyc with ops := [], dead := true }
    | some op =>
      if cyc.dead then m
      else m.setCycle c fun cyc => { cyc with ops := { op with error := false, checked := false } :: cyc.ops }

def ebCycleAbort (m : Machine) (c : ℕ) : Option Machine :=
  (m.cycle? c).bind fun cyc =>
    (m.device? cyc.device).map fun _ =>
      { (m.setDevice cyc.device fun dev => { dev with unready := (dev.unready + 255) % 256 }).dropCycle c
        with log := m.log ++ [.aborted c] }

/-- `eb_cycle_close` and `eb_cycle_close_silently`, before they block. -/
def ebCycleClose (m : Machine) (c : ℕ) (checked : Bool) : Option Machine :=
  (m.cycle? c).bind fun cyc =>
    (m.device? cyc.device).map fun _ =>
      { (m.setDevice cyc.device fun dev => dev.enqueue (cyc.close checked)).dropCycle c
        with log := m.log ++ [.closed c] }

/-- `eb_socket_kill_inflight`, up to its loop over the bad responses. -/
def ebSocketKillInflight (m : Machine) (d : ℕ) : Machine :=
  { m with
    first := m.queue.filter fun f => !(f.response.device == d)
    last := []
    stack := .kill (m.queue.filter fun f => f.response.device == d) :: m.stack }

def ebDeviceClose (m : Machine) (d : ℕ) : Option Machine :=
  (m.device? d).bind fun dev =>
    if dev.unready ≠ 0 then some m
    else if dev.closing then some { m with stack := .close d [] :: m.stack }
    else if m.flushing d || dev.stray then none
    else
      some (ebSocketKillInflight
        { m.setDevice d fun dev => { dev with ready := [], closing := true } with
          stack := .close d dev.ready.reverse :: m.stack } d)

def ebSocketTimeout (m : Machine) : Machine × ℕ :=
  let m := if m.first.isEmpty then m.refill else m
  (m, match m.first with
    | [] => 0
    | f :: _ => deadlineAt m.timeCache f.response.deadline)

def ebSocketWriteConfig (m : Machine) (widths addr value : ℕ) : Machine :=
  let other (f : Flight) : Bool := f.response.address != addr &&& 0xFFFE
  let m := if m.first.all other then m.refill else m
  match m.first.dropWhile other with
  -- no matching response record
  | [] => m
  | f :: rest =>
    let (r, done) := f.response.writeBack widths addr value
    match done with
    | none => { m with first := m.first.takeWhile other ++ { f with response := r } :: rest }
    | some status => { m with first := m.first.takeWhile other ++ rest }.call f.cycle status

/-- The response that the expiry loop of `eb_socket_check` takes next, and what follows it. -/
def expiring (m : Machine) (now : ℕ) : Option (Flight × List Flight) :=
  match m.first with
  | [] => none
  | f :: rest => if deadlineAt m.timeCache f.response.deadline ≤ now then some (f, rest) else none

/-- The handle of the device behind `d` in the list. -/
def following (d : ℕ) : List Device → Option ℕ
  | [] => none
  | dev :: devs => if dev.id = d then devs.head?.map Device.id else following d devs

/-- A turn of `eb_socket_check`; `stack` are the frames below it. -/
def checkTurn (m : Machine) (now : ℕ) (phase : CheckPhase) (stack : List Frame) : Option Machine :=
  match phase with
  | .expire =>
    match m.expiring now with
    | some (f, rest) =>
      some ({ m with first := rest, log := m.log ++ [SocketEvent.expired f.due now] }.call f.cycle
        .timeout)
    | none => some { m with timeCache := now, stack := .check now .poll :: stack }
  | .poll =>
    some { m with stack := .check now (.devices (m.devices.head?.map Device.id)) :: stack }
  | .devices none => some { m with stack := stack }
  | .devices (some d) =>
    (m.device? d).map fun _ =>
      { m with stack := .check now (.slave d (following d m.devices)) :: stack }
  | .slave d next =>
    (m.device? d).bind fun dev =>
      let m := { m with stack := .check now (.devices next) :: stack }
      if dev.closing || !dev.link then some m
      else if m.flushing d || dev.stray then none
      else
        some { m.setDevice d fun dev => { dev with ready := [] } with
          stack := .flush d dev.port dev.mtu dev.ready.reverse (FlushState.start m.rba) :: m.stack }

/-- Set up a response. -/
def issue (m : Machine) (d : ℕ) (c : Waiting) (ops : List Operation) (address : ℕ) : Machine :=
  { m with
    last :=
      { cycle := c.cycle
        response :=
          { address := address
            deadline := (m.timeCache + 5) % 2 ^ 16
            device := d
            ops := ops
            writeCursor := ebFindRead ops 0
            statusCursor := if needsCheck ops then ebFindBus ops 0 else none }
        due := m.timeCache + 5
        serial := m.issued } :: m.last
    issued := m.issued + 1 }

/-- A turn of `eb_device_flush`: one cycle, or the end. Cycles queued meanwhile are gone. -/
def flushTurn (m : Machine) (d : ℕ) (p : Port) (mtu : ℕ) (todo : List Waiting) (buffer : FlushState)
    (stack : List Frame) (alloc : Bool) : Machine :=
  match todo with
  | [] => { m.setDevice d fun dev => { dev with ready := [] } with stack := stack }
  | c :: todo =>
    let (buffer, fate) :=
      { buffer with rba := m.rba }.flushCycle p mtu { c.content with alloc := alloc }
    let m := { m with rba := buffer.rba, stack := .flush d p mtu todo buffer :: stack }
    match fate with
    | .callback status _ => m.call c.cycle status
    | .response address => m.issue d c (checkOperations p c.content.ops).1 address

/-- A turn of the loop of `eb_socket_kill_inflight`. -/
def killTurn (m : Machine) (bads : List Flight) (stack : List Frame) : Machine :=
  match bads with
  | [] => { m with stack := stack }
  | f :: bads => { m with stack := .kill bads :: stack }.call f.cycle .timeout

/-- A turn of the loop of `eb_device_close`, or what follows it. -/
def closeTurn (m : Machine) (d : ℕ) (todo : List Waiting) (stack : List Frame) : Option Machine :=
  match todo with
  | [] => (m.device? d).map fun _ =>
      { m with devices := m.devices.filter fun dev => dev.id != d, stack := stack }
  | c :: todo => some ({ m with stack := .close d todo :: stack }.call c.cycle .timeout)

/-- A turn of the call on top. -/
def turn (m : Machine) (alloc : Bool) : Option Machine :=
  match m.stack with
  | [] => none
  | .callback :: _ => none
  | .check now phase :: stack => m.checkTurn now phase stack
  | .flush d p mtu todo buffer :: stack => some (m.flushTurn d p mtu todo buffer stack alloc)
  | .kill bads :: stack => some (m.killTurn bads stack)
  | .close d todo :: stack => m.closeTurn d todo stack

/-- Whether user code runs. -/
def userTurn (m : Machine) : Bool :=
  match m.stack with
  | [] => true
  | .callback :: _ => true
  | _ => false

/-- Whether a message can be taken in. -/
def polling (m : Machine) : Bool := (m.stack.head?.map Frame.polls).getD false

/-- `eb_device_slave` destroys the connection of the active device it polls. -/
def breakLink (m : Machine) : Option Machine :=
  match m.stack with
  | .check _ (.slave d _) :: _ =>
    (m.device? d).bind fun dev =>
      if dev.closing || !dev.link then none
      else some (m.setDevice d fun dev => { dev with link := false })
  | _ => none

def step (m : Machine) : SocketAct → Option Machine
  | .openDevice port mtu => if m.userTurn then some (m.ebDeviceOpen port mtu) else none
  | .openCycle d => if m.userTurn then m.ebCycleOpen d else none
  | .operate c op => if m.userTurn then m.ebCycleDoop c op else none
  | .closeCycle c checked => if m.userTurn then m.ebCycleClose c checked else none
  | .abort c => if m.userTurn then m.ebCycleAbort c else none
  | .closeDevice d => if m.userTurn then m.ebDeviceClose d else none
  | .timeout => if m.userTurn then some m.ebSocketTimeout.1 else none
  | .check now => if m.userTurn then some { m with stack := .check now .expire :: m.stack } else none
  | .done =>
    match m.stack with
    | .callback :: stack => some { m with stack := stack }
    | _ => none
  | .next alloc => m.turn alloc
  | .writeBack widths addr value =>
    if m.polling then some (m.ebSocketWriteConfig widths addr value) else none
  | .handler => if m.polling then some { m with stack := .callback :: m.stack } else none
  | .breakLink => m.breakLink

end Machine

namespace Sample

/-- A 16-bit bus on a 32-bit build. -/
def narrowPort : Port := .ofSizes 4 2 2 (by decide)

def wordRead : Operation where
  address := 0x4000
  value := 0
  kind := .readVal
  cfgSpace := false
  format := 2

/-- Queue a cycle with one read. -/
def queueRead (device cycle : ℕ) : List SocketAct :=
  [.openCycle device, .operate cycle (some wordRead), .closeCycle cycle false]

end Sample

end WhiteRabbit.Etherbone
