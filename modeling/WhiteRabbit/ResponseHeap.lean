import WhiteRabbit.LinkedCells
import WhiteRabbit.Responses
import WhiteRabbit.StepRuns

/-!
# The response queue in memory

The queue of a socket is kept in two lists: responses leave `first_response`, and new ones
are put in front of `last_response`, which is reversed when `first_response` runs out. The
functions below work on `next` fields, as the source does. Between two of them user
callbacks run, which may do any of these steps again; so a run is any sequence of steps.
-/

namespace WhiteRabbit.Etherbone
open LinkedCells

/-- The memory of the responses. `allocated` are the cells in use, `held` those whose
callback runs before they are freed, `bads` the lists that calls of
`eb_socket_kill_inflight` still have to work off. -/
structure ResponseHeap where
  cells : Heap Response
  firstResponse : Option ℕ
  lastResponse : Option ℕ
  timeCache : ℕ
  allocated : List ℕ
  held : List ℕ
  bads : List (Option ℕ)

/-- `responsepp`: the head of the queue, or the next field of a response. -/
inductive Slot where
  | first
  | next (i : ℕ)

namespace ResponseHeap

/-- No loop along a chain needs more. -/
def fuel (s : ResponseHeap) : ℕ := s.allocated.length

def read (s : ResponseHeap) : Slot → Option ℕ
  | .first => s.firstResponse
  | .next i => (s.cells i).next

def write (s : ResponseHeap) (slot : Slot) (p : Option ℕ) : ResponseHeap :=
  match slot with
  | .first => { s with firstResponse := p }
  | .next i => { s with cells := s.cells.setNext i p }

/-- `eb_response_flip(last_response)`, then `last_response = EB_NULL`. -/
def flipLast (s : ResponseHeap) : Option (ResponseHeap × Option ℕ) :=
  (flip s.fuel s.cells s.lastResponse none).map fun (cells, p) =>
    ({ s with cells := cells, lastResponse := none }, p)

/-- Chain a new response for FIFO processing. -/
def push (s : ResponseHeap) (i : ℕ) (r : Response) : ResponseHeap :=
  { s with
    cells := (s.cells.setValue i { r with deadline := (s.timeCache + 5) % 2 ^ 16 }).setNext i
      s.lastResponse
    lastResponse := some i
    allocated := i :: s.allocated }

/-- Walk the response queue. -/
def search (addr : ℕ) : ℕ → ResponseHeap → Slot → Option (ResponseHeap × Option (Slot × ℕ))
  | 0, _, _ => none
  | fuel + 1, s, slot =>
    match s.read slot with
    | some i =>
      if (s.cells i).value.address = addr then some (s, some (slot, i))
      else search addr fuel s (.next i)
    | none =>
      match s.flipLast with
      | none => none
      | some (s, none) => some (s.write slot none, none)
      | some (s, some i) => search addr fuel (s.write slot (some i)) slot

/-- `eb_socket_write_config`, up to the callback. -/
def writeConfig (s : ResponseHeap) (widths addr value : ℕ) : Option ResponseHeap :=
  match search (addr &&& 0xFFFE) (2 * s.fuel + 2) s .first with
  | none => none
  | some (s, none) => some s
  | some (s, some (slot, i)) =>
    let (r, done) := (s.cells i).value.writeBack widths addr value
    let s := { s with cells := s.cells.setValue i r }
    match done with
    | none => some s
    | some _ => some { s.write slot (s.cells i).next with held := i :: s.held }

/-- `eb_socket_timeout`: the queue after it, and the result. -/
def timeout (s : ResponseHeap) : Option (ResponseHeap × ℕ) :=
  let s := if s.firstResponse = none then s.flipLast.map fun (s, p) => { s with firstResponse := p }
    else some s
  s.map fun s =>
    (s, match s.firstResponse with
      | none => 0
      | some i => deadlineAt s.timeCache (s.cells i).value.deadline)

/-- One turn of the expiry loop of `eb_socket_check`, up to the callback. -/
def expire (s : ResponseHeap) (now : ℕ) : Option ResponseHeap :=
  match s.firstResponse with
  | none => some s
  | some _ =>
    match s.timeout with
    | none => none
    | some (s, t) =>
      if t ≤ now then
        match s.firstResponse with
        | none => some s
        | some i => some { s with firstResponse := (s.cells i).next, held := i :: s.held }
      else some s

/-- `eb_socket_kill_inflight`, up to its loop over the bad responses. -/
def kill (s : ResponseHeap) (device : ℕ) : Option ResponseHeap :=
  let bad (r : Response) : Bool := r.device == device
  match deal bad s.fuel s.cells s.lastResponse none none with
  | none => none
  | some (cells, good, bads) =>
    match flip s.fuel cells s.firstResponse none with
    | none => none
    | some (cells, flipped) =>
      match deal bad s.fuel cells flipped good bads with
      | none => none
      | some (cells, good, bads) =>
        some { s with
          cells := cells
          firstResponse := good
          lastResponse := none
          bads := bads :: s.bads }

/-- One turn of the innermost such loop, up to the callback. -/
def reap (s : ResponseHeap) : Option ResponseHeap :=
  match s.bads with
  | [] => none
  | none :: rest => some { s with bads := rest }
  | some i :: rest => some { s with bads := (s.cells i).next :: rest, held := i :: s.held }

/-- `eb_free_response`, after the callback. -/
def free (s : ResponseHeap) (i : ℕ) : Option ResponseHeap :=
  if i ∈ s.held then some { s with held := s.held.erase i, allocated := s.allocated.erase i } else none

end ResponseHeap

/-- The steps of the library on its response queue. A new response gets a free cell. -/
inductive QueueAct where
  | push (i : ℕ) (r : Response)
  | writeConfig (widths addr value : ℕ)
  | timeout
  | expire (now : ℕ)
  | tick (now : ℕ)
  | kill (device : ℕ)
  | reap
  | free (i : ℕ)

namespace ResponseHeap

def step (s : ResponseHeap) : QueueAct → Option ResponseHeap
  | .push i r => if i ∈ s.allocated then none else some (s.push i r)
  | .writeConfig widths addr value => s.writeConfig widths addr value
  | .timeout => s.timeout.map Prod.fst
  | .expire now => s.expire now
  | .tick now => some { s with timeCache := now }
  | .kill device => s.kill device
  | .reap => s.reap
  | .free i => s.free i

/-- An empty queue. -/
def start : ResponseHeap where
  cells := fun _ => ⟨⟨0, 0, 0, [], none, none⟩, none⟩
  firstResponse := none
  lastResponse := none
  timeCache := 0
  allocated := []
  held := []
  bads := []

end ResponseHeap

/-- What happened to a response. -/
inductive QueueEvent where
  | issued (i : ℕ)
  | completed (i : ℕ) (status : Status)
  | expired (i : ℕ)
  | killed (i : ℕ)
  deriving DecidableEq

/-- The responses issued and neither completed, expired nor killed, in issue order. -/
def pending (log : List QueueEvent) : List ℕ :=
  log.foldl (fun l e =>
    match e with
    | .issued i => l ++ [i]
    | .completed i _ | .expired i | .killed i => l.erase i) []

/-- The queue as the steps mean it: the clock, the responses in flight with their cells, in issue order and with the
newer ones apart, and what has happened. -/
structure InFlight where
  clock : ℕ := 0
  first : List (ℕ × Response) := []
  last : List (ℕ × Response) := []
  log : List QueueEvent := []

namespace InFlight

def queue (q : InFlight) : List (ℕ × Response) := q.first ++ q.last

/-- The first response with the address takes a write-back, which may be its last. -/
def answer (widths addr value : ℕ) : List (ℕ × Response) → List (ℕ × Response) × List QueueEvent
  | [] => ([], [])
  | (i, r) :: rest =>
    if r.address = addr &&& 0xFFFE then
      match r.writeBack widths addr value with
      | (r, none) => ((i, r) :: rest, [])
      | (_, some status) => (rest, [.completed i status])
    else ((i, r) :: (answer widths addr value rest).1, (answer widths addr value rest).2)

/-- The newer responses join the others. -/
def join (q : InFlight) : InFlight := { q with first := q.queue, last := [] }

/-- A search goes on among the newer responses when the others do not have the address. -/
def look (q : InFlight) (addr : ℕ) : InFlight := if q.first.any fun e => e.2.address == addr then q else q.join

/-- What a step does to the queue. Expiry does not look at the newer responses. -/
def next (q : InFlight) : QueueAct → InFlight
  | .push i r =>
    { q with
      last := q.last ++ [(i, { r with deadline := (q.clock + 5) % 2 ^ 16 })]
      log := q.log ++ [.issued i] }
  | .writeConfig widths addr value =>
    let q := q.look (addr &&& 0xFFFE)
    { q with
      first := (answer widths addr value q.first).1
      log := q.log ++ (answer widths addr value q.first).2 }
  | .timeout => if q.first.isEmpty then q.join else q
  | .expire now =>
    match q.first with
    | [] => q
    | (i, r) :: rest =>
      if deadlineAt q.clock r.deadline ≤ now then { q with first := rest, log := q.log ++ [.expired i] } else q
  | .tick now => { q with clock := now }
  | .kill device =>
    { q with
      first := q.queue.filter fun e => !(e.2.device == device)
      last := []
      log := q.log ++ (q.queue.filter fun e => e.2.device == device).map fun e => .killed e.1 }
  | .reap | .free _ => q

/-- The queue after the steps of a run. -/
def after (acts : List QueueAct) : InFlight := acts.foldl next {}

end InFlight

end WhiteRabbit.Etherbone
