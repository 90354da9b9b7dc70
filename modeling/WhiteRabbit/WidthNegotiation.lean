import WhiteRabbit.MessageDecoder
import WhiteRabbit.StepRuns
import Mathlib.Logic.Function.Basic

/-!
# Negotiation of the widths

A device asks its peer for widths with a probe, and waits in `eb_device_open` until the field of its widths is
not zero. The answer finds the device by a tag, whenever it comes. Datagrams may be lost, delayed, repeated and
reordered; a stream has a device at each end, the passive one of which stores the widths, too.
-/

namespace WhiteRabbit.Etherbone
open BigEndian StepRuns

/-- `socket->widths`, which `eb_socket_open` has checked. -/
structure SocketMask where
  mask : UInt8
  possible : ebWidthPossible mask.toNat = true

/-- What becomes of a device. Between its attempts it is in `eb_device_open`; `result` are its widths at the end of
it. A passive device belongs to the connection of the device that asked for it. -/
inductive Role where
  | opening (attempts : ℕ)
  | opened (probed : Bool) (result : ℕ)
  | passive (asker : ℕ)
  deriving DecidableEq

/-- Handles are used again, serial numbers are not. -/
structure NetDevice where
  serial : ℕ
  handle : ℕ
  socket : ℕ
  peer : ℕ
  stream : Bool
  link : Bool
  asked : UInt8
  widths : ℕ
  role : Role
  deriving DecidableEq

/-- A message on a packet transport, with the device it was sent for. -/
structure Datagram where
  src : ℕ
  dst : ℕ
  asker : ℕ
  bytes : Bytes
  deriving DecidableEq

/-- `up` and `down` are the bytes of a connection towards its passive and its active end, `pending` the connections
that are not accepted yet. `air` are all datagrams so far, and `computed` the widths that messages were worked on with. -/
structure Net where
  devices : List NetDevice := []
  air : List Datagram := []
  up : ℕ → Bytes := fun _ => []
  down : ℕ → Bytes := fun _ => []
  pending : List (ℕ × ℕ) := []
  computed : List (ℕ × ℕ) := []
  next : ℕ := 0

/-- `poll` takes bytes off a connection; where it takes records, `reply` is what they are answered with and `kill`
whether they are malformed. `deliver` brings a datagram to its socket, maybe once more. -/
inductive NetAct where
  | openDevice (socket peer : ℕ) (stream : Bool) (asked : UInt8) (attempts handle : ℕ)
  | accept (asker handle : ℕ)
  | retry (serial : ℕ)
  | finish (serial : ℕ)
  | deliver (i : ℕ) (payload : Option Bytes)
  | flush (serial : ℕ) (noReads : Bool) (payload : Bytes)
  | poll (serial n : ℕ) (reply : Bytes) (kill : Bool)
  | breakLink (serial : ℕ)
  | close (serial : ℕ)

def probeMessage (proposed : ℕ) (handle : ℕ) : Bytes := [0x4E, 0x6F, 0x11, UInt8.ofNat proposed] ++ encode 4 handle

/-- Bytes 4 to 7 are echoed back. -/
def answerMessage (socket : SocketMask) (probe : Bytes) : Bytes :=
  [0x4E, 0x6F, 0x10 ||| ebHeaderPR ||| ebHeaderNR, socket.mask] ++ probe.drop 4

/-- What a device makes of a header. -/
inductive Verdict where
  | kill
  | answer (widths : ℕ) (message : Bytes)
  | assign (mask : UInt8) (tag : ℕ)
  | records (widths : ℕ)
  deriving DecidableEq

def negotiate (socket : SocketMask) (passive active : Bool) (buffer : Bytes) : Verdict :=
  match readHeader buffer with
  | .bad => .kill
  | .probe mask =>
    if active then .kill
    else .answer (ebWidthRefine (mask.toNat &&& socket.mask.toNat)) (answerMessage socket buffer)
  | .response mask tag => if passive then .kill else .assign mask tag
  | .records mask =>
    let widths := ebWidthRefine (mask.toNat &&& socket.mask.toNat)
    if ebWidthPossible widths then .records widths else .kill

namespace NetDevice

def isPassive (d : NetDevice) : Bool :=
  match d.role with
  | .passive _ => true
  | _ => false

def isOpening (d : NetDevice) : Bool :=
  match d.role with
  | .opening _ => true
  | _ => false

/-- The device whose connection it is. -/
def connection (d : NetDevice) : ℕ :=
  match d.role with
  | .passive asker => asker
  | _ => d.serial

end NetDevice

namespace Net

def device? (n : Net) (serial : ℕ) : Option NetDevice := n.devices.find? fun d => d.serial == serial

/-- The device of a socket that a tag names. -/
def named (n : Net) (socket tag : ℕ) : Option NetDevice :=
  n.devices.find? fun d => decide (d.socket = socket ∧ d.handle % 256 ^ 4 = tag)

def set (n : Net) (serial : ℕ) (f : NetDevice → NetDevice) : Net :=
  { n with devices := n.devices.map fun d => if d.serial = serial then f d else d }

def remove (n : Net) (serial : ℕ) : Net := { n with devices := n.devices.filter fun d => d.serial ≠ serial }

def send (n : Net) (q : Datagram) : Net := { n with air := n.air ++ [q] }

def setUp (n : Net) (serial : ℕ) (bytes : Bytes) : Net := { n with up := Function.update n.up serial bytes }

def setDown (n : Net) (serial : ℕ) (bytes : Bytes) : Net := { n with down := Function.update n.down serial bytes }

def compute (n : Net) (serial widths : ℕ) : Net := { n with computed := n.computed ++ [(serial, widths)] }

/-- Destroy the connection. -/
def kill (n : Net) (d : NetDevice) : Net :=
  if d.isPassive then n.remove d.serial else n.set d.serial fun d => { d with link := false }

/-- The bytes of a connection that come to a device. -/
def incoming (n : Net) (d : NetDevice) : Bytes := if d.isPassive then n.up d.connection else n.down d.connection

def setIncoming (n : Net) (d : NetDevice) (bytes : Bytes) : Net :=
  if d.isPassive then n.setUp d.connection bytes else n.setDown d.connection bytes

def answer (n : Net) (d : NetDevice) (bytes : Bytes) : Net :=
  if d.isPassive then n.setDown d.connection (n.down d.connection ++ bytes)
  else n.setUp d.connection (n.up d.connection ++ bytes)

end Net

section Steps

variable (sock : ℕ → SocketMask)

/-- `proposed_widths &= socket->widths` -/
def NetDevice.proposed (d : NetDevice) : ℕ := d.asked.toNat &&& (sock d.socket).mask.toNat

namespace Net

def probe (n : Net) (d : NetDevice) : Net :=
  let message := probeMessage (d.proposed sock) d.handle
  if d.stream then n.setUp d.serial message else n.send ⟨d.socket, d.peer, d.serial, message⟩

/-- `eb_device_open`, up to the first wait. -/
def openDevice (n : Net) (socket peer : ℕ) (stream : Bool) (asked : UInt8) (attempts handle : ℕ) : Option Net :=
  -- if the connection is streaming, we must do exactly one handshake
  let attempts := if stream then 1 else attempts
  let d : NetDevice := ⟨n.next, handle, socket, peer, stream, true, asked, 0, .opening attempts⟩
  let proposed := d.proposed sock
  if (n.devices.any fun d => d.socket == socket && d.handle == handle) || !ebWidthPossible proposed then none
  else if attempts = 0 then
    if ebWidthRefined proposed then
      some { n with
        devices := { d with widths := proposed, role := .opened false proposed } :: n.devices, next := n.next + 1 }
    else none
  else
    some (({ n with
        devices := d :: n.devices
        pending := if stream then (d.serial, peer) :: n.pending else n.pending
        next := n.next + 1 } : Net).probe sock d)

/-- `eb_device_new_slave` -/
def accept (n : Net) (asker handle : ℕ) : Option Net :=
  (n.pending.find? fun c => c.1 == asker).bind fun c =>
    if n.devices.any fun d => d.socket == c.2 && d.handle == handle then none
    else
      some { n with
        devices := ⟨n.next, handle, c.2, 0, true, true, 0, 0, .passive asker⟩ :: n.devices
        pending := n.pending.filter fun c => c.1 ≠ asker
        next := n.next + 1 }

/-- The time of an attempt is over. -/
def retry (n : Net) (serial : ℕ) : Option Net :=
  (n.device? serial).bind fun d =>
    match d.role with
    | .opening attempts =>
      if d.link = false ∨ d.widths ≠ 0 then none
      else if attempts = 1 then some (n.remove serial)
      else some ((n.set serial fun d => { d with role := .opening (attempts - 1) }).probe sock d)
    | _ => none

/-- The rest of `eb_device_open`. -/
def finish (n : Net) (serial : ℕ) : Option Net :=
  (n.device? serial).bind fun d =>
    match d.role with
    | .opening _ =>
      if d.link = false then some (n.remove serial)
      else if d.widths = 0 then none
      else
        let widths := d.widths &&& d.proposed sock
        if ebWidthPossible widths then
          some (n.set serial fun d =>
            { d with widths := ebWidthRefine widths, role := .opened true (ebWidthRefine widths) })
        else some (n.remove serial)
    | _ => none

/-- `eb_device_slave` on a transport. -/
def deliver (n : Net) (i : ℕ) (payload : Option Bytes) : Option Net :=
  n.air[i]?.map fun q =>
    match negotiate (sock q.dst) false false q.bytes with
    | .kill => n
    | .answer _ message => n.send ⟨q.dst, q.src, q.asker, message⟩
    | .assign mask tag =>
      match n.named q.dst tag with
      | none => n
      | some d => n.set d.serial fun d => { d with widths := mask.toNat }
    | .records widths =>
      let n := n.compute q.asker widths
      match payload with
      | none => n
      | some bytes =>
        n.send ⟨q.dst, q.src, q.asker, [0x4E, 0x6F, q.bytes.getD 2 0 ||| ebHeaderNR, q.bytes.getD 3 0] ++ bytes⟩

/-- Records are worked on with some widths. -/
def work (n : Net) (d : NetDevice) (widths : ℕ) (reply : Bytes) (kill : Bool) : Net :=
  let n := if d.isPassive then n.compute d.connection widths else n
  let n := n.answer d reply
  if kill then n.kill d else n

/-- `eb_device_slave` on a device of a stream. -/
def poll (n : Net) (serial k : ℕ) (reply : Bytes) (kill : Bool) : Option Net :=
  (n.device? serial).bind fun d =>
    let chunk := (n.incoming d).take k
    let rest := n.setIncoming d ((n.incoming d).drop k)
    if d.stream = false ∨ d.link = false ∨ k = 0 ∨ (n.incoming d).length < k then none
    else if d.widths = 0 then
      match negotiate (sock d.socket) d.isPassive (!d.isPassive) chunk with
      | .kill => some (rest.kill d)
      | .answer widths message =>
        let n := (rest.set serial fun d => { d with widths := widths }).answer d message
        some (if ebWidthPossible widths then n else n.kill d)
      | .assign mask tag =>
        match rest.named d.socket tag with
        | none => some (rest.kill d)
        | some e => some (rest.set e.serial fun e => { e with widths := mask.toNat })
      | .records widths => some (rest.work d widths reply kill)
    else some (rest.work d d.widths reply kill)

/-- The header of a message of `eb_device_flush`, or bytes on a stream. -/
def flush (n : Net) (serial : ℕ) (noReads : Bool) (payload : Bytes) : Option Net :=
  (n.device? serial).bind fun d =>
    match d.role with
    | .opened _ _ =>
      if d.link = false then none
      else if d.stream then some (n.setUp serial (n.up serial ++ payload))
      else
        some (n.send ⟨d.socket, d.peer, serial,
          [0x4E, 0x6F, 0x10 ||| (if noReads then ebHeaderNR else 0), UInt8.ofNat d.widths] ++ payload⟩)
    | _ => none

def breakLink (n : Net) (serial : ℕ) : Option Net :=
  (n.device? serial).bind fun d => if d.stream then some (n.kill d) else none

/-- `eb_device_close` -/
def close (n : Net) (serial : ℕ) : Option Net :=
  (n.device? serial).bind fun d =>
    match d.role with
    | .opened _ _ => some (n.remove serial)
    | _ => none

def step (n : Net) : NetAct → Option Net
  | .openDevice socket peer stream asked attempts handle =>
    n.openDevice sock socket peer stream asked attempts handle
  | .accept asker handle => n.accept asker handle
  | .retry serial => n.retry sock serial
  | .finish serial => n.finish sock serial
  | .deliver i payload => n.deliver sock i payload
  | .flush serial noReads payload => n.flush serial noReads payload
  | .poll serial k reply kill => n.poll sock serial k reply kill
  | .breakLink serial => n.breakLink serial
  | .close serial => n.close serial

end Net

/-- A probe response that is taken in: the socket, its widths and its tag, and the device whose probe it answers. -/
structure ResponseIn where
  socket : ℕ
  mask : UInt8
  tag : ℕ
  asker : ℕ

namespace Net

def responseIn (n : Net) : NetAct → Option ResponseIn
  | .deliver i _ =>
    n.air[i]?.bind fun q =>
      match negotiate (sock q.dst) false false q.bytes with
      | .assign mask tag => some ⟨q.dst, mask, tag, q.asker⟩
      | _ => none
  | .poll serial k _ _ =>
    (n.device? serial).bind fun d =>
      if d.widths ≠ 0 then none
      else
        match negotiate (sock d.socket) d.isPassive (!d.isPassive) ((n.incoming d).take k) with
        | .assign mask tag => some ⟨d.socket, mask, tag, d.connection⟩
        | _ => none
  | _ => none

/-- A probe response finds the device whose probe it answers, still in `eb_device_open`, or brings nothing new. -/
def Punctual (n : Net) (a : NetAct) : Prop :=
  ∀ r ∈ n.responseIn sock a, ∀ d ∈ n.named r.socket r.tag,
    (d.serial = r.asker ∧ d.isOpening = true) ∨ d.widths = r.mask.toNat

instance (n : Net) (a : NetAct) : Decidable (n.Punctual sock a) :=
  inferInstanceAs (Decidable (∀ r ∈ n.responseIn sock a, ∀ d ∈ n.named r.socket r.tag,
    (d.serial = r.asker ∧ d.isOpening = true) ∨ d.widths = r.mask.toNat))

/-- The widths of an open device are those that `eb_device_open` ended with, and both sides compute them. -/
structure Agreed (n : Net) (d : NetDevice) (result : ℕ) : Prop where
  unchanged : d.widths = result
  refined : ebWidthRefined d.widths = true
  asked : d.widths &&& d.asked.toNat = d.widths
  socket : d.widths &&& (sock d.socket).mask.toNat = d.widths
  peer : d.widths &&& (sock d.peer).mask.toNat = d.widths
  /-- What the peer makes of the byte in a header. -/
  header : ebWidthRefine (d.widths &&& (sock d.peer).mask.toNat) = d.widths
  /-- What the other end of a stream has stored. -/
  stored : ∀ e ∈ n.devices, e.role = .passive d.serial → e.widths = d.widths
  /-- What messages of the device have been worked on with. -/
  computed : ∀ c ∈ n.computed, c.1 = d.serial → c.2 = d.widths

/-- All devices that a probe has opened agree with their peers. -/
def WidthsAgreed (n : Net) : Prop :=
  ∀ d ∈ n.devices, ∀ result, d.role = .opened true result → n.Agreed sock d result

end Net

end Steps

section Headers

variable {socket : SocketMask} {passive active : Bool} {buffer : Bytes}

theorem negotiate_answer {widths : ℕ} {message : Bytes}
    (h : negotiate socket passive active buffer = .answer widths message) :
    ∃ mask, readHeader buffer = .probe mask ∧ active = false ∧
      widths = ebWidthRefine (mask.toNat &&& socket.mask.toNat) ∧ message = answerMessage socket buffer := by
  rw [negotiate] at h
  cases hheader : readHeader buffer with
  | probe mask =>
    cases active with
    | false =>
      rw [hheader] at h
      cases h
      exact ⟨mask, rfl, rfl, rfl, rfl⟩
    | true => simp [hheader] at h
  | bad => simp [hheader] at h
  | response mask tag =>
    rw [hheader] at h
    cases passive <;> cases h
  | records mask =>
    rw [hheader] at h
    dsimp only at h
    split at h <;> cases h

theorem negotiate_assign {mask : UInt8} {tag : ℕ} (h : negotiate socket passive active buffer = .assign mask tag) :
    readHeader buffer = .response mask tag ∧ passive = false := by
  rw [negotiate] at h
  cases hheader : readHeader buffer with
  | response mask' tag' =>
    rw [hheader] at h
    cases passive with
    | false =>
      cases h
      exact ⟨rfl, rfl⟩
    | true => cases h
  | bad => simp [hheader] at h
  | probe mask' =>
    rw [hheader] at h
    cases active <;> cases h
  | records mask' =>
    rw [hheader] at h
    dsimp only at h
    split at h <;> cases h

theorem negotiate_records {widths : ℕ} (h : negotiate socket passive active buffer = .records widths) :
    ∃ mask, readHeader buffer = .records mask ∧ widths = ebWidthRefine (mask.toNat &&& socket.mask.toNat) := by
  rw [negotiate] at h
  cases hheader : readHeader buffer with
  | records mask =>
    rw [hheader] at h
    dsimp only at h
    split at h
    · cases h
      exact ⟨mask, rfl, rfl⟩
    · cases h
  | bad => simp [hheader] at h
  | probe mask =>
    rw [hheader] at h
    cases active <;> cases h
  | response mask tag =>
    rw [hheader] at h
    cases passive <;> cases h

/-- A handshake message is not understood in part. -/
theorem readHeader_take {message : Bytes} (hlength : message.length = 8)
    (hflags : message.getD 2 0 &&& ebHeaderPF ≠ 0 ∨ message.getD 2 0 &&& ebHeaderPR ≠ 0) {k : ℕ} (hk : k < 8) :
    readHeader (message.take k) = .bad := by
  have hlen : (message.take k).length = k := by rw [List.length_take, hlength, Nat.min_eq_left (Nat.le_of_lt hk)]
  by_cases h4 : k < 4
  · simp [readHeader, hlen, h4]
  · have hbyte : (message.take k).getD 2 0 = message.getD 2 0 := by
      simp only [List.getD_eq_getElem?_getD, List.getElem?_take]
      rw [if_pos (by omega)]
    have hne : k ≠ 8 := Nat.ne_of_lt hk
    simp only [readHeader, hlen, hbyte]
    generalize message.getD 2 0 = byte at hflags
    by_cases hprobe : byte &&& ebHeaderPF = 0
    · have hresponse := hflags.resolve_left (not_not.mpr hprobe)
      simp [h4, hne, hprobe, hresponse]
    · simp [h4, hne, hprobe]

theorem length_probeMessage (proposed handle : ℕ) : (probeMessage proposed handle).length = 8 := by
  rw [probeMessage, List.length_append, length_encode]
  rfl

theorem readHeader_probeMessage (proposed handle : ℕ) :
    readHeader (probeMessage proposed handle) = .probe (UInt8.ofNat proposed) := by
  have hlength := length_probeMessage proposed handle
  have hflags : (0x11 : UInt8) &&& ebHeaderPF ≠ 0 := by decide
  simp only [readHeader, hlength]
  simp [probeMessage, hflags]

/-- A probe is answered with the widths of the socket. -/
theorem readHeader_answerMessage (socket : SocketMask) {probe : Bytes} {mask : UInt8}
    (h : readHeader probe = .probe mask) :
    (answerMessage socket probe).length = 8 ∧
      ∃ tag, readHeader (answerMessage socket probe) = .response socket.mask tag := by
  have hlength : probe.length = 8 := by
    simp only [readHeader] at h
    split_ifs at h with _ _ hne
    exact not_not.mp hne
  have hanswer : (answerMessage socket probe).length = 8 := by simp [answerMessage, hlength]
  have hflags : ((0x10 : UInt8) ||| ebHeaderPR ||| ebHeaderNR) &&& ebHeaderPF = 0 ∧
      ((0x10 : UInt8) ||| ebHeaderPR ||| ebHeaderNR) &&& ebHeaderPR ≠ 0 := by decide
  refine ⟨hanswer, decode (((answerMessage socket probe).drop 4).take 4), ?_⟩
  simp only [readHeader, hanswer]
  simp [answerMessage, hflags]

/-- A probe that is cut into pieces is not answered. -/
theorem negotiate_probe_take (socket : SocketMask) (passive : Bool) (proposed handle : ℕ) {k : ℕ} (hk : k ≤ 8) :
    negotiate socket passive false ((probeMessage proposed handle).take k) =
      if k < 8 then .kill
      else .answer (ebWidthRefine ((UInt8.ofNat proposed).toNat &&& socket.mask.toNat))
        (answerMessage socket (probeMessage proposed handle)) := by
  have hlength := length_probeMessage proposed handle
  have hflags : (0x11 : UInt8) &&& ebHeaderPF ≠ 0 := by decide
  split
  · rename_i hlt
    rw [negotiate, readHeader_take hlength (.inl hflags) hlt]
  · rw [List.take_of_length_le (by omega), negotiate, readHeader_probeMessage]
    exact if_neg Bool.false_ne_true

theorem negotiate_response_take (socket : SocketMask) {message : Bytes} {mask : UInt8} {tag : ℕ}
    (hlength : message.length = 8)
    (hheader : readHeader message = .response mask tag) {k : ℕ} (hk : k ≤ 8) :
    negotiate socket false true (message.take k) = if k < 8 then .kill else .assign mask tag := by
  have hflags : message.getD 2 0 &&& ebHeaderPR ≠ 0 := by
    intro hzero
    simp only [readHeader, hzero] at hheader
    split_ifs at hheader with _ _ _ hresponse
    exact hresponse rfl
  split
  · rename_i hlt
    rw [negotiate, readHeader_take hlength (.inr hflags) hlt]
  · rw [List.take_of_length_le (by omega), negotiate, hheader]
    exact if_neg Bool.false_ne_true

theorem readHeader_records {flags mask : UInt8} (hpf : flags &&& ebHeaderPF = 0) (hpr : flags &&& ebHeaderPR = 0)
    (hversion : flags &&& 0xF0 = 0x10) (payload : Bytes) :
    readHeader ([0x4E, 0x6F, flags, mask] ++ payload) = .records mask := by
  simp [readHeader, hpf, hpr, hversion]

/-- A reply to records has their header, with the promise of no reads. -/
theorem readHeader_reply {bytes : Bytes} {mask : UInt8} (h : readHeader bytes = .records mask) (payload : Bytes) :
    readHeader ([0x4E, 0x6F, bytes.getD 2 0 ||| ebHeaderNR, bytes.getD 3 0] ++ payload) = .records mask := by
  have hflags : ∀ n < 256, UInt8.ofNat n &&& ebHeaderPF = 0 → UInt8.ofNat n &&& ebHeaderPR = 0 →
      UInt8.ofNat n &&& 0xF0 = 0x10 → (UInt8.ofNat n ||| ebHeaderNR) &&& ebHeaderPF = 0 ∧
        (UInt8.ofNat n ||| ebHeaderNR) &&& ebHeaderPR = 0 ∧ (UInt8.ofNat n ||| ebHeaderNR) &&& 0xF0 = 0x10 := by
    decide +kernel
  simp only [readHeader] at h
  split_ifs at h with _ hprobe _ hresponse _ hversion
  obtain ⟨hpf, hpr, hversion'⟩ := hflags (bytes.getD 2 0).toNat (UInt8.toNat_lt _) (by simpa using hprobe)
    (by simpa using hresponse) (by simpa using hversion)
  rw [UInt8.ofNat_toNat] at hpf hpr hversion'
  rw [readHeader_records hpf hpr hversion']
  exact h

end Headers

end WhiteRabbit.Etherbone
