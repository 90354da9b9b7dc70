import WhiteRabbit.StepRuns
import Mathlib.Data.List.Basic
import Mathlib.Order.Basic

/-!
# Visiting the devices of a socket

`eb_socket_check` walks the list of devices, decodes the messages of each and flushes it. Callbacks
and bus handlers run on the way, and may open and close devices or check the socket again. Both
functions keep indices of devices and links meanwhile. The walk of `eb_device_slave` for a probe
response runs no user code, and keeps none.
-/

namespace WhiteRabbit.Etherbone
open StepRuns

/-- A device in the list of the socket. `passive` says that the word it shares with its ready list
names the device itself, which is so for passive devices and for devices that are being closed. -/
structure LinkedDevice where
  id : ℕ
  link : Option ℕ
  passive : Bool
  deriving DecidableEq

/-- How far a call of `eb_socket_check` has come: before the loop over the devices (also while it
takes in messages without a device), at its head, before and in `eb_device_slave`, and behind it. -/
inductive VisitPhase where
  | start
  | head (cursor : Option ℕ)
  | poll (device : ℕ) (next : Option ℕ)
  | slave (device : ℕ) (next : Option ℕ) (link : ℕ) (passive : Bool)
  | tail (device : ℕ) (next : Option ℕ)
  deriving DecidableEq

/-- The calls that can be suspended, and callbacks and handlers of the user. -/
inductive VisitFrame where
  | user
  | check (phase : VisitPhase)
  | flush (device : ℕ)
  | close (device : ℕ)
  deriving DecidableEq

/-- The use of an index that names no device of the list, or not its link. -/
structure Dangling where
  device : ℕ
  link : Option ℕ
  deriving DecidableEq

/-- Handles are not reused: `nextId` is fresh. -/
structure VisitMachine where
  devices : List LinkedDevice := []
  nextId : ℕ := 0
  stack : List VisitFrame := []
  dangling : List Dangling := []

/-- What user code does, and what happens inside the library. `busy` says that cycles of the device
are open, `transfer` is a send or receive over the link of the message, `finish` the return of
`eb_device_slave` and `kill` its exit for a broken link. -/
inductive VisitAct where
  | openDevice (passive : Bool)
  | closeDevice (device : ℕ) (busy : Bool)
  | check
  | done
  | accept
  | callback
  | next
  | transfer
  | finish (more : Bool)
  | kill

namespace VisitMachine

def device? (m : VisitMachine) (d : ℕ) : Option LinkedDevice := m.devices.find? fun dev => dev.id == d

/-- Whether user code runs. -/
def userTurn (m : VisitMachine) : Bool :=
  match m.stack with
  | [] => true
  | .user :: _ => true
  | _ => false

/-- Open a device, at the front of the list. -/
def addDevice (m : VisitMachine) (passive : Bool) : VisitMachine :=
  { m with
    devices := ⟨m.nextId, some m.nextId, passive⟩ :: m.devices
    nextId := m.nextId + 1 }

/-- Remove it from the list, close the link, and free both. -/
def removeDevice (m : VisitMachine) (d : ℕ) : VisitMachine :=
  { m with devices := m.devices.filter fun dev => dev.id != d }

def setDevice (m : VisitMachine) (d : ℕ) (f : LinkedDevice → LinkedDevice) : VisitMachine :=
  { m with devices := m.devices.map fun dev => if dev.id = d then f dev else dev }

def withStack (m : VisitMachine) (stack : List VisitFrame) : VisitMachine := { m with stack := stack }

def use (m : VisitMachine) (d : ℕ) (link : Option ℕ) : VisitMachine :=
  { m with dangling := ⟨d, link⟩ :: m.dangling }

/-- The device behind `d` in the list. -/
def following (d : ℕ) : List LinkedDevice → Option ℕ
  | [] => none
  | dev :: devs => if dev.id = d then devs.head?.map LinkedDevice.id else following d devs

/-- Dereference a device. -/
def onDevice (m : VisitMachine) (d : ℕ) (f : LinkedDevice → VisitMachine) : VisitMachine :=
  match m.device? d with
  | none => m.use d none
  | some dev => f dev

/-- Dereference the link of a device. -/
def onLink (m : VisitMachine) (d link : ℕ) (m' : VisitMachine) : VisitMachine :=
  if (m.device? d).bind LinkedDevice.link = some link then m' else m.use d (some link)

/-- `eb_device_close`, before it removes an active device. -/
def ebDeviceClose (m : VisitMachine) (d : ℕ) (busy : Bool) : Option VisitMachine :=
  (m.device? d).map fun dev =>
    if busy then m
    else if dev.passive then m.removeDevice d
    else (m.setDevice d fun dev => { dev with passive := true }).withStack (.close d :: m.stack)

/-- A turn of `eb_socket_check`; `stack` are the frames below it. -/
def checkTurn (m : VisitMachine) (phase : VisitPhase) (stack : List VisitFrame) : Option VisitMachine :=
  match phase with
  | .start => some (m.withStack (.check (.head (m.devices.head?.map LinkedDevice.id)) :: stack))
  | .head none => some (m.withStack stack)
  | .head (some d) =>
    some (m.onDevice d fun _ => m.withStack (.check (.poll d (following d m.devices)) :: stack))
  | .poll d next =>
    some (m.onDevice d fun dev =>
      match dev.link with
      | none => m.withStack (.check (.tail d next) :: stack)
      | some link => m.withStack (.check (.slave d next link dev.passive) :: stack))
  | .slave .. => none
  | .tail d next =>
    some (m.onDevice d fun dev =>
      if dev.passive then m.withStack (.check (.head next) :: stack)
      else m.withStack (.flush d :: .check (.head next) :: stack))

/-- A turn of the call on top. `eb_device_flush` and `eb_device_close` return. -/
def turn (m : VisitMachine) : Option VisitMachine :=
  match m.stack with
  | .check phase :: stack => m.checkTurn phase stack
  | .flush _ :: stack => some (m.withStack stack)
  | .close d :: stack => some ((m.removeDevice d).withStack stack)
  | _ => none

/-- The exit of `eb_device_slave` for a broken link. -/
def slaveKill (m : VisitMachine) (d : ℕ) (next : Option ℕ) (link : ℕ) (passive : Bool)
    (stack : List VisitFrame) : VisitMachine :=
  let returned := m.withStack (.check (.tail d next) :: stack)
  if passive then m.onDevice d fun _ => returned.removeDevice d
  else m.onLink d link (returned.setDevice d fun dev => { dev with link := none })

/-- Whether the call on top can run user code. -/
def callsBack (m : VisitMachine) : Bool :=
  match m.stack with
  | .check .start :: _ => true
  | .check (.slave ..) :: _ => true
  | .flush _ :: _ => true
  | .close _ :: _ => true
  | _ => false

def step (m : VisitMachine) (act : VisitAct) : Option VisitMachine :=
  -- behind a dangling use anything could happen
  if m.dangling ≠ [] then none
  else
    match act with
    | .openDevice passive => if m.userTurn then some (m.addDevice passive) else none
    | .closeDevice d busy => if m.userTurn then m.ebDeviceClose d busy else none
    | .check => if m.userTurn then some (m.withStack (.check .start :: m.stack)) else none
    | .done =>
      match m.stack with
      | .user :: stack => some (m.withStack stack)
      | _ => none
    | .accept =>
      match m.stack with
      | .check .start :: _ => some (m.addDevice true)
      | _ => none
    | .callback => if m.callsBack then some (m.withStack (.user :: m.stack)) else none
    | .next => m.turn
    | .transfer =>
      match m.stack with
      | .check (.slave d _ link _) :: _ => some (m.onLink d link m)
      | _ => none
    | .finish more =>
      match m.stack with
      | .check (.slave d next _ _) :: stack =>
        some (m.withStack (.check (if more then .poll d next else .tail d next) :: stack))
      | _ => none
    | .kill =>
      match m.stack with
      | .check (.slave d next link passive) :: stack => some (m.slaveKill d next link passive stack)
      | _ => none

end VisitMachine

/-- Whether a suspended call holds the index of a device: the one it visits, or the next one. -/
def VisitFrame.holds (d : ℕ) : VisitFrame → Bool
  | .check (.head cursor) => cursor == some d
  | .check (.poll e next) => e == d || next == some d
  | .check (.slave e next _ _) => e == d || next == some d
  | .check (.tail e next) => e == d || next == some d
  | _ => false

/-- Whether a suspended call decodes a message of a device, and holds the index of its link. -/
def VisitFrame.decodes (d : ℕ) : VisitFrame → Bool
  | .check (.slave e _ _ _) => e == d
  | _ => false

/-- No device is removed while a suspended call holds its index, and no link is destroyed while
another call decodes a message of it. -/
def undisturbed (m : VisitMachine) : VisitAct → Bool
  | .closeDevice d busy =>
    busy || (m.device? d).any (fun dev => !dev.passive) || !m.stack.any (VisitFrame.holds d)
  | .next =>
    match m.stack with
    | .close d :: stack => !stack.any (VisitFrame.holds d)
    | _ => true
  | .kill =>
    match m.stack with
    -- the check that visits a passive device holds it
    | .check (.slave d _ _ passive) :: stack => !passive && !stack.any (VisitFrame.decodes d)
    | _ => true
  | _ => true

namespace VisitMachine

/-- All indices that a frame holds are those of devices in the list and of their links. -/
def Valid (m : VisitMachine) (frame : VisitFrame) : Prop :=
  (∀ d, frame.holds d = true → (m.device? d).isSome = true) ∧
    ∀ d next link passive, frame = .check (.slave d next link passive) →
      (m.device? d).bind LinkedDevice.link = some link

structure Sound (m : VisitMachine) : Prop where
  dangling : m.dangling = []
  ids : ∀ dev ∈ m.devices, dev.id < m.nextId
  frames : ∀ frame ∈ m.stack, m.Valid frame

section Devices

variable {m : VisitMachine} {d e : ℕ} {frame : VisitFrame}

theorem device?_lt (hids : ∀ dev ∈ m.devices, dev.id < m.nextId) (h : (m.device? d).isSome = true) :
    d < m.nextId := by
  obtain ⟨dev, hdev⟩ := Option.isSome_iff_exists.mp h
  have hid : dev.id = d := by simpa using List.find?_some hdev
  exact hid ▸ hids dev (List.mem_of_find?_eq_some hdev)

theorem device?_addDevice (passive : Bool) (h : d < m.nextId) : (m.addDevice passive).device? d = m.device? d := by
  rw [device?, addDevice, List.find?_cons_of_neg]
  · rfl
  · simp [Nat.ne_of_gt h]

theorem device?_removeDevice (h : d ≠ e) : (m.removeDevice e).device? d = m.device? d := by
  rw [device?, device?, removeDevice, List.find?_filter]
  congr 1
  funext dev
  by_cases hid : dev.id = d
  · simp [hid, h]
  · simp [hid]

theorem device?_setDevice (f : LinkedDevice → LinkedDevice) (hf : ∀ dev, (f dev).id = dev.id) :
    (m.setDevice e f).device? d = (m.device? d).map fun dev => if dev.id = e then f dev else dev := by
  rw [device?, device?, setDevice, List.find?_map]
  congr 1
  congr 1
  funext dev
  by_cases hid : dev.id = e
  · simp [hid, hf]
  · simp [hid]

theorem device?_head {devs : List LinkedDevice} (h : devs.head?.map LinkedDevice.id = some d) :
    (devs.find? fun dev => dev.id == d).isSome = true := by
  obtain ⟨dev, hdev, rfl⟩ := Option.map_eq_some_iff.mp h
  rw [List.find?_isSome]
  exact ⟨dev, List.mem_of_mem_head? hdev, by simp⟩

/-- The device that follows is in the list. -/
theorem device?_following {devs : List LinkedDevice} (h : following e devs = some d) :
    (devs.find? fun dev => dev.id == d).isSome = true := by
  induction devs with
  | nil => simp [following] at h
  | cons dev devs ih =>
    rw [following] at h
    have hrest : (devs.find? fun dev => dev.id == d).isSome = true := by
      split at h
      · exact device?_head h
      · exact ih h
    rw [List.find?_isSome] at hrest ⊢
    obtain ⟨other, hmem, hid⟩ := hrest
    exact ⟨other, List.mem_cons_of_mem _ hmem, hid⟩

theorem Valid.addDevice (hids : ∀ dev ∈ m.devices, dev.id < m.nextId) (passive : Bool) (h : m.Valid frame) :
    (m.addDevice passive).Valid frame := by
  constructor
  · intro d hd
    have hsome := h.1 d hd
    rwa [device?_addDevice passive (device?_lt hids hsome)]
  · intro d next link p hframe
    have hlink := h.2 d next link p hframe
    have hsome : (m.device? d).isSome = true := by
      cases hdev : m.device? d with
      | none => simp [hdev] at hlink
      | some dev => rfl
    rwa [device?_addDevice passive (device?_lt hids hsome)]

theorem Valid.removeDevice (hholds : frame.holds e = false) (h : m.Valid frame) :
    (m.removeDevice e).Valid frame := by
  constructor
  · intro d hd
    have hne : d ≠ e := by
      rintro rfl
      simp [hd] at hholds
    rw [device?_removeDevice hne]
    exact h.1 d hd
  · intro d next link p hframe
    have hne : d ≠ e := by
      rintro rfl
      simp [hframe, VisitFrame.holds] at hholds
    rw [device?_removeDevice hne]
    exact h.2 d next link p hframe

theorem Valid.setPassive (h : m.Valid frame) :
    (m.setDevice e fun dev => { dev with passive := true }).Valid frame := by
  constructor
  · intro d hd
    rw [device?_setDevice (fun dev => { dev with passive := true }) fun _ => rfl, Option.isSome_map]
    exact h.1 d hd
  · intro d next link p hframe
    have hlink := h.2 d next link p hframe
    obtain ⟨dev, hdev, hdevLink⟩ := Option.bind_eq_some_iff.mp hlink
    rw [device?_setDevice (fun dev => { dev with passive := true }) fun _ => rfl, hdev,
      Option.map_some, Option.bind_some]
    split
    · exact hdevLink
    · exact hdevLink

theorem Valid.dropLink (hdecodes : frame.decodes e = false) (h : m.Valid frame) :
    (m.setDevice e fun dev => { dev with link := none }).Valid frame := by
  constructor
  · intro d hd
    rw [device?_setDevice (fun dev => { dev with link := none }) fun _ => rfl, Option.isSome_map]
    exact h.1 d hd
  · intro d next link p hframe
    have hne : d ≠ e := by
      rintro rfl
      simp [hframe, VisitFrame.decodes] at hdecodes
    have hlink := h.2 d next link p hframe
    obtain ⟨dev, hdev, hdevLink⟩ := Option.bind_eq_some_iff.mp hlink
    have hid : dev.id = d := by simpa using List.find?_some hdev
    rw [device?_setDevice (fun dev => { dev with link := none }) fun _ => rfl, hdev,
      Option.map_some, Option.bind_some, if_neg (hid ▸ hne)]
    exact hdevLink

end Devices

section Frames

variable {m : VisitMachine} {d link : ℕ} {next : Option ℕ} {passive : Bool} {phase : VisitPhase}
  {stack : List VisitFrame}

theorem valid_user : m.Valid .user := ⟨fun d h => by simp [VisitFrame.holds] at h, fun d _ _ _ h => by simp at h⟩

theorem valid_flush : m.Valid (.flush d) :=
  ⟨fun d h => by simp [VisitFrame.holds] at h, fun d _ _ _ h => by simp at h⟩

theorem valid_close : m.Valid (.close d) :=
  ⟨fun d h => by simp [VisitFrame.holds] at h, fun d _ _ _ h => by simp at h⟩

theorem valid_start : m.Valid (.check .start) :=
  ⟨fun d h => by simp [VisitFrame.holds] at h, fun d _ _ _ h => by simp at h⟩

theorem valid_head (h : ∀ d, next = some d → (m.device? d).isSome = true) : m.Valid (.check (.head next)) :=
  ⟨fun d hd => h d (by simpa [VisitFrame.holds] using hd), fun d _ _ _ hframe => by simp at hframe⟩

theorem valid_poll (hd : (m.device? d).isSome = true) (h : ∀ e, next = some e → (m.device? e).isSome = true) :
    m.Valid (.check (.poll d next)) := by
  refine ⟨fun e he => ?_, fun e _ _ _ hframe => by simp at hframe⟩
  simp only [VisitFrame.holds, Bool.or_eq_true, beq_iff_eq] at he
  cases he with
  | inl heq => exact heq ▸ hd
  | inr hnext => exact h e hnext

theorem valid_tail (hd : (m.device? d).isSome = true) (h : ∀ e, next = some e → (m.device? e).isSome = true) :
    m.Valid (.check (.tail d next)) := by
  refine ⟨fun e he => ?_, fun e _ _ _ hframe => by simp at hframe⟩
  simp only [VisitFrame.holds, Bool.or_eq_true, beq_iff_eq] at he
  cases he with
  | inl heq => exact heq ▸ hd
  | inr hnext => exact h e hnext

theorem valid_slave {dev : LinkedDevice} (hdev : m.device? d = some dev) (hlink : dev.link = some link)
    (h : ∀ e, next = some e → (m.device? e).isSome = true) : m.Valid (.check (.slave d next link passive)) := by
  constructor
  · intro e he
    simp only [VisitFrame.holds, Bool.or_eq_true, beq_iff_eq] at he
    cases he with
    | inl heq =>
      rw [← heq, hdev]
      rfl
    | inr hnext => exact h e hnext
  · intro e next' link' passive' hframe
    cases hframe
    rw [hdev]
    exact hlink

theorem Valid.current (h : m.Valid (.check phase)) (hd : (VisitFrame.check phase).holds d = true) :
    ∃ dev, m.device? d = some dev := Option.isSome_iff_exists.mp (h.1 d hd)

theorem Sound.withStack (h : m.Sound) (hframes : ∀ frame ∈ stack, m.Valid frame) : (m.withStack stack).Sound :=
  ⟨h.dangling, h.ids, hframes⟩

/-- Another frame on top of the ones that remain. -/
theorem Sound.push {frame top : VisitFrame} (h : m.Sound) (hstack : m.stack = top :: stack)
    (hframe : m.Valid frame) : (m.withStack (frame :: stack)).Sound := by
  apply h.withStack
  intro other hother
  cases List.mem_cons.mp hother with
  | inl heq => exact heq ▸ hframe
  | inr hmem => exact h.frames other (hstack ▸ List.mem_cons_of_mem _ hmem)

theorem Sound.pop {top : VisitFrame} (h : m.Sound) (hstack : m.stack = top :: stack) :
    (m.withStack stack).Sound :=
  h.withStack fun frame hframe => h.frames frame (hstack ▸ List.mem_cons_of_mem _ hframe)

theorem Sound.cover {frame : VisitFrame} (h : m.Sound) (hframe : m.Valid frame) :
    (m.withStack (frame :: m.stack)).Sound := by
  apply h.withStack
  intro other hother
  cases List.mem_cons.mp hother with
  | inl heq => exact heq ▸ hframe
  | inr hmem => exact h.frames other hmem

theorem Sound.addDevice (h : m.Sound) (passive : Bool) : (m.addDevice passive).Sound where
  dangling := h.dangling
  ids dev hdev := by
    cases List.mem_cons.mp hdev with
    | inl heq =>
      rw [heq]
      exact Nat.lt_succ_self _
    | inr hmem => exact Nat.lt_succ_of_lt (h.ids dev hmem)
  frames frame hframe := (h.frames frame hframe).addDevice h.ids passive

theorem Sound.removeDevice (h : m.Sound) (hholds : m.stack.any (VisitFrame.holds d) = false) :
    (m.removeDevice d).Sound where
  dangling := h.dangling
  ids dev hdev := h.ids dev (List.mem_of_mem_filter hdev)
  frames frame hframe :=
    (h.frames frame hframe).removeDevice (by simpa using List.any_eq_false.mp hholds frame hframe)

theorem Sound.setPassive (h : m.Sound) : (m.setDevice d fun dev => { dev with passive := true }).Sound where
  dangling := h.dangling
  ids dev hdev := by
    obtain ⟨old, hold, rfl⟩ := List.mem_map.mp hdev
    have hid := h.ids old hold
    split
    · exact hid
    · exact hid
  frames frame hframe := (h.frames frame hframe).setPassive

theorem Sound.dropLink (h : m.Sound) (hdecodes : m.stack.any (VisitFrame.decodes d) = false) :
    (m.setDevice d fun dev => { dev with link := none }).Sound where
  dangling := h.dangling
  ids dev hdev := by
    obtain ⟨old, hold, rfl⟩ := List.mem_map.mp hdev
    have hid := h.ids old hold
    split
    · exact hid
    · exact hid
  frames frame hframe :=
    (h.frames frame hframe).dropLink (by simpa using List.any_eq_false.mp hdecodes frame hframe)

end Frames

section Steps

variable {m t : VisitMachine} {stack : List VisitFrame}

theorem Sound.ebDeviceClose {d : ℕ} {busy : Bool} (h : m.Sound)
    (hc : undisturbed m (.closeDevice d busy) = true) (hclose : m.ebDeviceClose d busy = some t) : t.Sound := by
  obtain ⟨dev, hdev, rfl⟩ := Option.map_eq_some_iff.mp hclose
  split
  · exact h
  · rename_i hbusy
    split
    · rename_i hpassive
      apply h.removeDevice
      simpa [undisturbed, hbusy, hdev, hpassive] using hc
    · exact h.setPassive.cover valid_close

theorem Sound.checkTurn {phase : VisitPhase} (h : m.Sound) (hstack : m.stack = .check phase :: stack)
    (hturn : m.checkTurn phase stack = some t) : t.Sound := by
  have hvalid : m.Valid (.check phase) := h.frames _ (hstack ▸ List.mem_cons_self)
  cases phase with
  | start =>
    cases hturn
    exact h.push hstack (valid_head fun d hd => device?_head hd)
  | head cursor =>
    cases cursor with
    | none =>
      cases hturn
      exact h.pop hstack
    | some d =>
      cases hturn
      obtain ⟨dev, hdev⟩ := hvalid.current (d := d) (by simp [VisitFrame.holds])
      rw [onDevice, hdev]
      exact h.push hstack (valid_poll (by rw [hdev]; rfl) fun e he => device?_following he)
  | poll d next =>
    cases hturn
    obtain ⟨dev, hdev⟩ := hvalid.current (d := d) (by simp [VisitFrame.holds])
    have hnext : ∀ e, next = some e → (m.device? e).isSome = true :=
      fun e he => hvalid.1 e (by simp [VisitFrame.holds, he])
    rw [onDevice, hdev]
    dsimp only
    split
    · exact h.push hstack (valid_tail (by rw [hdev]; rfl) hnext)
    · rename_i link hlink
      exact h.push hstack (valid_slave hdev hlink hnext)
  | slave d next link passive => cases hturn
  | tail d next =>
    cases hturn
    obtain ⟨dev, hdev⟩ := hvalid.current (d := d) (by simp [VisitFrame.holds])
    have hhead : m.Valid (.check (.head next)) :=
      valid_head fun e he => hvalid.1 e (by simp [VisitFrame.holds, he])
    rw [onDevice, hdev]
    dsimp only
    split
    · exact h.push hstack hhead
    · exact (h.push hstack hhead).cover valid_flush

theorem Sound.turn (h : m.Sound) (hc : undisturbed m .next = true) (hturn : m.turn = some t) : t.Sound := by
  cases hstack : m.stack with
  | nil => simp [VisitMachine.turn, hstack] at hturn
  | cons top stack =>
    rw [VisitMachine.turn, hstack] at hturn
    cases top with
    | user => cases hturn
    | check phase => exact h.checkTurn hstack hturn
    | flush d =>
      cases hturn
      exact h.pop hstack
    | close d =>
      cases hturn
      have hholds : stack.any (VisitFrame.holds d) = false := by simpa [undisturbed, hstack] using hc
      exact (h.pop hstack).removeDevice hholds

theorem Sound.slaveKill {d link : ℕ} {next : Option ℕ} {passive : Bool} (h : m.Sound)
    (hstack : m.stack = .check (.slave d next link passive) :: stack) (hc : undisturbed m .kill = true) :
    (m.slaveKill d next link passive stack).Sound := by
  have hvalid : m.Valid (.check (.slave d next link passive)) := h.frames _ (hstack ▸ List.mem_cons_self)
  have hactive : passive = false ∧ stack.any (VisitFrame.decodes d) = false := by
    simpa [undisturbed, hstack] using hc
  have htail : m.Valid (.check (.tail d next)) :=
    valid_tail (hvalid.1 d (by simp [VisitFrame.holds]))
      fun e he => hvalid.1 e (by simp [VisitFrame.holds, he])
  rw [VisitMachine.slaveKill, hactive.1, if_neg Bool.false_ne_true, onLink,
    if_pos (hvalid.2 d next link passive rfl)]
  apply (h.push hstack htail).dropLink
  rw [VisitMachine.withStack, List.any_cons, hactive.2]
  rfl

theorem Sound.step {act : VisitAct} (h : m.Sound) (hc : undisturbed m act = true) (hstep : m.step act = some t) :
    t.Sound := by
  rw [VisitMachine.step.eq_def, if_neg (by simp [h.dangling])] at hstep
  cases act with
  | openDevice passive =>
    dsimp only at hstep
    split at hstep
    · cases hstep
      exact h.addDevice passive
    · cases hstep
  | closeDevice d busy =>
    dsimp only at hstep
    split at hstep
    · exact h.ebDeviceClose hc hstep
    · cases hstep
  | check =>
    dsimp only at hstep
    split at hstep
    · cases hstep
      exact h.cover valid_start
    · cases hstep
  | done =>
    dsimp only at hstep
    split at hstep
    · rename_i stack hstack
      cases hstep
      exact h.pop hstack
    · cases hstep
  | accept =>
    dsimp only at hstep
    split at hstep
    · cases hstep
      exact h.addDevice true
    · cases hstep
  | callback =>
    dsimp only at hstep
    split at hstep
    · cases hstep
      exact h.cover valid_user
    · cases hstep
  | next => exact h.turn hc hstep
  | transfer =>
    dsimp only at hstep
    split at hstep
    · rename_i d next link passive stack hstack
      cases hstep
      have hvalid := h.frames _ (hstack ▸ List.mem_cons_self)
      rw [onLink, if_pos (hvalid.2 d next link passive rfl)]
      exact h
    · cases hstep
  | finish more =>
    dsimp only at hstep
    split at hstep
    · rename_i d next link passive stack hstack
      cases hstep
      have hvalid := h.frames _ (hstack ▸ List.mem_cons_self)
      have hd := hvalid.1 d (by simp [VisitFrame.holds])
      have hnext : ∀ e, next = some e → (m.device? e).isSome = true :=
        fun e he => hvalid.1 e (by simp [VisitFrame.holds, he])
      cases more with
      | true => exact h.push hstack (valid_poll hd hnext)
      | false => exact h.push hstack (valid_tail hd hnext)
    · cases hstep
  | kill =>
    dsimp only at hstep
    split at hstep
    · rename_i d next link passive stack hstack
      cases hstep
      exact h.slaveKill hstack hc
    · cases hstep

theorem sound_initial : ({} : VisitMachine).Sound := ⟨rfl, by simp, by simp⟩

/-- A run that removes no device and no link that is held never uses a freed one. -/
theorem undisturbed_run {acts : List VisitAct}
    (hobeys : Obeys VisitMachine.step (fun m act => undisturbed m act = true) {} acts)
    (hrun : run VisitMachine.step {} acts = some m) : m.dangling = [] :=
  (run_invariant (fun hm hc hstep => hm.step hc hstep) sound_initial hobeys hrun).dangling

end Steps

end VisitMachine

namespace Sample

/-- A message of the first device, answered with the second one still there. -/
def quietVisit : List VisitAct :=
  [.openDevice false, .openDevice false, .check, .next, .next, .next, .callback, .done, .transfer, .finish false,
    .next, .next, .next]

theorem quietVisit_undisturbed : ∃ m, run VisitMachine.step {} quietVisit = some m ∧ m.dangling = [] :=
  ⟨_, rfl, @VisitMachine.undisturbed_run _ quietVisit (by decide) rfl⟩

/-- A handler of the first device closes the second one, which the check has saved already. -/
def closingNext : List VisitAct :=
  [.openDevice false, .openDevice false, .check, .next, .next, .next, .callback, .closeDevice 0 false,
    .next, .done, .finish false, .next, .next, .next]

theorem closingNext_dangles :
    ¬ ∀ m, run VisitMachine.step {} closingNext = some m → m.dangling = [] := by
  intro h
  have hdangling : (run VisitMachine.step {} closingNext).map VisitMachine.dangling = some [⟨0, none⟩] := by decide
  obtain ⟨m, hm, hlast⟩ := Option.map_eq_some_iff.mp hdangling
  have hnone := h m hm
  rw [hlast] at hnone
  cases hnone

end Sample

end WhiteRabbit.Etherbone
