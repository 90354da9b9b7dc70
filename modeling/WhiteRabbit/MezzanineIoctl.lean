import WhiteRabbit.LegalModes
import WhiteRabbit.StampFlags

/-!
# The ioctl of the mezzanine

A user command is copied into a buffer, run, and copied back. A command for time stamps may sleep
on the way; meanwhile interrupts add stamps, and other commands take some. What the commands do with
the channel they were given is kept as history.
-/

namespace WhiteRabbit.Dio

open StepRuns

def wrDioCmdPulse : ℕ := 0
def wrDioCmdStamp : ℕ := 1
def wrDioCmdDac : ℕ := 2
def wrDioCmdInout : ℕ := 3

/-- `struct wr_dio_cmd`. -/
structure IoctlCmd extends PulseCmd where
  command : ℕ

def IoctlCmd.toInout (cmd : IoctlCmd) : InoutCmd := ⟨cmd.toWrDioCmd, cmd.value⟩

inductive IoctlNumber where
  | privMezzanineId
  | privMezzanineCmd
  | other

structure IoctlRequest where
  ioctlcmd : IoctlNumber
  ifrData : IoctlCmd

inductive Errno where
  | eagain
  | enoioctlcmd
  | enomem
  | efault
  | einval
  | enotsupp
  | erestartsys
  deriving DecidableEq

/-- What depends on a channel: an index into one of the tables, or the amount of a shift with the width of
what is shifted. -/
inductive Touch where
  | dioChannel (index : ℕ)
  | regmap (index : ℕ)
  | pulseOffsets (index : ℕ)
  | shift (amount width : ℕ)
  | register
  deriving DecidableEq

def Touch.InBounds : Touch → Prop
  | .dioChannel index | .regmap index | .pulseOffsets index => index ≤ 4
  | .shift amount width => amount < width
  | .register => True

instance : ∀ t : Touch, Decidable t.InBounds
  | .dioChannel _ | .regmap _ | .pulseOffsets _ => inferInstanceAs (Decidable (_ ≤ _))
  | .shift _ _ => inferInstanceAs (Decidable (_ < _))
  | .register => isTrue trivial

/-- `wrn_dio_cmd_pulse`. -/
def PulseCmd.touches (cmd : PulseCmd) : List Touch :=
  let ch := cmd.channel
  if 4 < ch then []
  else if cmd.flags &&& wrDioFPulsoff ≠ 0 then [.pulseOffsets ch]
  else
    [.dioChannel ch, .regmap ch, .register, .shift (4 * ch) 32, .register, .register] ++
      if cmd.flags &&& wrDioFNow ≠ 0 then [.shift ch 32, .register]
      else
        (if cmd.flags &&& wrDioFLoop ≠ 0 then [.dioChannel ch] else []) ++
          [.regmap ch, .pulseOffsets ch, .register, .shift ch 32, .register]

/-- One round of the loops of `wrn_dio_cmd_inout`; the level of a channel is read where the channel is a GPIO, and
set where it becomes one. -/
def InoutCmd.channelTouches (r : ModeRegs) (cmd : InoutCmd) (ch : ℕ) : List Touch :=
  .shift ch 32 ::
    if ch ∉ cmd.chosen then []
    else if cmd.flags &&& wrDioFGet ≠ 0 then
      [.shift (4 * ch) 32, .shift ch 32] ++
        if wrDioIomodeChDecode r.iomode ch &&& wrDioIomodeSrcMask = wrDioIomodeSrcGpio then
          [.register, .shift (4 * ch) 32, .shift ch 32]
        else []
    else
      (if cmd.flags &&& wrDioFMask ≠ 0 then [.shift ch 32] else []) ++ [.register, .shift (4 * ch) 32] ++
        (if cmd.bits ch &&& wrDioInoutDio ≠ 0 then [] else [.shift (4 * ch) 32, .register]) ++
          [.shift (4 * ch) 32, .register]

/-- `wrn_dio_cmd_inout`. -/
def InoutCmd.touches (r : ModeRegs) (cmd : InoutCmd) : List Touch :=
  (if cmd.flags &&& wrDioFMask ≠ 0 then [] else [.shift cmd.channel 32]) ++
    (if cmd.flags &&& wrDioFGet ≠ 0 then [.register] else []) ++
      (DioDevice.WrDioCmd.channels cmd.toWrDioCmd).flatMap (cmd.channelTouches r)

namespace StampCall

/-- The loop of `channelLoop`. -/
def loopTouches (rings : ℕ → DioChannel) (mask : ℕ) : ℕ → ℕ → ℕ → List Touch
  | 0, _, _ => []
  | rounds + 1, ch, dioChan =>
    .shift ch 32 ::
      if 1 <<< ch &&& mask = 0 then loopTouches rings mask rounds (ch + 1) (dioChan + 1)
      else
        .regmap ch :: .dioChannel dioChan ::
          match (rings dioChan).collect wrDioNStamp with
          | (_, []) => loopTouches rings mask rounds (ch + 1) (dioChan + 1)
          | _ => []

/-- `wrn_dio_cmd_stamp` from the label `again` on, up to where it sleeps or returns. -/
def againTouches (rings : ℕ → DioChannel) (cmd : WrDioCmd) : List Touch :=
  let ch := if cmd.flags &&& wrDioFMask ≠ 0 then 0 else cmd.channel
  let last := if cmd.flags &&& wrDioFMask ≠ 0 then 4 else ch
  let mask := if cmd.flags &&& wrDioFMask ≠ 0 then cmd.channel else 1 <<< ch
  (if cmd.flags &&& wrDioFMask ≠ 0 then [] else [.shift ch 32]) ++
    loopTouches rings mask (last + 1 - ch) ch ch ++
    match (fromAgain rings cmd).2 with
    | .asleep q => [.dioChannel q]
    | _ => []

end StampCall

/-- Where the ioctl is in its code. What it will return is nothing or an error. -/
inductive IoctlCall where
  | entered
  | allocating
  | copyingIn
  | dispatch
  | stamp (call : StampCall)
  | copyingOut (ret : Option Errno)
  | out (ret : Option Errno)
  | returned (ret : Option Errno)

/-- The device, with the rings as interrupts and other commands alone would have left them; the buffers
allocated and freed, and what was touched. -/
structure IoctlState where
  device : IoDevice
  undisturbed : ℕ → DioChannel
  call : IoctlCall
  allocated : ℕ
  freed : ℕ
  touched : List Touch

inductive IoctlAct where
  | go (now : ℕ)
  | kmalloc (ok : Bool)
  | copyFromUser (ok : Bool)
  | copyToUser (ok : Bool)
  | wake
  | signal
  | interrupt (irq : Interrupt)
  | other (cmd : WrDioCmd)

/-- What a finished command returns. -/
def StampReply.ret : StampReply → Option Errno
  | .einval => some .einval
  | .eagain => some .eagain
  | .sleeps => none
  | .stamps _ _ => none

/-- A command that has returned is copied out. -/
def StampCall.settle : StampCall → IoctlCall
  | .returned reply => .copyingOut reply.ret
  | .interrupted => .copyingOut (some .erestartsys)
  | call => .stamp call

namespace IoctlState

def setRings (s : IoctlState) (rings : ℕ → DioChannel) : IoctlState :=
  { s with device := { s.device with rings := rings } }

/-- The `switch` over the commands. -/
def dispatch (cmd : IoctlCmd) (now : ℕ) (s : IoctlState) : IoctlState :=
  if cmd.command = wrDioCmdPulse then
    let s := { s with touched := s.touched ++ cmd.touches }
    match s.device.wrnDioCmdPulse cmd.toPulseCmd now with
    | none => { s with call := .copyingOut (some .einval) }
    | some d => { s with device := { s.device with toPulseDevice := d }, call := .copyingOut none }
  else if cmd.command = wrDioCmdStamp then { s with call := .stamp .entered }
  else if cmd.command = wrDioCmdInout then
    let r := (wrnDioCmdInout s.device.modes cmd.toInout).1
    { s with
      device := { s.device with iomode := r.iomode, gpio := r.gpio }
      call := .copyingOut none
      touched := s.touched ++ cmd.toInout.touches s.device.modes }
  else if cmd.command = wrDioCmdDac then { s with call := .out (some .enotsupp) }
  else { s with call := .out (some .einval) }

/-- A step of the command for time stamps. -/
def stampStep (cmd : WrDioCmd) (s : IoctlState) (call : StampCall) (a : StampAct) : Option IoctlState :=
  (StampState.step cmd ⟨s.device.rings, call⟩ a).map fun t => { s.setRings t.rings with call := t.call.settle }

/-- `wrn_mezzanine_ioctl`, with the interrupts and the commands of others while it sleeps. -/
def step (req : IoctlRequest) (s : IoctlState) : IoctlAct → Option IoctlState
  | .go now =>
    match s.call with
    | .entered =>
      match req.ioctlcmd with
      | .privMezzanineId => some { s with call := .returned (some .eagain) }
      | .other => some { s with call := .returned (some .enoioctlcmd) }
      | .privMezzanineCmd => some { s with call := .allocating }
    | .dispatch => some (s.dispatch req.ifrData now)
    | .stamp .again =>
      let touches := StampCall.againTouches s.device.rings req.ifrData.toWrDioCmd
      stampStep req.ifrData.toWrDioCmd { s with touched := s.touched ++ touches } .again .advance
    | .stamp call => stampStep req.ifrData.toWrDioCmd s call .advance
    | .out ret => some { s with call := .returned ret, freed := s.freed + 1 }
    | _ => none
  | .kmalloc ok =>
    match s.call with
    | .allocating =>
      if ok then some { s with call := .copyingIn, allocated := s.allocated + 1 }
      else some { s with call := .returned (some .enomem) }
    | _ => none
  | .copyFromUser ok =>
    match s.call with
    | .copyingIn => some { s with call := if ok then .dispatch else .out (some .efault) }
    | _ => none
  | .copyToUser ok =>
    match s.call with
    | .copyingOut ret => some { s with call := if ok then .out ret else .returned (some .efault) }
    | _ => none
  | .wake =>
    match s.call with
    | .stamp (.asleep q) =>
      stampStep req.ifrData.toWrDioCmd { s with touched := s.touched ++ [.dioChannel q] } (.asleep q) .wake
    | _ => none
  | .signal =>
    match s.call with
    | .stamp call => stampStep req.ifrData.toWrDioCmd s call .signal
    | _ => none
  | .interrupt irq =>
    some { s with
      device := { s.device with toPulseDevice := s.device.wrnDioInterrupt irq }
      undisturbed := DioDevice.wrnDioInterrupt s.undisturbed irq.mask irq.fifo }
  | .other cmd =>
    match s.call with
    | .stamp (.asleep _) =>
      some { s.setRings (DioDevice.wrnDioCmdStamp s.device.rings cmd).1 with
        undisturbed := (DioDevice.wrnDioCmdStamp s.undisturbed cmd).1 }
    | _ => none

def start (d : IoDevice) : IoctlState where
  device := d
  undisturbed := d.rings
  call := .entered
  allocated := 0
  freed := 0
  touched := []

end IoctlState

namespace PulseDevice

variable {d : PulseDevice}

theorem channelTurn_rings (d : PulseDevice) (ch : ℕ) (fifo : List Sample) : (d.channelTurn ch fifo).rings =
    Function.update d.rings ch (fifo.foldl DioChannel.pull (d.rings ch)) := by
  rw [channelTurn]
  cases fifo.getLast? with
  | none => rfl
  | some s =>
    dsimp only
    split <;> rfl

/-- To the rings an interrupt is the draining alone. -/
theorem wrnDioInterrupt_rings (d : PulseDevice) (irq : Interrupt) :
    (d.wrnDioInterrupt irq).rings = DioDevice.wrnDioInterrupt d.rings irq.mask irq.fifo := by
  have hfold : ∀ (chs : List ℕ) (d : PulseDevice), chs.Nodup → ∀ k,
      (chs.foldl (fun d ch => if irq.mask.testBit ch then d.channelTurn ch (irq.fifo ch) else d) d).rings k =
        if k ∈ chs ∧ irq.mask.testBit k then (irq.fifo k).foldl DioChannel.pull (d.rings k) else d.rings k := by
    intro chs
    induction chs with
    | nil => simp
    | cons ch chs ih =>
      intro d hnodup k
      obtain ⟨hch, hchs⟩ := List.nodup_cons.mp hnodup
      rw [List.foldl_cons, ih _ hchs]
      by_cases hk : k = ch
      · subst hk
        by_cases hbit : irq.mask.testBit k = true
        · simp [hch, hbit, channelTurn_rings]
        · simp [hch, hbit]
      · by_cases hbit : irq.mask.testBit ch = true
        · simp [hk, hbit, channelTurn_rings]
        · simp [hk, hbit]
  funext k
  rw [wrnDioInterrupt, hfold (List.range 5) d List.nodup_range k, DioDevice.wrnDioInterrupt]
  simp only [List.mem_range]

end PulseDevice

namespace IoctlState

variable {req : IoctlRequest} {s t : IoctlState}

/-- The rings are as they would be without the ioctl, and the buffer it allocated is freed once. -/
def Atomic (s : IoctlState) : Prop :=
  s.device.rings = s.undisturbed ∧ s.freed = s.allocated ∧ s.allocated ≤ 1

/-- What holds on the way, after a fault of copy_to_user or without one. -/
def Books (faulted : Prop) (s : IoctlState) : Prop :=
  match s.call with
  | .entered | .allocating =>
    ¬ faulted ∧ s.device.rings = s.undisturbed ∧ s.allocated = 0 ∧ s.freed = 0
  | .copyingIn | .dispatch | .stamp _ =>
    ¬ faulted ∧ s.device.rings = s.undisturbed ∧ s.allocated = 1 ∧ s.freed = 0
  | .copyingOut ret | .out ret =>
    ¬ faulted ∧ (ret ≠ none → s.device.rings = s.undisturbed) ∧ s.allocated = 1 ∧ s.freed = 0
  | .returned ret =>
    (faulted → s.allocated = 1 ∧ s.freed = 0) ∧
      (¬ faulted → (ret ≠ none → s.device.rings = s.undisturbed) ∧ s.freed = s.allocated ∧ s.allocated ≤ 1)

/-- A try takes no stamps, or it hands them out. -/
theorem fromAgain_cases (rings : ℕ → DioChannel) (cmd : WrDioCmd) :
    (StampCall.fromAgain rings cmd).1 = rings ∧
        ((StampCall.fromAgain rings cmd).2 = .asleep (StampCall.queue cmd) ∨
          (StampCall.fromAgain rings cmd).2 = .returned .eagain) ∨
      ∃ k ts, (StampCall.fromAgain rings cmd).2 = .returned (.stamps k ts) := by
  rw [StampCall.fromAgain_eq]
  split
  · exact .inr ⟨_, _, rfl⟩
  · split
    · exact .inl ⟨rfl, .inl rfl⟩
    · exact .inl ⟨rfl, .inr rfl⟩

/-- What a step of the command for time stamps does: it refuses the flags; or it goes on, or ends, and then it
leaves the rings alone or ends without an error. -/
theorem stampStep_cases {cmd : WrDioCmd} {call : StampCall} {a : StampAct} (ha : ∀ rings, a ≠ .others rings)
    (hs : stampStep cmd s call a = some t) :
    ∃ rings next, t = { s.setRings rings with call := next } ∧
      (call = .entered ∧ StampCall.flagsRefused cmd ∧ rings = s.device.rings ∧
          next = .copyingOut (some .einval) ∨
        ¬ (call = .entered ∧ StampCall.flagsRefused cmd) ∧
          (rings = s.device.rings ∧ (next = .stamp .again ∨ next = .stamp (.asleep (StampCall.queue cmd)) ∨
            ∃ e, next = .copyingOut (some e)) ∨ next = .copyingOut none)) := by
  rw [stampStep] at hs
  obtain ⟨u, hu, rfl⟩ := Option.map_eq_some_iff.mp hs
  refine ⟨u.rings, u.call.settle, rfl, ?_⟩
  cases a with
  | others rings => exact absurd rfl (ha rings)
  | advance =>
    cases call with
    | entered =>
      rw [StampState.step] at hu
      dsimp only at hu
      split at hu <;> rename_i hrefused <;> cases hu
      · exact .inl ⟨rfl, hrefused, rfl, rfl⟩
      · exact .inr ⟨fun h => hrefused h.2, .inl ⟨rfl, .inl rfl⟩⟩
    | again =>
      cases hu
      refine .inr ⟨fun h => (by cases h.1), ?_⟩
      obtain ⟨hrings, hcall | hcall⟩ | ⟨k, ts, hcall⟩ := fromAgain_cases s.device.rings cmd
      · exact .inl ⟨hrings, .inr (.inl (congrArg StampCall.settle hcall))⟩
      · exact .inl ⟨hrings, .inr (.inr ⟨_, congrArg StampCall.settle hcall⟩)⟩
      · exact .inr (congrArg StampCall.settle hcall)
    | _ => cases hu
  | wake =>
    cases call with
    | asleep q =>
      rw [StampState.step] at hu
      dsimp only at hu
      split at hu
      · cases hu
        exact .inr ⟨fun h => (by cases h.1), .inl ⟨rfl, .inl rfl⟩⟩
      · cases hu
    | _ => cases hu
  | signal =>
    cases call with
    | asleep q =>
      cases hu
      exact .inr ⟨fun h => (by cases h.1), .inl ⟨rfl, .inr (.inr ⟨_, rfl⟩)⟩⟩
    | _ => cases hu

theorem Books.stampStep {faulted : Prop} {cmd : WrDioCmd} {call : StampCall} {a : StampAct}
    (ha : ∀ rings, a ≠ .others rings)
    (h : ¬ faulted ∧ s.device.rings = s.undisturbed ∧ s.allocated = 1 ∧ s.freed = 0)
    (hs : stampStep cmd s call a = some t) : Books faulted t := by
  obtain ⟨hfault, hsame, hcounts⟩ := h
  obtain ⟨rings, next, rfl, ⟨-, -, rfl, rfl⟩ | ⟨-, ⟨rfl, rfl | rfl | ⟨e, rfl⟩⟩ | rfl⟩⟩ := stampStep_cases ha hs
  · exact ⟨hfault, fun _ => hsame, hcounts⟩
  · exact ⟨hfault, hsame, hcounts⟩
  · exact ⟨hfault, hsame, hcounts⟩
  · exact ⟨hfault, fun _ => hsame, hcounts⟩
  · exact ⟨hfault, fun hret => absurd rfl hret, hcounts⟩

/-- Others change the rings with and without the ioctl in the same way. -/
theorem Books.others {faulted : Prop} (h : Books faulted s) {device : IoDevice} {undisturbed : ℕ → DioChannel}
    (hrings : s.device.rings = s.undisturbed → device.rings = undisturbed) :
    Books faulted { s with device := device, undisturbed := undisturbed } := by
  rw [Books] at h ⊢
  dsimp only
  split <;> rename_i hcall <;> simp only [hcall] at h
  · exact ⟨h.1, hrings h.2.1, h.2.2⟩
  · exact ⟨h.1, hrings h.2.1, h.2.2⟩
  · exact ⟨h.1, hrings h.2.1, h.2.2⟩
  · exact ⟨h.1, hrings h.2.1, h.2.2⟩
  · exact ⟨h.1, hrings h.2.1, h.2.2⟩
  · exact ⟨h.1, fun hret => hrings (h.2.1 hret), h.2.2⟩
  · exact ⟨h.1, fun hret => hrings (h.2.1 hret), h.2.2⟩
  · exact ⟨h.1, fun hfault => ⟨fun hret => hrings ((h.2 hfault).1 hret), (h.2 hfault).2⟩⟩

theorem Books.dispatch {faulted : Prop}
    (h : ¬ faulted ∧ s.device.rings = s.undisturbed ∧ s.allocated = 1 ∧ s.freed = 0) (cmd : IoctlCmd) (now : ℕ) :
    Books faulted (s.dispatch cmd now) := by
  obtain ⟨hfault, hrings, hcounts⟩ := h
  rw [IoctlState.dispatch]
  split
  · dsimp only
    split
    · exact ⟨hfault, fun _ => hrings, hcounts⟩
    · exact ⟨hfault, fun hret => absurd rfl hret, hcounts⟩
  split
  · exact ⟨hfault, hrings, hcounts⟩
  split
  · exact ⟨hfault, fun hret => absurd rfl hret, hcounts⟩
  split
  · exact ⟨hfault, fun _ => hrings, hcounts⟩
  · exact ⟨hfault, fun _ => hrings, hcounts⟩

/-- An early return. -/
theorem Books.leave {faulted : Prop} {ret : Option Errno} {allocated freed : ℕ} (hfault : ¬ faulted)
    (hrings : ret ≠ none → s.device.rings = s.undisturbed) (hfreed : freed = allocated) (hle : allocated ≤ 1) :
    Books faulted { s with call := .returned ret, allocated := allocated, freed := freed } :=
  ⟨fun h => absurd h hfault, fun _ => ⟨hrings, hfreed, hle⟩⟩

theorem Books.go {faulted : Prop} {now : ℕ} (h : Books faulted s) (hs : s.step req (.go now) = some t) :
    Books faulted t := by
  cases hcall : s.call <;> simp only [Books, IoctlState.step, hcall] at h hs
  case entered =>
    obtain ⟨hfault, hrings, hallocated, hfreed⟩ := h
    cases hnumber : req.ioctlcmd <;> simp only [hnumber] at hs <;> cases hs
    · exact Books.leave hfault (fun _ => hrings) (hfreed.trans hallocated.symm) (by omega)
    · exact ⟨hfault, hrings, hallocated, hfreed⟩
    · exact Books.leave hfault (fun _ => hrings) (hfreed.trans hallocated.symm) (by omega)
  case dispatch =>
    cases hs
    exact Books.dispatch h req.ifrData now
  case stamp call =>
    cases call <;> exact Books.stampStep (a := .advance) (fun _ hothers => by cases hothers) (by exact h) hs
  case out ret =>
    obtain ⟨hfault, hrings, hallocated, hfreed⟩ := h
    cases hs
    exact Books.leave hfault hrings (by omega) (by omega)
  all_goals cases hs

theorem Books.step {faulted : Prop} {a : IoctlAct} (h : Books faulted s) (hs : s.step req a = some t) :
    Books (faulted ∨ a = .copyToUser false) t := by
  have hsame : a ≠ .copyToUser false → Books faulted t → Books (faulted ∨ a = .copyToUser false) t := by
    intro ha ht
    rwa [or_iff_left ha]
  cases a with
  | go now => exact hsame (by simp) (h.go hs)
  | interrupt irq =>
    cases hs
    refine hsame (by simp) (h.others fun hrings => ?_)
    rw [← hrings]
    exact s.device.wrnDioInterrupt_rings irq
  | kmalloc ok =>
    refine hsame (by simp) ?_
    cases hcall : s.call <;> simp only [Books, IoctlState.step, hcall] at h hs
    case allocating =>
      obtain ⟨hfault, hrings, hallocated, hfreed⟩ := h
      cases ok <;> cases hs
      · exact Books.leave hfault (fun _ => hrings) (hfreed.trans hallocated.symm) (by omega)
      · exact ⟨hfault, hrings, congrArg (· + 1) hallocated, hfreed⟩
    all_goals cases hs
  | copyFromUser ok =>
    refine hsame (by simp) ?_
    cases hcall : s.call <;> simp only [Books, IoctlState.step, hcall] at h hs
    case copyingIn =>
      obtain ⟨hfault, hrings, hcounts⟩ := h
      cases ok <;> cases hs
      · exact ⟨hfault, fun _ => hrings, hcounts⟩
      · exact ⟨hfault, hrings, hcounts⟩
    all_goals cases hs
  | copyToUser ok =>
    cases hcall : s.call <;> simp only [Books, IoctlState.step, hcall] at h hs
    case copyingOut ret =>
      cases ok <;> cases hs
      · exact ⟨fun _ => h.2.2, fun hfault => absurd (.inr rfl) hfault⟩
      · exact hsame (by simp) h
    all_goals cases hs
  | wake =>
    refine hsame (by simp) ?_
    cases hcall : s.call <;> simp only [Books, IoctlState.step, hcall] at h hs
    case stamp call =>
      cases call
      case asleep q => exact Books.stampStep (a := .wake) (fun _ hothers => by cases hothers) (by exact h) hs
      all_goals cases hs
    all_goals cases hs
  | signal =>
    refine hsame (by simp) ?_
    cases hcall : s.call <;> simp only [Books, IoctlState.step, hcall] at h hs
    case stamp call => exact Books.stampStep (a := .signal) (fun _ hothers => by cases hothers) h hs
    all_goals cases hs
  | other cmd =>
    refine hsame (by simp) ?_
    cases hcall : s.call <;> simp only [IoctlState.step, hcall] at hs
    case stamp call =>
      cases call <;> cases hs
      exact h.others fun hrings => by rw [setRings, hrings]
    all_goals cases hs

theorem books_run {d : IoDevice} {acts : List IoctlAct} (hrun : run (step req) (start d) acts = some s) :
    Books (.copyToUser false ∈ acts) s := by
  induction acts using List.reverseRecOn generalizing s with
  | nil =>
    cases hrun
    exact ⟨List.not_mem_nil, rfl, rfl, rfl⟩
  | append_singleton acts a ih =>
    rw [run_append] at hrun
    obtain ⟨u, hu, hrun⟩ := Option.bind_eq_some_iff.mp hrun
    rw [run_cons] at hrun
    obtain ⟨v, hv, hrun⟩ := Option.bind_eq_some_iff.mp hrun
    cases hrun
    have := (ih hu).step hv
    simpa only [List.mem_append, List.mem_singleton, eq_comm] using this

/-- An ioctl that returns an error has changed nothing and freed its buffer exactly where copy_to_user has
not failed. -/
theorem atomic_iff {d : IoDevice} {acts : List IoctlAct} (hrun : run (step req) (start d) acts = some s)
    {e : Errno} (hret : s.call = .returned (some e)) : s.Atomic ↔ .copyToUser false ∉ acts := by
  have hbooks := books_run hrun
  rw [Books, hret] at hbooks
  constructor
  · rintro ⟨-, hfreed, -⟩ hfault
    obtain ⟨hallocated, hnone⟩ := hbooks.1 hfault
    omega
  · intro hfault
    obtain ⟨hrings, hfreed, hle⟩ := hbooks.2 hfault
    exact ⟨hrings (Option.some_ne_none e), hfreed, hle⟩

/-- A command for the stamps of channel 0. -/
def stampRequest : IoctlRequest :=
  ⟨.privMezzanineCmd, ⟨⟨⟨0, 0⟩, 0, fun _ => ⟨0, 0⟩⟩, wrDioCmdStamp⟩⟩

/-- Everything up to the copy back. -/
def upToCopy : List IoctlAct :=
  [.go 0, .kmalloc true, .copyFromUser true, .go 0, .go 0, .go 0]

/-- There are no stamps. -/
theorem atomic_eagain : ∃ s,
    run (step stampRequest) (start IoDevice.start) (upToCopy ++ [.copyToUser true, .go 0]) = some s ∧
      s.call = .returned (some .eagain) ∧ s.Atomic := by
  have hrun : run (step stampRequest) (start IoDevice.start)
    (upToCopy ++ [.copyToUser true, .go 0]) = some _ := rfl
  exact ⟨_, hrun, rfl, (atomic_iff hrun rfl).mpr (by simp [upToCopy])⟩

/-- A stamp of channel 0 has come; the copy back faults, and the stamp is lost with the buffer. -/
theorem fault_loses_stamp : ∃ s, run (step stampRequest) (start IoDevice.start)
    (.interrupt ⟨1, fun _ => [⟨0, 7, 100⟩]⟩ :: upToCopy ++ [.copyToUser false]) = some s ∧
      s.call = .returned (some .efault) ∧ (s.undisturbed 0).btail = 0 ∧ (s.device.rings 0).btail = 1 ∧
      s.allocated = 1 ∧ s.freed = 0 ∧ ¬ s.Atomic := by
  refine ⟨_, rfl, rfl, rfl, rfl, rfl, rfl, fun h => ?_⟩
  exact absurd h.2.1 (by decide)

end IoctlState

end WhiteRabbit.Dio
