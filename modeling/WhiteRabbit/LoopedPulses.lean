import Mathlib.Tactic.Ring
import WhiteRabbit.DioTimestamps

/-!
# Looped pulses

A pulse command may ask for a number of pulses with a fixed delay between them. The first one
is programmed by the command, and each of the others by the interrupt that collects the time
stamp of the one before.
-/

namespace WhiteRabbit.Dio
open StepRuns

def wrDioFNow : ℕ := 0x01
def wrDioFRel : ℕ := 0x02
def wrDioFLoop : ℕ := 0x08
def wrDioFPulsoff : ℕ := 0x40

/-- The value a register of 32 bits gets. -/
def u32 (x : ℤ) : ℕ := (x % 2 ^ 32).toNat

def toInt32 (value : ℕ) : ℤ := if value < 2 ^ 31 then value else value - 2 ^ 32

namespace Timespec

/-- `timespec64_add`. -/
def add (s t : Timespec) : Timespec := setNormalizedTimespec (s.tvSec + t.tvSec) (s.tvNsec + t.tvNsec)

def nanos (t : Timespec) : ℤ := t.tvSec * 1000000000 + t.tvNsec

theorem nanos_setNormalized (sec nsec : ℤ) :
    (setNormalizedTimespec sec nsec).nanos = sec * 1000000000 + nsec := by
  rw [nanos, setNormalizedTimespec]
  dsimp only
  omega

@[simp] theorem nanos_add (s t : Timespec) : (s.add t).nanos = s.nanos + t.nanos := by
  rw [add, nanos_setNormalized, nanos, nanos]
  omega

end Timespec

/-- Instead of timespec_sub, just subtract the nanos. -/
def wrnTsSub (ts : Timespec) (nano : ℤ) : Timespec := setNormalizedTimespec ts.tvSec (ts.tvNsec - nano)

/-- What the input event of a channel may fire. -/
structure PulseChannel where
  prevts : Timespec
  delay : Timespec
  count : ℤ
  targetChannel : ℕ

structure PulseCmd extends WrDioCmd where
  value : ℕ
  t : ℕ → Timespec

/-- The start of a pulse; a relative one is added to the current second. -/
def PulseCmd.start (cmd : PulseCmd) (now : ℕ) : Timespec :=
  if cmd.flags &&& wrDioFRel ≠ 0 then { cmd.t 0 with tvSec := (cmd.t 0).tvSec + now } else cmd.t 0

/-- The registers that program a pulse. -/
structure PulseRegs where
  channel : ℕ
  cycle : ℕ
  trigH : ℕ
  trigL : ℕ
  deriving DecidableEq

/-- The device: its rings, its channels, the offsets for diagnostics and the registers. The pulses
programmed and those fired at once are kept as history. -/
structure PulseDevice where
  rings : ℕ → DioChannel
  ch : ℕ → PulseChannel
  pulseOffsets : ℕ → ℤ
  iomode : ℕ
  width : ℕ → ℕ
  fired : List ℕ
  programmed : List PulseRegs

/-- One interrupt: the status register, and the samples found for each channel. -/
structure Interrupt where
  mask : ℕ
  fifo : ℕ → List Sample

inductive PulseAct where
  | pulse (cmd : PulseCmd) (now : ℕ)
  | stamp (cmd : WrDioCmd)
  | interrupt (irq : Interrupt)

namespace PulseDevice

/-- `__wrn_new_pulse`, up to the diagnostics. -/
def wrnNewPulse (d : PulseDevice) (ch : ℕ) (ts : Timespec) : PulseDevice :=
  let ts := setNormalizedTimespec ts.tvSec (ts.tvNsec + d.pulseOffsets ch)
  -- one cycle, to account for output latencies
  let ts := wrnTsSub ts 8
  { d with programmed := d.programmed ++
      [⟨ch, u32 (ts.tvNsec.tdiv 8), u32 (ts.tvSec / 2 ^ 32), u32 ts.tvSec⟩] }

/-- A channel that is set up to loop. The count is used after the pulse, so the first is removed. -/
def loopChannel (cmd : PulseCmd) (ts : Timespec) : PulseChannel where
  targetChannel := cmd.channel
  count := toInt32 (if 0 < cmd.value then cmd.value - 1 else cmd.value)
  prevts := ts
  delay := cmd.t 2

def setLoop (d : PulseDevice) (cmd : PulseCmd) (ts : Timespec) : PulseDevice :=
  if cmd.flags &&& wrDioFLoop ≠ 0 then { d with ch := Function.update d.ch cmd.channel (loopChannel cmd ts) }
  else d

/-- `wrn_dio_cmd_pulse`; nothing stands for `-EINVAL`. -/
def wrnDioCmdPulse (d : PulseDevice) (cmd : PulseCmd) (now : ℕ) : Option PulseDevice :=
  let ch := cmd.channel
  if 4 < ch then none
  else if cmd.flags &&& wrDioFPulsoff ≠ 0 then
    some { d with pulseOffsets := Function.update d.pulseOffsets ch (toInt32 cmd.value) }
  else
    let d := { d with
      iomode := d.iomode ||| 1 <<< (4 * ch)
      width := Function.update d.width ch (u32 ((cmd.t 1).tvNsec.tdiv 8)) }
    if cmd.flags &&& wrDioFNow ≠ 0 then some { d with fired := d.fired ++ [ch] }
    else some ((d.setLoop cmd (cmd.start now)).wrnNewPulse ch (cmd.start now))

/-- The time of the next pulse of a channel, and the channel after it. -/
def nextTime (c : PulseChannel) (ch : ℕ) (ts : Timespec) : PulseChannel × Timespec :=
  if c.targetChannel = ch then ({ c with prevts := c.prevts.add c.delay }, c.prevts.add c.delay)
  else (c, ts.add c.delay)

/-- If the count is not infinite, decrement it. -/
def countDown (c : PulseChannel) : PulseChannel :=
  if 0 < c.count then { c with count := c.count - 1 } else c

/-- `wrn_trig_next_pulse`. -/
def wrnTrigNextPulse (d : PulseDevice) (ch : ℕ) (ts : Timespec) : PulseDevice :=
  let (c, newts) := nextTime (d.ch ch) ch ts
  let d := wrnNewPulse { d with ch := Function.update d.ch ch c } c.targetChannel newts
  { d with ch := Function.update d.ch ch (countDown (d.ch ch)) }

/-- The turn of `wrn_dio_interrupt` for one channel: the last sample that was drained may
trigger a pulse. -/
def channelTurn (d : PulseDevice) (ch : ℕ) (fifo : List Sample) : PulseDevice :=
  let d := { d with rings := Function.update d.rings ch (fifo.foldl DioChannel.pull (d.rings ch)) }
  match fifo.getLast? with
  | none => d
  | some s => if (d.ch ch).count ≠ 0 then d.wrnTrigNextPulse ch s.stamp else d

/-- `wrn_dio_interrupt`. -/
def wrnDioInterrupt (d : PulseDevice) (irq : Interrupt) : PulseDevice :=
  (List.range 5).foldl (fun d ch => if irq.mask.testBit ch then d.channelTurn ch (irq.fifo ch) else d) d

def step (d : PulseDevice) : PulseAct → Option PulseDevice
  | .pulse cmd now => some ((d.wrnDioCmdPulse cmd now).getD d)
  | .stamp cmd => some { d with rings := (DioDevice.wrnDioCmdStamp d.rings cmd).1 }
  | .interrupt irq => some (d.wrnDioInterrupt irq)

def start : PulseDevice where
  rings := DioDevice.start.ch
  ch := fun _ => ⟨⟨0, 0⟩, ⟨0, 0⟩, 0, 0⟩
  pulseOffsets := fun _ => 0
  iomode := 0
  width := fun _ => 0
  fired := []
  programmed := []

/-- The pulses programmed for a channel. -/
def pulsesOf (d : PulseDevice) (ch : ℕ) : List PulseRegs := d.programmed.filter fun p => p.channel == ch

/-- The registers for a pulse at a time in nanoseconds. -/
def pulseAt (ch : ℕ) (nanos : ℤ) : PulseRegs :=
  ⟨ch, u32 (nanos % 1000000000 / 8), u32 (nanos / 1000000000 / 2 ^ 32), u32 (nanos / 1000000000)⟩

variable {d : PulseDevice}

theorem wrnNewPulse_eq (d : PulseDevice) (ch : ℕ) (ts : Timespec) : d.wrnNewPulse ch ts =
    { d with programmed := d.programmed ++ [pulseAt ch (ts.nanos + d.pulseOffsets ch - 8)] } := by
  have hts : ∀ x : ℤ, wrnTsSub (setNormalizedTimespec ts.tvSec (ts.tvNsec + x)) 8 =
      ⟨(ts.nanos + x - 8) / 1000000000, (ts.nanos + x - 8) % 1000000000⟩ := by
    intro x
    rw [wrnTsSub, setNormalizedTimespec, setNormalizedTimespec, Timespec.nanos, Timespec.mk.injEq]
    dsimp only
    omega
  have hdiv : ∀ x : ℤ, (x % 1000000000).tdiv 8 = x % 1000000000 / 8 := fun x =>
    Int.tdiv_eq_ediv_of_nonneg (Int.emod_nonneg x (by decide))
  simp only [wrnNewPulse, hts, hdiv, pulseAt]

/-- A channel that still counts fires itself. -/
def OwnTargets (d : PulseDevice) : Prop := ∀ k, (d.ch k).count ≠ 0 → (d.ch k).targetChannel = k

/-- A channel that fires itself moves its setpoint by the delay. -/
def advance (c : PulseChannel) : PulseChannel := countDown { c with prevts := c.prevts.add c.delay }

def nextPulse (d : PulseDevice) (ch : ℕ) : PulseDevice :=
  { d with
    ch := Function.update d.ch ch (advance (d.ch ch))
    programmed := d.programmed ++
      [pulseAt ch ((d.ch ch).prevts.nanos + (d.ch ch).delay.nanos + d.pulseOffsets ch - 8)] }

@[simp] theorem advance_target (c : PulseChannel) : (advance c).targetChannel = c.targetChannel := by
  rw [advance, countDown]
  split <;> rfl

@[simp] theorem advance_delay (c : PulseChannel) : (advance c).delay = c.delay := by
  rw [advance, countDown]
  split <;> rfl

@[simp] theorem advance_setpoint (c : PulseChannel) :
    (advance c).prevts.nanos = c.prevts.nanos + c.delay.nanos := by
  rw [advance, countDown]
  split <;> exact Timespec.nanos_add c.prevts c.delay

theorem advance_count {c : PulseChannel} (h : 0 < c.count) : (advance c).count = c.count - 1 := by
  rw [advance, countDown, if_pos h]

theorem wrnTrigNextPulse_own {ch : ℕ} (h : (d.ch ch).targetChannel = ch) (ts : Timespec) :
    d.wrnTrigNextPulse ch ts = d.nextPulse ch := by
  have hnext : nextTime (d.ch ch) ch ts = ({ d.ch ch with prevts := (d.ch ch).prevts.add (d.ch ch).delay },
      (d.ch ch).prevts.add (d.ch ch).delay) := if_pos h
  simp only [wrnTrigNextPulse, hnext, wrnNewPulse_eq, h, Function.update_self, Function.update_idem,
    Timespec.nanos_add, nextPulse, advance]

/-- What the turn of a channel does. -/
theorem channelTurn_eq (h : d.OwnTargets) (ch : ℕ) (fifo : List Sample) :
    ∃ rings, d.channelTurn ch fifo =
      if fifo ≠ [] ∧ (d.ch ch).count ≠ 0 then nextPulse { d with rings := rings } ch
      else { d with rings := rings } := by
  refine ⟨Function.update d.rings ch (fifo.foldl DioChannel.pull (d.rings ch)), ?_⟩
  rw [channelTurn]
  cases hlast : fifo.getLast? with
  | none =>
    rw [List.getLast?_eq_none_iff] at hlast
    rw [if_neg fun hc => hc.1 hlast]
  | some s =>
    have hne : fifo ≠ [] := by
      rintro rfl
      simp at hlast
    dsimp only
    by_cases hcount : (d.ch ch).count ≠ 0
    · rw [if_pos hcount, if_pos ⟨hne, hcount⟩]
      apply wrnTrigNextPulse_own
      exact h ch hcount
    · rw [if_neg hcount, if_neg fun hc => hcount hc.2]

theorem OwnTargets.next (h : d.OwnTargets) {ch : ℕ} (hc : (d.ch ch).count ≠ 0) : (d.nextPulse ch).OwnTargets := by
  intro k hk
  rw [nextPulse] at hk ⊢
  by_cases hkc : k = ch
  · subst hkc
    simpa using h k hc
  · simp only [Function.update_of_ne hkc] at hk ⊢
    exact h k hk

theorem OwnTargets.turn (h : d.OwnTargets) (ch : ℕ) (fifo : List Sample) :
    (d.channelTurn ch fifo).OwnTargets := by
  obtain ⟨rings, hturn⟩ := channelTurn_eq h ch fifo
  rw [hturn]
  split
  · rename_i hc
    exact OwnTargets.next h hc.2
  · exact h

theorem OwnTargets.interrupt (h : d.OwnTargets) (irq : Interrupt) : (d.wrnDioInterrupt irq).OwnTargets := by
  rw [wrnDioInterrupt]
  induction List.range 5 generalizing d with
  | nil => exact h
  | cons ch chs ih =>
    rw [List.foldl_cons]
    split
    · exact ih (h.turn ch _)
    · exact ih h

theorem OwnTargets.step {d' : PulseDevice} {a : PulseAct} (h : d.OwnTargets) (hs : d.step a = some d') :
    d'.OwnTargets := by
  cases a with
  | pulse cmd now =>
    cases hs
    rw [wrnDioCmdPulse]
    split
    · exact h
    split
    · exact h
    dsimp only
    split
    · exact h
    rw [Option.getD_some, wrnNewPulse_eq, setLoop]
    split
    · intro k hk
      by_cases hkc : k = cmd.channel
      · subst hkc
        simp [loopChannel]
      · simp only [Function.update_of_ne hkc] at hk ⊢
        exact h k hk
    · exact h
  | stamp cmd =>
    cases hs
    exact h
  | interrupt irq =>
    cases hs
    exact h.interrupt irq

theorem start_ownTargets : start.OwnTargets := fun _ hk => absurd rfl hk

/-- Whether an interrupt drains a stamp of a channel. -/
def drains (ch : ℕ) (irq : Interrupt) : Bool := irq.mask.testBit ch && !(irq.fifo ch).isEmpty

/-- A loop as it was asked for: the number of pulses, the start, the delay and the offset. -/
structure LoopPlan where
  ch : ℕ
  count : ℕ
  first : ℤ
  delay : ℤ
  offset : ℤ

/-- The pulse number `k`. -/
def LoopPlan.pulse (p : LoopPlan) (k : ℕ) : PulseRegs := pulseAt p.ch (p.first + k * p.delay + p.offset - 8)

/-- The first `k` pulses of a loop are programmed; `before` are those programmed earlier. -/
structure Looping (p : LoopPlan) (before : List PulseRegs) (k : ℕ) (d : PulseDevice) : Prop where
  own : d.OwnTargets
  offset : d.pulseOffsets p.ch = p.offset
  delay : (d.ch p.ch).delay.nanos = p.delay
  setpoint : (d.ch p.ch).prevts.nanos + p.delay = p.first + k * p.delay
  count : (d.ch p.ch).count = p.count - k
  le : k ≤ p.count
  pulses : d.pulsesOf p.ch = before ++ (List.range k).map p.pulse

variable {p : LoopPlan} {before : List PulseRegs} {k : ℕ}

/-- The turn of another channel leaves a loop as it is. -/
theorem Looping.turn_other (h : Looping p before k d) {ch : ℕ} (hch : ch ≠ p.ch) (fifo : List Sample) :
    Looping p before k (d.channelTurn ch fifo) := by
  obtain ⟨rings, hturn⟩ := channelTurn_eq h.own ch fifo
  have hown := h.own.turn ch fifo
  rw [hturn] at hown ⊢
  split at hown
  · rename_i hc
    rw [if_pos hc]
    refine ⟨hown, h.offset, ?_, ?_, ?_, h.le, ?_⟩
    · simpa [nextPulse, Function.update_of_ne hch.symm] using h.delay
    · simpa [nextPulse, Function.update_of_ne hch.symm] using h.setpoint
    · simpa [nextPulse, Function.update_of_ne hch.symm] using h.count
    · simpa [nextPulse, pulsesOf, pulseAt, hch] using h.pulses
  · rename_i hc
    rw [if_neg hc]
    exact ⟨hown, h.offset, h.delay, h.setpoint, h.count, h.le, h.pulses⟩

/-- The turn of the channel itself programs the next pulse, if there is one left. -/
theorem Looping.turn_own (h : Looping p before k d) (fifo : List Sample) :
    Looping p before (if fifo = [] then k else min p.count (k + 1)) (d.channelTurn p.ch fifo) := by
  obtain ⟨rings, hturn⟩ := channelTurn_eq h.own p.ch fifo
  have hown := h.own.turn p.ch fifo
  have hcount := h.count
  have hle := h.le
  rw [hturn] at hown ⊢
  split at hown
  · rename_i hc
    have hpos : 0 < (d.ch p.ch).count := by omega
    have hk : min p.count (k + 1) = k + 1 := by omega
    rw [if_pos hc, if_neg hc.1, hk]
    refine ⟨hown, h.offset, ?_, ?_, ?_, by omega, ?_⟩
    · simpa [nextPulse] using h.delay
    · have hsetpoint := h.setpoint
      simp only [nextPulse, Function.update_self, advance_setpoint, h.delay]
      push_cast
      rw [hsetpoint]
      ring
    · simp only [nextPulse, Function.update_self, advance_count hpos, hcount]
      push_cast
      ring
    · have hpulse : pulseAt p.ch ((d.ch p.ch).prevts.nanos + (d.ch p.ch).delay.nanos + d.pulseOffsets p.ch - 8) =
          p.pulse k := by rw [h.delay, h.setpoint, h.offset, LoopPlan.pulse]
      have hpulses := h.pulses
      rw [pulsesOf] at hpulses
      have hself : ((p.pulse k).channel == p.ch) = true := beq_self_eq_true p.ch
      simp only [pulsesOf, nextPulse, hpulse, List.filter_append, hpulses, List.range_succ, List.map_append,
        List.append_assoc, List.map_singleton, List.filter_singleton, hself, cond_true]
  · rename_i hc
    have hsame : (if fifo = [] then k else min p.count (k + 1)) = k := by
      split
      · rfl
      · rename_i hne
        have hzero : (d.ch p.ch).count = 0 := by
          by_contra hcount
          exact hc ⟨hne, hcount⟩
        omega
    rw [if_neg hc, hsame]
    exact ⟨hown, h.offset, h.delay, h.setpoint, h.count, h.le, h.pulses⟩

theorem Looping.turns_other (h : Looping p before k d) (irq : Interrupt) {chs : List ℕ} (hchs : p.ch ∉ chs) :
    Looping p before k
      (chs.foldl (fun d ch => if irq.mask.testBit ch then d.channelTurn ch (irq.fifo ch) else d) d) := by
  induction chs generalizing d with
  | nil => exact h
  | cons ch chs ih =>
    rw [List.mem_cons, not_or] at hchs
    rw [List.foldl_cons]
    split
    · exact ih (h.turn_other (Ne.symm hchs.1) _) hchs.2
    · exact ih h hchs.2

/-- One interrupt programs the next pulse when it drains a stamp of the channel. -/
theorem Looping.interrupt (h : Looping p before k d) (hch : p.ch < 5) (irq : Interrupt) :
    Looping p before (if drains p.ch irq then min p.count (k + 1) else k) (d.wrnDioInterrupt irq) := by
  obtain ⟨pre, post, hsplit⟩ := List.append_of_mem (List.mem_range.mpr hch)
  have hnodup := List.nodup_range (n := 5)
  rw [hsplit, List.nodup_middle, List.nodup_cons, List.mem_append, not_or] at hnodup
  have hpre := h.turns_other irq hnodup.1.1
  rw [wrnDioInterrupt, hsplit, List.foldl_append, List.foldl_cons]
  by_cases hbit : irq.mask.testBit p.ch = true
  · have hturn := (hpre.turn_own (irq.fifo p.ch)).turns_other irq hnodup.1.2
    have hdrains : drains p.ch irq = !(irq.fifo p.ch).isEmpty := by rw [drains, hbit, Bool.true_and]
    rw [if_pos hbit, hdrains]
    cases hfifo : irq.fifo p.ch with
    | nil => simpa [hfifo] using hturn
    | cons s fifo => simpa [hfifo] using hturn
  · have hdrains : drains p.ch irq = false := by simp [drains, hbit]
    rw [if_neg hbit, hdrains]
    exact hpre.turns_other irq hnodup.1.2

theorem Looping.interrupts (h : Looping p before k d) (hch : p.ch < 5) (irqs : List Interrupt) :
    Looping p before (min p.count (k + irqs.countP (drains p.ch))) (irqs.foldl wrnDioInterrupt d) := by
  induction irqs generalizing d k with
  | nil =>
    have hk : min p.count (k + 0) = k := by
      have hle := h.le
      omega
    rw [List.countP_nil, hk]
    exact h
  | cons irq irqs ih =>
    have hnext := ih (h.interrupt hch irq)
    have hk : min p.count ((if drains p.ch irq then min p.count (k + 1) else k) + irqs.countP (drains p.ch)) =
        min p.count (k + (irq :: irqs).countP (drains p.ch)) := by
      rw [List.countP_cons]
      split <;> omega
    rw [hk] at hnext
    exact hnext

/-- A command for a loop of a number of pulses at a given time. -/
structure LoopCmd (cmd : PulseCmd) : Prop where
  channel : cmd.channel ≤ 4
  looped : cmd.flags &&& wrDioFLoop ≠ 0
  timed : cmd.flags &&& wrDioFNow = 0
  programs : cmd.flags &&& wrDioFPulsoff = 0
  pos : 1 ≤ cmd.value
  le : cmd.value ≤ 2 ^ 31

/-- What the command asks for, with the offset of its channel. -/
def loopPlan (d : PulseDevice) (cmd : PulseCmd) (now : ℕ) : LoopPlan where
  ch := cmd.channel
  count := cmd.value
  first := (cmd.start now).nanos
  delay := (cmd.t 2).nanos
  offset := d.pulseOffsets cmd.channel

/-- The command programs the first pulse. -/
theorem LoopCmd.looping {cmd : PulseCmd} (hcmd : LoopCmd cmd) (h : d.OwnTargets) (now : ℕ) :
    ∃ d', d.step (.pulse cmd now) = some d' ∧
      Looping (d.loopPlan cmd now) (d.pulsesOf cmd.channel) 1 d' := by
  obtain ⟨d', hpulse⟩ : ∃ d', d.wrnDioCmdPulse cmd now = some d' := by
    simp [wrnDioCmdPulse, hcmd.programs, hcmd.timed, show ¬ 4 < cmd.channel from Nat.not_lt.mpr hcmd.channel]
  have hstep : d.step (.pulse cmd now) = some d' := by rw [step, hpulse, Option.getD_some]
  have hpos : 0 < cmd.value := hcmd.pos
  have hle := hcmd.le
  have hvalue : toInt32 (cmd.value - 1) = cmd.value - 1 := by
    rw [toInt32, if_pos (by omega)]
    omega
  have hown := h.step hstep
  refine ⟨d', hstep, ?_⟩
  simp only [wrnDioCmdPulse, if_neg (Nat.not_lt.mpr hcmd.channel), hcmd.programs, hcmd.timed, ne_eq, not_true_eq_false,
    if_false, setLoop, if_pos hcmd.looped, wrnNewPulse_eq, Option.some.injEq] at hpulse
  subst hpulse
  refine ⟨hown, rfl, ?_, ?_, ?_, hcmd.pos, ?_⟩
  · simp [loopChannel, loopPlan]
  · simp [loopChannel, loopPlan]
  · simp [loopChannel, loopPlan, hpos, hvalue]
  · simp [pulsesOf, loopPlan, LoopPlan.pulse, pulseAt]

/-- After any history, a loop of some pulses programs one pulse more with each interrupt that drains a
stamp of its channel, at the times asked for, until it has programmed all of them. -/
theorem looped_pulses {acts : List PulseAct} (hrun : run step start acts = some d) {cmd : PulseCmd}
    (hcmd : LoopCmd cmd) (now : ℕ) : ∃ d', d.step (.pulse cmd now) = some d' ∧
      (∀ irqs : List Interrupt, (irqs.foldl wrnDioInterrupt d').pulsesOf cmd.channel = d.pulsesOf cmd.channel ++
        (List.range (min cmd.value (irqs.countP (drains cmd.channel) + 1))).map (d.loopPlan cmd now).pulse) ∧
      ∀ irqs later : List Interrupt, cmd.value ≤ irqs.countP (drains cmd.channel) + 1 →
        ((irqs ++ later).foldl wrnDioInterrupt d').pulsesOf cmd.channel =
          d.pulsesOf cmd.channel ++ (List.range cmd.value).map (d.loopPlan cmd now).pulse := by
  have hown : d.OwnTargets := run_keeps (fun hI hs => OwnTargets.step hI hs) start_ownTargets hrun
  obtain ⟨d', hstep, hloop⟩ := hcmd.looping hown now
  have hch : (d.loopPlan cmd now).ch < 5 := Nat.lt_succ_of_le hcmd.channel
  have hpulses : ∀ irqs : List Interrupt, (irqs.foldl wrnDioInterrupt d').pulsesOf cmd.channel =
      d.pulsesOf cmd.channel ++
        (List.range (min cmd.value (irqs.countP (drains cmd.channel) + 1))).map (d.loopPlan cmd now).pulse := by
    intro irqs
    rw [Nat.add_comm]
    exact (hloop.interrupts hch irqs).pulses
  refine ⟨d', hstep, hpulses, fun irqs later hall => ?_⟩
  have hmin : min cmd.value ((irqs ++ later).countP (drains cmd.channel) + 1) = cmd.value := by
    rw [List.countP_append]
    omega
  rw [hpulses, hmin]

/-- Three pulses from 10 s and 4 ns on, each 1.5 s after the one before. -/
def threePulses : PulseCmd where
  channel := 2
  flags := wrDioFLoop
  value := 3
  t := fun i => if i = 0 then ⟨10, 4⟩ else if i = 1 then ⟨0, 1000⟩ else ⟨1, 500000000⟩

theorem looped_pulses_three : ∃ d, start.step (.pulse threePulses 0) = some d ∧
    ∀ later, (([⟨4, fun _ => [⟨0, 10, 0⟩]⟩, ⟨4, fun _ => [⟨0, 11, 7⟩, ⟨0, 11, 9⟩]⟩] ++ later).foldl wrnDioInterrupt
      d).pulsesOf 2 = [⟨2, 124999999, 0, 9⟩, ⟨2, 62499999, 0, 11⟩, ⟨2, 124999999, 0, 12⟩] := by
  have hcmd : LoopCmd threePulses := ⟨by decide, by decide, by decide, by decide, by decide, by decide⟩
  obtain ⟨d, hstep, -, hall⟩ := looped_pulses (show run step start [] = some start from rfl) hcmd 0
  refine ⟨d, hstep, fun later => ?_⟩
  have hpulses := hall [⟨4, fun _ => [⟨0, 10, 0⟩]⟩, ⟨4, fun _ => [⟨0, 11, 7⟩, ⟨0, 11, 9⟩]⟩] later (by decide)
  exact hpulses.trans (by decide)

end PulseDevice

end WhiteRabbit.Dio
