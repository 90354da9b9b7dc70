import WhiteRabbit.ChannelModes
import WhiteRabbit.LoopedPulses

/-!
# Legal channel modes

The commands for modes and for pulses change one register: the one replaces the bits of a channel,
the other adds the bit that selects the DIO core. The device is followed through any sequence of
these commands, of commands for time stamps and of interrupts.
-/

namespace WhiteRabbit.Dio

open BitFields StepRuns

/-- The device with its GPIO block. -/
structure IoDevice extends PulseDevice where
  gpio : ℕ

inductive IoAct where
  | inout (cmd : InoutCmd)
  | device (a : PulseAct)

namespace PulseCmd

/-- The command is not refused, and does not only set the offset of its channel. -/
def Fires (cmd : PulseCmd) : Prop := cmd.channel ≤ 4 ∧ cmd.flags &&& wrDioFPulsoff = 0

instance (cmd : PulseCmd) : Decidable cmd.Fires := inferInstanceAs (Decidable (_ ∧ _))

end PulseCmd

namespace PulseDevice

variable {d : PulseDevice}

theorem wrnDioCmdPulse_iomode (d : PulseDevice) (cmd : PulseCmd) (now : ℕ) :
    ((d.wrnDioCmdPulse cmd now).getD d).iomode =
      if cmd.Fires then d.iomode ||| 1 <<< (4 * cmd.channel) else d.iomode := by
  rw [wrnDioCmdPulse]
  by_cases hch : 4 < cmd.channel
  · have hrefused : ¬ cmd.Fires := fun h => absurd h.1 (Nat.not_le.mpr hch)
    rw [if_pos hch, if_neg hrefused]
    rfl
  rw [if_neg hch]
  by_cases hoff : cmd.flags &&& wrDioFPulsoff = 0
  · have hfires : cmd.Fires := ⟨Nat.not_lt.mp hch, hoff⟩
    rw [if_neg (not_not_intro hoff), if_pos hfires]
    dsimp only
    split
    · rfl
    · rw [Option.getD_some, wrnNewPulse_eq, setLoop]
      split <;> rfl
  · have honly : ¬ cmd.Fires := fun h => hoff h.2
    rw [if_pos hoff, if_neg honly]
    rfl

theorem channelTurn_iomode (d : PulseDevice) (ch : ℕ) (fifo : List Sample) :
    (d.channelTurn ch fifo).iomode = d.iomode := by
  rw [channelTurn]
  cases fifo.getLast? with
  | none => rfl
  | some s =>
    dsimp only
    split
    · rfl
    · rfl

theorem wrnDioInterrupt_iomode (d : PulseDevice) (irq : Interrupt) :
    (d.wrnDioInterrupt irq).iomode = d.iomode := by
  rw [wrnDioInterrupt]
  induction List.range 5 generalizing d with
  | nil => rfl
  | cons ch chs ih =>
    rw [List.foldl_cons, ih]
    split
    · exact channelTurn_iomode d ch (irq.fifo ch)
    · rfl

end PulseDevice

namespace ModeRegs

variable {r : ModeRegs}

/-- A set gives a legal source to its channels. -/
theorem LegalAt.set {j : ℕ} (h : r.LegalAt j) (ch bits : ℕ) : (r.setChannel ch bits).LegalAt j := by
  rw [setChannel_eq]
  by_cases hj : j = ch
  · subst hj
    rw [LegalAt, setMode, field_setField_self (ChannelMode.nibble_lt _)]
    rcases ChannelMode.ofBits bits with ⟨_ | _, _ | _, _ | _, _ | _⟩ <;> decide
  · rw [LegalAt, (setMode_of_ne hj _).1]
    exact h

theorem LegalAt.inout {j : ℕ} (h : r.LegalAt j) (cmd : InoutCmd) : (wrnDioCmdInout r cmd).1.LegalAt j := by
  rw [wrnDioCmdInout]
  split
  · exact h
  · dsimp only
    induction cmd.chosen generalizing r with
    | nil => exact h
    | cons ch chs ih =>
      rw [List.foldl_cons]
      exact ih (h.set ch _)

end ModeRegs

/-- What the bit of the DIO core does to a legal nibble. -/
theorem pulsed_nibble {n : ℕ} (hn : n < 2 ^ 4) (hlegal : n &&& 3 ≠ 3) :
    (n ||| 1) &&& wrDioIomodeSrcMask = 1 ∧ (n ||| 1) &&& wrDioIomodeOutputEnableN = 0 ↔
      n &&& wrDioIomodeSrcMask ≠ wrDioIomodeSrcWrpc ∧ n &&& wrDioIomodeOutputEnableN = 0 := by
  have : ∀ n : Fin 16, n.val &&& 3 ≠ 3 →
      ((n.val ||| 1) &&& wrDioIomodeSrcMask = 1 ∧ (n.val ||| 1) &&& wrDioIomodeOutputEnableN = 0 ↔
        n.val &&& wrDioIomodeSrcMask ≠ wrDioIomodeSrcWrpc ∧ n.val &&& wrDioIomodeOutputEnableN = 0) := by
    decide
  exact this ⟨n, hn⟩ hlegal

namespace IoDevice

def modes (d : IoDevice) : ModeRegs := ⟨d.iomode, d.gpio⟩

/-- Commands for the mode of a channel that the device does not have are left out. -/
def step (d : IoDevice) : IoAct → Option IoDevice
  | .inout cmd =>
    if cmd.flags &&& wrDioFMask ≠ 0 ∨ cmd.channel < 5 then
      let r := (wrnDioCmdInout d.modes cmd).1
      some { d with iomode := r.iomode, gpio := r.gpio }
    else none
  | .device a => (d.toPulseDevice.step a).map fun p => { d with toPulseDevice := p }

def Legal (d : IoDevice) : Prop := ∀ ch < 5, d.modes.LegalAt ch

/-- After a step the sources are legal; and after a pulse the channel is driven by the DIO core, its output
driver is enabled, and the other channels are as they were. -/
structure StepLegal (d : IoDevice) (a : IoAct) (d' : IoDevice) : Prop where
  legal : d'.Legal
  source : ∀ cmd now, a = .device (.pulse cmd now) → cmd.Fires →
    wrDioIomodeChDecode d'.iomode cmd.channel &&& wrDioIomodeSrcMask = 1
  enabled : ∀ cmd now, a = .device (.pulse cmd now) → cmd.Fires →
    wrDioIomodeChDecode d'.iomode cmd.channel &&& wrDioIomodeOutputEnableN = 0
  others : ∀ cmd now, a = .device (.pulse cmd now) → cmd.Fires → ∀ j, j ≠ cmd.channel →
    wrDioIomodeChDecode d'.iomode j = wrDioIomodeChDecode d.iomode j

/-- A pulse comes to a channel that is not driven by the White Rabbit core and has its output driver. -/
def PulseReady (d : IoDevice) : IoAct → Prop
  | .device (.pulse cmd _) => cmd.Fires →
    wrDioIomodeChDecode d.iomode cmd.channel &&& wrDioIomodeSrcMask ≠ wrDioIomodeSrcWrpc ∧
      wrDioIomodeChDecode d.iomode cmd.channel &&& wrDioIomodeOutputEnableN = 0
  | _ => True

instance (d : IoDevice) : ∀ a, Decidable (d.PulseReady a)
  | .device (.pulse cmd _) => inferInstanceAs (Decidable (cmd.Fires → _))
  | .device (.stamp _) => isTrue trivial
  | .device (.interrupt _) => isTrue trivial
  | .inout _ => isTrue trivial

variable {d d' : IoDevice}

theorem step_other {a : IoAct} (ha : ∀ cmd now, a ≠ .device (.pulse cmd now)) (h : d.Legal)
    (hs : d.step a = some d') : d'.Legal := by
  intro ch hch
  cases a with
  | inout cmd =>
    rw [step] at hs
    split at hs
    · cases hs
      exact (h ch hch).inout cmd
    · cases hs
  | device b =>
    obtain ⟨p, hp, rfl⟩ := Option.map_eq_some_iff.mp hs
    cases b with
    | pulse cmd now => exact absurd rfl (ha cmd now)
    | stamp cmd =>
      cases hp
      exact h ch hch
    | interrupt irq =>
      cases hp
      rw [ModeRegs.LegalAt, modes, d.wrnDioInterrupt_iomode]
      exact h ch hch

theorem step_pulse {cmd : PulseCmd} {now : ℕ} (hs : d.step (.device (.pulse cmd now)) = some d') :
    d'.iomode = if cmd.Fires then d.iomode ||| 1 <<< (4 * cmd.channel) else d.iomode := by
  rw [step] at hs
  obtain ⟨p, hp, rfl⟩ := Option.map_eq_some_iff.mp hs
  cases hp
  exact d.wrnDioCmdPulse_iomode cmd now

/-- A step is right exactly when a pulse comes to a channel that is ready for it. -/
theorem stepLegal_iff {a : IoAct} (h : d.Legal) (hs : d.step a = some d') :
    StepLegal d a d' ↔ d.PulseReady a := by
  by_cases ha : ∃ cmd now, a = .device (.pulse cmd now)
  · obtain ⟨cmd, now, rfl⟩ := ha
    have hiomode := step_pulse hs
    by_cases hfires : cmd.Fires
    · rw [if_pos hfires] at hiomode
      have hdecode : ∀ j, wrDioIomodeChDecode d'.iomode j = if j = cmd.channel then
          wrDioIomodeChDecode d.iomode cmd.channel ||| 1 else wrDioIomodeChDecode d.iomode j := by
        intro j
        rw [hiomode]
        exact field_or_shiftLeft (w := 4) (by decide) d.iomode cmd.channel j
      have hnibble := pulsed_nibble (n := wrDioIomodeChDecode d.iomode cmd.channel)
        (field_lt 4 d.iomode cmd.channel) (h cmd.channel (Nat.lt_succ_of_le hfires.1))
      constructor
      · intro hright _
        refine hnibble.mp ⟨?_, ?_⟩
        · have := hright.source cmd now rfl hfires
          rwa [hdecode, if_pos rfl] at this
        · have := hright.enabled cmd now rfl hfires
          rwa [hdecode, if_pos rfl] at this
      · intro hready
        obtain ⟨hsource, henabled⟩ := hnibble.mpr (hready hfires)
        refine ⟨fun ch hch => ?_, fun _ _ e _ => ?_, fun _ _ e _ => ?_, fun _ _ e _ j hj => ?_⟩
        · change wrDioIomodeChDecode d'.iomode ch &&& wrDioIomodeSrcMask ≠ 3
          rw [hdecode]
          split
          · rw [hsource]
            decide
          · exact h ch hch
        all_goals cases e
        · rwa [hdecode, if_pos rfl]
        · rwa [hdecode, if_pos rfl]
        · rw [hdecode, if_neg hj]
    · rw [if_neg hfires] at hiomode
      refine iff_of_true ⟨fun ch hch => ?_, fun _ _ e hf => ?_, fun _ _ e hf => ?_, fun _ _ e hf => ?_⟩
        fun hf => absurd hf hfires
      · rw [ModeRegs.LegalAt, modes, hiomode]
        exact h ch hch
      all_goals
        cases e
        exact absurd hf hfires
  · have hne : ∀ cmd now, a ≠ .device (.pulse cmd now) := fun cmd now e => ha ⟨cmd, now, e⟩
    have hready : d.PulseReady a := by
      rw [PulseReady.eq_def]
      split
      · exact absurd rfl (hne _ _)
      · trivial
    exact iff_of_true ⟨step_other hne h hs, fun cmd now e => absurd e (hne cmd now),
      fun cmd now e => absurd e (hne cmd now), fun cmd now e => absurd e (hne cmd now)⟩ hready

/-- Along any sequence of commands the modes stay legal, and pulses enable what they fire, exactly when every
pulse comes to a channel that is ready for it. -/
theorem modesLegal_iff (h : d.Legal) (acts : List IoAct) :
    (∀ pre a t u, pre ++ [a] <+: acts → run step d pre = some t → t.step a = some u → StepLegal t a u) ↔
      Obeys step PulseReady d acts := by
  refine steps_iff_obeys (I := Legal) (fun hI hs => ?_) ?_ h acts
  · exact ⟨stepLegal_iff hI hs, StepLegal.legal⟩
  · intro t a hnone
    cases a with
    | inout cmd => trivial
    | device b => cases b <;> cases hnone

/-- The device as it comes up: all channels are GPIO outputs that are low. -/
def start : IoDevice := { PulseDevice.start with gpio := 0 }

/-- A command that fires a pulse at once. -/
def pulseNow (ch : ℕ) : PulseCmd := ⟨⟨ch, wrDioFNow⟩, 0, fun _ => ⟨0, 0⟩⟩

/-- Channel 1 becomes an output of the DIO core, and fires. -/
theorem modesLegal_dio : start.Legal ∧ ∀ pre a t u,
    pre ++ [a] <+: [.inout ⟨⟨1, 0⟩, 0x00010001⟩, .device (.pulse (pulseNow 1) 0)] →
      run step start pre = some t → t.step a = some u → StepLegal t a u := by
  have hstart : start.Legal := by unfold Legal ModeRegs.LegalAt; decide
  exact ⟨hstart, (modesLegal_iff hstart _).mpr (by decide)⟩

/-- Channel 0 becomes an output of the White Rabbit core; a pulse makes its source 3. -/
theorem wrpc_pulsed : (¬ ∀ pre a t u,
    pre ++ [a] <+: [.inout ⟨⟨0, 0⟩, 0x00010101⟩, .device (.pulse (pulseNow 0) 0)] →
      run step start pre = some t → t.step a = some u → StepLegal t a u) ∧
    (run step start [.inout ⟨⟨0, 0⟩, 0x00010101⟩, .device (.pulse (pulseNow 0) 0)]).map
      (fun d => wrDioIomodeChDecode d.iomode 0) = some 3 := by
  refine ⟨fun h => ?_, by decide⟩
  have hlegal := (h [_] _ _ _ ⟨[], rfl⟩ rfl rfl).legal 0 (by decide)
  exact absurd hlegal (by unfold ModeRegs.LegalAt; decide)

end IoDevice

end WhiteRabbit.Dio
