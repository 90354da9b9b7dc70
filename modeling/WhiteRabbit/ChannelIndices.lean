import WhiteRabbit.MezzanineIoctl

/-!
# Channel indices

The channel of a user command is an index into the tables of the driver and the amount of its shifts.
Three commands decode it in three ways, with a mask or without one.
-/

namespace WhiteRabbit.Dio

open StepRuns

namespace PulseCmd

theorem touches_inBounds (cmd : PulseCmd) : ∀ t ∈ cmd.touches, t.InBounds := by
  rw [touches]
  by_cases hch : 4 < cmd.channel
  · simp [hch]
  · have hle : cmd.channel ≤ 4 := Nat.not_lt.mp hch
    have hshift : cmd.channel < 32 := by omega
    have hshift4 : 4 * cmd.channel < 32 := by omega
    by_cases hoff : cmd.flags &&& wrDioFPulsoff = 0 <;> by_cases hnow : cmd.flags &&& wrDioFNow = 0 <;>
      by_cases hloop : cmd.flags &&& wrDioFLoop = 0 <;>
      simp [hch, hoff, hnow, hloop, Touch.InBounds, hle, hshift, hshift4]

end PulseCmd

namespace InoutCmd

theorem chosen_channels {cmd : InoutCmd} {ch : ℕ} (h : ch ∈ DioDevice.WrDioCmd.channels cmd.toWrDioCmd) :
    cmd.flags &&& wrDioFMask ≠ 0 ∧ ch ≤ 4 ∨ cmd.flags &&& wrDioFMask = 0 ∧ ch = cmd.channel := by
  rw [DioDevice.WrDioCmd.channels] at h
  split at h
  · rename_i hmask
    simp only [List.mem_cons, List.not_mem_nil, or_false] at h
    exact .inl ⟨hmask, by omega⟩
  · rename_i hmask
    exact .inr ⟨not_not.mp hmask, List.mem_singleton.mp h⟩

theorem channelTouches_inBounds (cmd : InoutCmd) (r : ModeRegs) {ch : ℕ} (hch : ch ≤ 7) :
    ∀ t ∈ cmd.channelTouches r ch, t.InBounds := by
  have hshift : ch < 32 := by omega
  have hshift4 : 4 * ch < 32 := by omega
  intro t ht
  rw [channelTouches, List.mem_cons] at ht
  obtain rfl | ht := ht
  · exact hshift
  split at ht
  · cases ht
  have hall : t = .register ∨ t = .shift ch 32 ∨ t = .shift (4 * ch) 32 := by
    split at ht <;> simp only [List.mem_append, List.mem_cons, List.not_mem_nil, or_false] at ht <;> grind
  obtain rfl | rfl | rfl := hall
  · trivial
  · exact hshift
  · exact hshift4

/-- Up to channel 7 the shifts stay in the width of the register. -/
theorem touches_inBounds {cmd : InoutCmd} (h : cmd.flags &&& wrDioFMask ≠ 0 ∨ cmd.channel ≤ 7) (r : ModeRegs) :
    ∀ t ∈ cmd.touches r, t.InBounds := by
  have hchannels : ∀ ch ∈ DioDevice.WrDioCmd.channels cmd.toWrDioCmd, ch ≤ 7 := by
    intro ch hch
    obtain ⟨-, hle⟩ | ⟨hmask, rfl⟩ := chosen_channels hch
    · omega
    · exact h.resolve_left (not_not_intro hmask)
  intro t ht
  rw [touches, List.mem_append, List.mem_append, List.mem_flatMap] at ht
  obtain (ht | ht) | ⟨ch, hch, ht⟩ := ht
  · split at ht
    · cases ht
    · rename_i hmask
      obtain rfl := List.mem_singleton.mp ht
      have := h.resolve_left hmask
      exact Nat.lt_of_le_of_lt this (by decide)
  · split at ht
    · obtain rfl := List.mem_singleton.mp ht
      trivial
    · cases ht
  · exact cmd.channelTouches_inBounds r (hchannels ch hch) t ht

end InoutCmd

namespace StampCall

theorem loopTouches_inBounds (rings : ℕ → DioChannel) (mask : ℕ) {rounds ch : ℕ} (h : ch + rounds ≤ 5) :
    ∀ t ∈ loopTouches rings mask rounds ch ch, t.InBounds := by
  induction rounds generalizing ch with
  | zero => exact fun t ht => absurd ht List.not_mem_nil
  | succ rounds ih =>
    have hrest := @ih (ch + 1) (by omega)
    have hle : ch ≤ 4 := by omega
    intro t ht
    rw [loopTouches, List.mem_cons] at ht
    obtain rfl | ht := ht
    · exact Nat.lt_of_le_of_lt hle (by decide)
    split at ht
    · exact hrest t ht
    rw [List.mem_cons, List.mem_cons] at ht
    obtain rfl | rfl | ht := ht
    · exact hle
    · exact hle
    split at ht
    · exact hrest t ht
    · cases ht

theorem queue_le {cmd : WrDioCmd} (h : cmd.flags &&& wrDioFMask ≠ 0 ∨ cmd.channel ≤ 4) : queue cmd ≤ 4 := by
  rw [queue]
  split
  · exact le_rfl
  · exact h.resolve_left (by assumption)

/-- A mask, or a channel that the device has. -/
theorem againTouches_inBounds {cmd : WrDioCmd} (h : cmd.flags &&& wrDioFMask ≠ 0 ∨ cmd.channel ≤ 4)
    (rings : ℕ → DioChannel) : ∀ t ∈ againTouches rings cmd, t.InBounds := by
  intro t ht
  rw [againTouches, List.mem_append, List.mem_append] at ht
  obtain (ht | ht) | ht := ht
  · split at ht
    · cases ht
    · rename_i hmask
      obtain rfl := List.mem_singleton.mp ht
      exact Nat.lt_of_le_of_lt (h.resolve_left hmask) (by decide)
  · by_cases hmask : cmd.flags &&& wrDioFMask ≠ 0
    · simp only [if_pos hmask] at ht
      exact loopTouches_inBounds rings cmd.channel (by decide) t ht
    · simp only [if_neg hmask] at ht
      have hle := h.resolve_left hmask
      exact loopTouches_inBounds rings _ (by omega) t ht
  · split at ht
    · rename_i q hq
      obtain rfl := List.mem_singleton.mp ht
      obtain rfl : q = queue cmd := fromAgain_asleep (Prod.ext rfl hq)
      exact queue_le h
    · cases ht

end StampCall

namespace IoctlCmd

/-- The command would leave the tables, or shift by too much. -/
def OutOfRange (cmd : IoctlCmd) : Prop :=
  cmd.command = wrDioCmdPulse ∧ 4 < cmd.channel ∨
    cmd.flags &&& wrDioFMask = 0 ∧
      (cmd.command = wrDioCmdStamp ∧ 4 < cmd.channel ∨ cmd.command = wrDioCmdInout ∧ 7 < cmd.channel)

/-- The command has a single channel, out of range, that nothing refuses. -/
def Unchecked (cmd : IoctlCmd) : Prop :=
  cmd.flags &&& wrDioFMask = 0 ∧
    (cmd.command = wrDioCmdStamp ∧ 4 < cmd.channel ∧ cmd.flags.testBit 0 = false ∨
      cmd.command = wrDioCmdInout ∧ 7 < cmd.channel)

variable {cmd : IoctlCmd}

theorem outOfRange_pulse (h : cmd.command = wrDioCmdPulse) : cmd.OutOfRange ↔ 4 < cmd.channel := by
  simp [OutOfRange, h, wrDioCmdPulse, wrDioCmdStamp, wrDioCmdInout]

theorem outOfRange_stamp (h : cmd.command = wrDioCmdStamp) :
    cmd.OutOfRange ↔ cmd.flags &&& wrDioFMask = 0 ∧ 4 < cmd.channel := by
  simp [OutOfRange, h, wrDioCmdPulse, wrDioCmdStamp, wrDioCmdInout]

theorem outOfRange_inout (h : cmd.command = wrDioCmdInout) :
    cmd.OutOfRange ↔ cmd.flags &&& wrDioFMask = 0 ∧ 7 < cmd.channel := by
  simp [OutOfRange, h, wrDioCmdPulse, wrDioCmdStamp, wrDioCmdInout]

end IoctlCmd

namespace IoctlState

variable {cmd : IoctlCmd} {s t : IoctlState}

/-- Whatever happens, the command uses its channel in bounds; and if that cannot be, it is refused before it
touches anything. -/
structure ChannelsValidated (cmd : IoctlCmd) : Prop where
  inBounds : ∀ d acts s, run (step ⟨.privMezzanineCmd, cmd⟩) (start d) acts = some s → ∀ t ∈ s.touched, t.InBounds
  refused : cmd.OutOfRange → ∀ d acts s, run (step ⟨.privMezzanineCmd, cmd⟩) (start d) acts = some s →
    s.touched = [] ∧ ∀ ret, s.call = .returned ret → ret ≠ none

/-- The call is about to return something. -/
def Ends (call : IoctlCall) (ret : Option Errno) : Prop :=
  call = .copyingOut ret ∨ call = .out ret ∨ call = .returned ret

/-- A command as it goes on its way. -/
structure Guarded (cmd : IoctlCmd) (s : IoctlState) : Prop where
  inBounds : ∀ t ∈ s.touched, t.InBounds
  stamp : ∀ call, s.call = .stamp call → cmd.command = wrDioCmdStamp ∧
    (call = .entered ∨ ¬ StampCall.flagsRefused cmd.toWrDioCmd)
  asleep : ∀ q, s.call = .stamp (.asleep q) → q = StampCall.queue cmd.toWrDioCmd
  refused : cmd.OutOfRange → s.touched = [] ∧ ∀ ret, Ends s.call ret → ret ≠ none

theorem start_guarded (cmd : IoctlCmd) (d : IoDevice) : Guarded cmd (start d) where
  inBounds := fun t ht => absurd ht List.not_mem_nil
  stamp := fun _ h => by cases h
  asleep := fun _ h => by cases h
  refused := fun _ => ⟨rfl, fun ret h => by obtain h | h | h := h <;> cases h⟩

/-- A command for time stamps whose flags are not refused has a mask, or a channel of the device. -/
theorem single_le (hcmd : ¬ cmd.Unchecked) (hstamp : cmd.command = wrDioCmdStamp)
    (hrefused : ¬ StampCall.flagsRefused cmd.toWrDioCmd) : cmd.flags &&& wrDioFMask ≠ 0 ∨ cmd.channel ≤ 4 := by
  rw [StampCall.flagsRefused_iff, Bool.not_eq_true] at hrefused
  by_contra hout
  rw [not_or, not_not, Nat.not_le] at hout
  exact hcmd ⟨hout.1, .inl ⟨hstamp, hout.2, hrefused⟩⟩

theorem in_range (hcmd : ¬ cmd.Unchecked) (hstamp : cmd.command = wrDioCmdStamp)
    (hrefused : ¬ StampCall.flagsRefused cmd.toWrDioCmd) : ¬ cmd.OutOfRange := by
  rw [IoctlCmd.outOfRange_stamp hstamp]
  rintro ⟨hmask, hch⟩
  exact absurd ((single_le hcmd hstamp hrefused).resolve_left (not_not_intro hmask)) (Nat.not_le.mpr hch)

theorem Guarded.stampStep {call : StampCall} {a : StampAct} {extra : List Touch} (hcmd : ¬ cmd.Unchecked)
    (h : Guarded cmd s) (hcall : s.call = .stamp call) (ha : ∀ rings, a ≠ .others rings)
    (hextra : ∀ t ∈ extra, t.InBounds) (hentered : call = .entered → extra = [])
    (hs : IoctlState.stampStep cmd.toWrDioCmd { s with touched := s.touched ++ extra } call a = some t) :
    Guarded cmd t := by
  have hall : ∀ t ∈ s.touched ++ extra, t.InBounds := fun t ht =>
    (List.mem_append.mp ht).elim (h.inBounds t) (hextra t)
  obtain ⟨hstamp, hguard⟩ := h.stamp call hcall
  obtain ⟨rings, next, rfl, ⟨rfl, -, -, rfl⟩ | ⟨hnot, hnext⟩⟩ := stampStep_cases ha hs
  · refine ⟨hall, fun _ hnext => (by cases hnext), fun _ hnext => (by cases hnext),
      fun hout => ⟨?_, fun ret hret => ?_⟩⟩
    · change s.touched ++ extra = []
      rw [(h.refused hout).1, hentered rfl, List.append_nil]
    · obtain hret | hret | hret := hret <;> cases hret
      exact Option.some_ne_none _
  · have hrefused : ¬ StampCall.flagsRefused cmd.toWrDioCmd :=
      fun hr => hnot ⟨hguard.resolve_right (not_not_intro hr), hr⟩
    refine ⟨hall, fun _ _ => ⟨hstamp, .inr hrefused⟩, fun q hq => ?_,
      fun hout => absurd hout (in_range hcmd hstamp hrefused)⟩
    obtain ⟨-, rfl | rfl | ⟨e, rfl⟩⟩ | rfl := hnext <;> cases hq
    rfl

/-- The call goes on to another place, with what it is about to return. -/
theorem Guarded.move (h : Guarded cmd s) {device : IoDevice} {undisturbed : ℕ → DioChannel} {next : IoctlCall}
    {allocated freed : ℕ} (hstamp : ∀ call, next ≠ .stamp call)
    (hret : ∀ ret, Ends next ret → Ends s.call ret ∨ ret ≠ none) :
    Guarded cmd ⟨device, undisturbed, next, allocated, freed, s.touched⟩ := by
  refine ⟨h.inBounds, fun call hcall => absurd hcall (hstamp call), fun q hq => absurd hq (hstamp _),
    fun hout => ?_⟩
  obtain ⟨htouched, hends⟩ := h.refused hout
  exact ⟨htouched, fun ret h => (hret ret h).elim (hends ret) id⟩

theorem Guarded.dispatch (hcmd : ¬ cmd.Unchecked) (h : Guarded cmd s) (now : ℕ) : Guarded cmd (s.dispatch cmd now) := by
  rw [IoctlState.dispatch]
  by_cases hpulse : cmd.command = wrDioCmdPulse
  · have hall : ∀ t ∈ s.touched ++ cmd.touches, t.InBounds := fun t ht =>
      (List.mem_append.mp ht).elim (h.inBounds t) (cmd.touches_inBounds t)
    rw [if_pos hpulse]
    dsimp only
    split
    · refine ⟨hall, fun _ hnext => (by cases hnext), fun _ hnext => (by cases hnext),
        fun hout => ⟨?_, fun ret hret => ?_⟩⟩
      · have hch := (IoctlCmd.outOfRange_pulse hpulse).mp hout
        change s.touched ++ cmd.touches = []
        rw [(h.refused hout).1, PulseCmd.touches]
        exact if_pos hch
      · obtain hret | hret | hret := hret <;> cases hret
        exact Option.some_ne_none _
    · rename_i hsome
      refine ⟨hall, fun _ hnext => (by cases hnext), fun _ hnext => (by cases hnext), fun hout => ?_⟩
      rw [IoctlCmd.outOfRange_pulse hpulse] at hout
      rw [PulseDevice.wrnDioCmdPulse] at hsome
      dsimp only at hsome
      rw [if_pos hout] at hsome
      cases hsome
  rw [if_neg hpulse]
  by_cases hstamp : cmd.command = wrDioCmdStamp
  · rw [if_pos hstamp]
    refine ⟨h.inBounds, fun call hcall => ⟨hstamp, .inl ?_⟩, fun _ hnext => (by cases hnext), fun hout => ?_⟩
    · cases hcall
      rfl
    · exact ⟨(h.refused hout).1, fun ret hret => by obtain hret | hret | hret := hret <;> cases hret⟩
  rw [if_neg hstamp]
  by_cases hinout : cmd.command = wrDioCmdInout
  · have hle : cmd.flags &&& wrDioFMask ≠ 0 ∨ cmd.channel ≤ 7 := by
      by_contra hout
      rw [not_or, not_not, Nat.not_le] at hout
      exact hcmd ⟨hout.1, .inr ⟨hinout, hout.2⟩⟩
    rw [if_pos hinout]
    refine ⟨fun t ht => ?_, fun _ hnext => (by cases hnext), fun _ hnext => (by cases hnext), fun hout => ?_⟩
    · exact (List.mem_append.mp ht).elim (h.inBounds t) (@InoutCmd.touches_inBounds cmd.toInout hle _ t)
    · obtain ⟨hmask, hch⟩ := (IoctlCmd.outOfRange_inout hinout).mp hout
      exact absurd (hle.resolve_left (not_not_intro hmask)) (Nat.not_le.mpr hch)
  rw [if_neg hinout]
  split
  · exact h.move (fun _ hnext => by cases hnext) fun ret hret => by
      obtain hret | hret | hret := hret <;> cases hret
      exact .inr (Option.some_ne_none _)
  · exact h.move (fun _ hnext => by cases hnext) fun ret hret => by
      obtain hret | hret | hret := hret <;> cases hret
      exact .inr (Option.some_ne_none _)

theorem Guarded.go {now : ℕ} (hcmd : ¬ cmd.Unchecked) (h : Guarded cmd s)
    (hs : s.step ⟨.privMezzanineCmd, cmd⟩ (.go now) = some t) : Guarded cmd t := by
  cases hcall : s.call <;> simp only [IoctlState.step, hcall] at hs
  case entered =>
    cases hs
    exact h.move (fun _ hnext => by cases hnext) fun ret hret => by obtain hret | hret | hret := hret <;> cases hret
  case dispatch =>
    cases hs
    exact h.dispatch hcmd now
  case stamp call =>
    cases call
    case again =>
      obtain ⟨hstamp, hrefused⟩ := h.stamp .again hcall
      have hle := single_le hcmd hstamp (hrefused.resolve_left (by simp))
      exact h.stampStep (a := .advance) hcmd hcall (fun _ hothers => by cases hothers)
        (StampCall.againTouches_inBounds hle _) (fun hentered => by cases hentered) hs
    all_goals
      refine h.stampStep (a := .advance) hcmd hcall (fun _ hothers => by cases hothers)
        (fun t ht => absurd ht List.not_mem_nil) (fun _ => rfl) ?_
      rwa [List.append_nil]
  case out ret =>
    cases hs
    refine h.move (fun _ hnext => by cases hnext) fun ret hret => ?_
    obtain hret | hret | hret := hret <;> cases hret
    exact .inl (.inr (.inl hcall))
  all_goals cases hs

theorem Guarded.step {a : IoctlAct} (hcmd : ¬ cmd.Unchecked) (h : Guarded cmd s)
    (hs : s.step ⟨.privMezzanineCmd, cmd⟩ a = some t) : Guarded cmd t := by
  cases a with
  | go now => exact h.go hcmd hs
  | interrupt irq =>
    cases hs
    exact ⟨h.inBounds, h.stamp, h.asleep, h.refused⟩
  | kmalloc ok =>
    cases hcall : s.call <;> simp only [IoctlState.step, hcall] at hs
    case allocating =>
      cases ok <;> cases hs
      all_goals
        refine h.move (fun _ hnext => by cases hnext) fun ret hret => ?_
        obtain hret | hret | hret := hret <;> cases hret
      exact .inr (Option.some_ne_none _)
    all_goals cases hs
  | copyFromUser ok =>
    cases hcall : s.call <;> simp only [IoctlState.step, hcall] at hs
    case copyingIn =>
      cases ok <;> cases hs
      all_goals
        refine h.move (fun _ hnext => by cases hnext) fun ret hret => ?_
        obtain hret | hret | hret := hret <;> cases hret
      exact .inr (Option.some_ne_none _)
    all_goals cases hs
  | copyToUser ok =>
    cases hcall : s.call <;> simp only [IoctlState.step, hcall] at hs
    case copyingOut ret =>
      cases ok <;> cases hs
      all_goals
        refine h.move (fun _ hnext => by cases hnext) fun ret' hret => ?_
        obtain hret | hret | hret := hret <;> cases hret
      · exact .inr (Option.some_ne_none _)
      · exact .inl (.inl hcall)
    all_goals cases hs
  | wake =>
    cases hcall : s.call <;> simp only [IoctlState.step, hcall] at hs
    case stamp call =>
      cases call
      case asleep q =>
        obtain ⟨hstamp, hrefused⟩ := h.stamp (.asleep q) hcall
        have hle := single_le hcmd hstamp (hrefused.resolve_left (by simp))
        refine h.stampStep (a := .wake) hcmd hcall (fun _ hothers => by cases hothers)
          (fun t ht => ?_) (fun hentered => by cases hentered) hs
        obtain rfl := List.mem_singleton.mp ht
        rw [h.asleep q hcall]
        exact StampCall.queue_le hle
      all_goals cases hs
    all_goals cases hs
  | signal =>
    cases hcall : s.call <;> simp only [IoctlState.step, hcall] at hs
    case stamp call =>
      refine h.stampStep (a := .signal) hcmd hcall (fun _ hothers => by cases hothers)
        (fun t ht => absurd ht List.not_mem_nil) (fun _ => rfl) ?_
      rwa [List.append_nil]
    all_goals cases hs
  | other cmd' =>
    cases hcall : s.call <;> simp only [IoctlState.step, hcall] at hs
    case stamp call =>
      cases call <;> cases hs
      exact ⟨h.inBounds, h.stamp, h.asleep, h.refused⟩
    all_goals cases hs

/-- The way to the command. -/
theorem reach_dispatch (cmd : IoctlCmd) (d : IoDevice) (acts : List IoctlAct) :
    run (IoctlState.step ⟨.privMezzanineCmd, cmd⟩) (start d)
      (.go 0 :: .kmalloc true :: .copyFromUser true :: .go 0 :: acts) =
      run (IoctlState.step ⟨.privMezzanineCmd, cmd⟩)
        (IoctlState.dispatch cmd 0 { start d with call := .dispatch, allocated := 1 }) acts := rfl

/-- A single channel is looked up whatever it is. -/
theorem regmap_touched (hmask : cmd.flags &&& wrDioFMask = 0) (rings : ℕ → DioChannel) :
    .regmap cmd.channel ∈ StampCall.againTouches rings cmd.toWrDioCmd := by
  have hone : cmd.channel + 1 - cmd.channel = 1 := by omega
  simp [StampCall.againTouches, hmask, hone, StampCall.loopTouches]

theorem shift_touched (hmask : cmd.flags &&& wrDioFMask = 0) (r : ModeRegs) :
    .shift (4 * cmd.channel) 32 ∈ cmd.toInout.touches r := by
  have hchosen : cmd.toInout.chosen = [cmd.channel] := @InoutCmd.chosen_single cmd.toInout hmask
  have hchannels : DioDevice.WrDioCmd.channels cmd.toInout.toWrDioCmd = [cmd.channel] := by
    rw [DioDevice.WrDioCmd.channels]
    exact if_neg (not_not_intro hmask)
  rw [InoutCmd.touches, hchannels, List.mem_append, List.mem_flatMap]
  refine .inr ⟨cmd.channel, List.mem_singleton_self _, ?_⟩
  rw [InoutCmd.channelTouches, hchosen, if_neg (by simp)]
  split <;> simp

/-- The channels are validated exactly for the commands that are not unchecked: a STAMP command with a single
channel above 4 goes on unless bit 0 of its flags is set, and an INOUT command with one above 7. -/
theorem channelsValidated_iff (cmd : IoctlCmd) : ChannelsValidated cmd ↔ ¬ cmd.Unchecked := by
  constructor
  · rintro h ⟨hmask, ⟨hstamp, hch, hbit⟩ | ⟨hinout, hch⟩⟩
    · have hrefused : ¬ StampCall.flagsRefused cmd.toWrDioCmd := by
        rw [StampCall.flagsRefused_iff, hbit]
        exact Bool.false_ne_true
      have hrun : ∃ s, run (step ⟨.privMezzanineCmd, cmd⟩) (start IoDevice.start)
          [.go 0, .kmalloc true, .copyFromUser true, .go 0, .go 0, .go 0] = some s ∧
            s.touched = StampCall.againTouches IoDevice.start.rings cmd.toWrDioCmd := by
        rw [reach_dispatch, dispatch, if_neg (by rw [hstamp]; decide), if_pos hstamp]
        simp only [run_cons, run_nil, step, stampStep, StampState.step, if_neg hrefused, Option.map_some,
          Option.bind_some, StampCall.settle, setRings, start, List.nil_append]
        exact ⟨_, rfl, rfl⟩
      obtain ⟨s, hs, htouched⟩ := hrun
      have := h.inBounds _ _ s hs (.regmap cmd.channel) (htouched ▸ regmap_touched hmask _)
      exact absurd this (Nat.not_le.mpr hch)
    · have htouch := h.inBounds _ _ _ (reach_dispatch cmd IoDevice.start []) (.shift (4 * cmd.channel) 32)
      rw [dispatch, if_neg (by rw [hinout]; decide), if_neg (by rw [hinout]; decide), if_pos hinout] at htouch
      have : 4 * cmd.channel < 32 := htouch (List.mem_append_right _ (shift_touched hmask _))
      omega
  · intro hcmd
    have hguarded : ∀ d acts s, run (IoctlState.step ⟨.privMezzanineCmd, cmd⟩) (start d) acts = some s →
        Guarded cmd s := fun d acts s hrun => run_keeps (fun h => h.step hcmd) (start_guarded cmd d) hrun
    refine ⟨fun d acts s hrun => (hguarded d acts s hrun).inBounds, fun hout d acts s hrun => ?_⟩
    obtain ⟨htouched, hret⟩ := (hguarded d acts s hrun).refused hout
    exact ⟨htouched, fun ret h => hret ret (.inr (.inr h))⟩

/-- A command for the stamps of channel 5, which the device does not have. -/
theorem channel_five : ¬ ChannelsValidated ⟨⟨⟨5, 0⟩, 0, fun _ => ⟨0, 0⟩⟩, wrDioCmdStamp⟩ := by
  intro h
  have hrun : run (IoctlState.step ⟨.privMezzanineCmd, ⟨⟨⟨5, 0⟩, 0, fun _ => ⟨0, 0⟩⟩, wrDioCmdStamp⟩⟩)
    (start IoDevice.start) upToCopy = some _ := rfl
  have hbound := h.inBounds _ _ _ hrun (.dioChannel 5) (by decide)
  exact absurd hbound (by decide)

end IoctlState

end WhiteRabbit.Dio
