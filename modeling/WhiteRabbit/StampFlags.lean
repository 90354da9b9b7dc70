import WhiteRabbit.BitFields
import WhiteRabbit.DioTimestamps

/-!
# The flags of a STAMP command

A command for time stamps may name one channel or a mask of them, and it may wait: then it
sleeps on the queue of a channel until that channel has stamps, and tries again.
-/

namespace WhiteRabbit.Dio
open StepRuns

/-- The `||` of C. -/
def logicalOr (a b : ℕ) : ℕ := if a ≠ 0 ∨ b ≠ 0 then 1 else 0

/-- What the command does on the way through its code. -/
inductive StampCall where
  | entered
  | again
  | asleep (queue : ℕ)
  | returned (reply : StampReply)
  | interrupted
  deriving DecidableEq

/-- Where the channel loop stops: at a channel with stamps, or behind the last one, with its
index and its pointer. -/
inductive LoopEnd where
  | found (ch dioChan : ℕ) (c : DioChannel) (ts : List Timespec)
  | ended (ch dioChan : ℕ)

namespace StampCall

variable (rings : ℕ → DioChannel)

/-- `for (; ch <= last; ch++, dioChan_p++)`, with the number of rounds still to go. -/
def channelLoop (mask : ℕ) : ℕ → ℕ → ℕ → LoopEnd
  | 0, ch, dioChan => .ended ch dioChan
  | rounds + 1, ch, dioChan =>
    if 1 <<< ch &&& mask = 0 then channelLoop mask rounds (ch + 1) (dioChan + 1)
    else
      match (rings dioChan).collect wrDioNStamp with
      | (_, []) => channelLoop mask rounds (ch + 1) (dioChan + 1)
      | (c, ts) => .found ch dioChan c ts

/-- The flags that are refused. -/
def flagsRefused (cmd : WrDioCmd) : Prop :=
  cmd.flags &&& logicalOr wrDioFMask wrDioFWait = logicalOr wrDioFMask wrDioFWait

instance (cmd : WrDioCmd) : Decidable (flagsRefused cmd) := inferInstanceAs (Decidable (_ = _))

/-- The code of `wrn_dio_cmd_stamp` from the label `again` on. -/
def fromAgain (cmd : WrDioCmd) : (ℕ → DioChannel) × StampCall :=
  let ch := if cmd.flags &&& wrDioFMask ≠ 0 then 0 else cmd.channel
  let last := if cmd.flags &&& wrDioFMask ≠ 0 then 4 else ch
  let mask := if cmd.flags &&& wrDioFMask ≠ 0 then cmd.channel else 1 <<< ch
  match channelLoop rings mask (last + 1 - ch) ch ch with
  | .found ch dioChan c ts => (Function.update rings dioChan c, .returned (.stamps ch ts))
  | .ended _ dioChan =>
    if cmd.flags &&& wrDioFWait ≠ 0 then (rings, .asleep (dioChan - 1)) else (rings, .returned .eagain)

end StampCall

/-- The rings of the device and a command that runs over them. -/
structure StampState where
  rings : ℕ → DioChannel
  call : StampCall

inductive StampAct where
  | advance
  | others (rings : ℕ → DioChannel)
  | wake
  | signal

namespace StampState

/-- The command goes on, or interrupts and other commands change the rings, or the command is
woken: because the ring of the queue it sleeps on is not empty, or by a signal. -/
def step (cmd : WrDioCmd) (s : StampState) : StampAct → Option StampState
  | .advance =>
    match s.call with
    | .entered =>
      if StampCall.flagsRefused cmd then some { s with call := .returned .einval }
      else some { s with call := .again }
    | .again =>
      let (rings, call) := StampCall.fromAgain s.rings cmd
      some { rings := rings, call := call }
    | _ => none
  | .others rings => some { s with rings := rings }
  | .wake =>
    match s.call with
    | .asleep q => if (s.rings q).bhead ≠ (s.rings q).btail then some { s with call := .again } else none
    | _ => none
  | .signal =>
    match s.call with
    | .asleep _ => some { s with call := .interrupted }
    | _ => none

end StampState

namespace StampCall

variable {rings : ℕ → DioChannel}

theorem bit_and_eq_zero {ch mask : ℕ} : 1 <<< ch &&& mask = 0 ↔ mask.testBit ch = false := by
  rw [Nat.and_comm, BitFields.and_bit_eq_zero]

/-- The loop finds what the search of the channels finds, and else it stops behind the last
channel. -/
theorem channelLoop_eq (mask rounds ch : ℕ) : channelLoop rings mask rounds ch ch =
    match DioDevice.scanChannels rings mask (List.range' ch rounds) with
    | some (k, c, ts) => .found k k c ts
    | none => .ended (ch + rounds) (ch + rounds) := by
  induction rounds generalizing ch with
  | zero => rfl
  | succ rounds ih =>
    have hend : ch + (rounds + 1) = ch + 1 + rounds := by omega
    rw [channelLoop, List.range'_succ, DioDevice.scanChannels]
    by_cases hbit : mask.testBit ch = true
    · rw [if_neg (by rw [bit_and_eq_zero, hbit]; simp), if_pos hbit]
      rcases hc : (rings ch).collect wrDioNStamp with ⟨c, _ | ⟨t, ts⟩⟩
      · rw [hend]
        exact ih (ch + 1)
      · rfl
    · rw [if_pos (bit_and_eq_zero.mpr (by simpa using hbit)), if_neg hbit, hend]
      exact ih (ch + 1)

/-- The queue a command sleeps on. -/
def queue (cmd : WrDioCmd) : ℕ := if cmd.flags &&& wrDioFMask ≠ 0 then 4 else cmd.channel

theorem fromAgain_eq (cmd : WrDioCmd) : fromAgain rings cmd =
    match DioDevice.scanChannels rings (DioDevice.WrDioCmd.mask cmd) (DioDevice.WrDioCmd.channels cmd) with
    | some (k, c, ts) => (Function.update rings k c, .returned (.stamps k ts))
    | none =>
      if cmd.flags &&& wrDioFWait ≠ 0 then (rings, .asleep (queue cmd)) else (rings, .returned .eagain) := by
  rw [fromAgain, DioDevice.WrDioCmd.mask, DioDevice.WrDioCmd.channels, queue]
  by_cases hmask : cmd.flags &&& wrDioFMask ≠ 0
  · simp only [if_pos hmask, channelLoop_eq, show List.range' 0 (4 + 1 - 0) = [0, 1, 2, 3, 4] from rfl]
    cases DioDevice.scanChannels rings cmd.channel [0, 1, 2, 3, 4] <;> rfl
  · have hone : cmd.channel + 1 - cmd.channel = 1 := by omega
    simp only [if_neg hmask, channelLoop_eq, hone, show List.range' cmd.channel 1 = [cmd.channel] from rfl]
    cases DioDevice.scanChannels rings (1 <<< cmd.channel) [cmd.channel] <;> rfl

theorem flagsRefused_iff (cmd : WrDioCmd) : flagsRefused cmd ↔ cmd.flags.testBit 0 = true := by
  have hone : logicalOr wrDioFMask wrDioFWait = 2 ^ 0 := rfl
  rw [flagsRefused, hone, Nat.and_two_pow]
  cases cmd.flags.testBit 0 <;> simp

/-- Where the channel has stamps, a try returns some of them. -/
theorem fromAgain_nonempty {cmd : WrDioCmd} (hsingle : cmd.flags &&& wrDioFMask = 0)
    (h : (rings cmd.channel).bhead ≠ (rings cmd.channel).btail) :
    ∃ rings' ts, ts ≠ [] ∧ fromAgain rings cmd = (rings', .returned (.stamps cmd.channel ts)) := by
  have hbit : (1 <<< cmd.channel).testBit cmd.channel = true := by
    rw [Nat.one_shiftLeft, Nat.testBit_two_pow_self]
  have hchannels : DioDevice.WrDioCmd.channels cmd = [cmd.channel] := if_neg (not_not.mpr hsingle)
  have hmask : DioDevice.WrDioCmd.mask cmd = 1 <<< cmd.channel := if_neg (not_not.mpr hsingle)
  obtain ⟨c, t, ts, hcollect⟩ : ∃ c t ts, (rings cmd.channel).collect wrDioNStamp = (c, t :: ts) :=
    ⟨_, _, _, DioChannel.collect_cons h⟩
  refine ⟨Function.update rings cmd.channel c, t :: ts, List.cons_ne_nil t ts, ?_⟩
  rw [fromAgain_eq, hchannels, hmask, DioDevice.scanChannels, if_pos hbit, hcollect]

/-- A try goes to sleep only where the command waits, and then on the queue of the command. -/
theorem fromAgain_asleep {cmd : WrDioCmd} {rings' : ℕ → DioChannel} {q : ℕ}
    (h : fromAgain rings cmd = (rings', .asleep q)) : q = queue cmd := by
  rw [fromAgain_eq] at h
  split at h
  · cases h
  · split at h
    · cases h
      rfl
    · cases h

theorem fromAgain_ne_einval (cmd : WrDioCmd) : (fromAgain rings cmd).2 ≠ .returned .einval := by
  rw [fromAgain_eq]
  split
  · simp
  · split <;> simp

end StampCall

namespace StampState
open StampCall

/-- What a step can do. -/
theorem step_cases {cmd : WrDioCmd} {s s' : StampState} {a : StampAct} (hs : s.step cmd a = some s') :
    (s.call = .entered ∧ flagsRefused cmd ∧ s' = { s with call := .returned .einval }) ∨
    (s.call = .entered ∧ ¬ flagsRefused cmd ∧ s' = { s with call := .again }) ∨
    (s.call = .again ∧ s' = ⟨(fromAgain s.rings cmd).1, (fromAgain s.rings cmd).2⟩) ∨
    (∃ rings, s' = { s with rings := rings }) ∨
    (∃ q, s.call = .asleep q ∧ (s' = { s with call := .again } ∨ s' = { s with call := .interrupted })) := by
  cases a with
  | advance =>
    rw [step] at hs
    split at hs
    · rename_i hcall
      split at hs
      · rename_i hrefused
        exact Or.inl ⟨hcall, hrefused, by simpa using hs.symm⟩
      · rename_i hrefused
        exact Or.inr (Or.inl ⟨hcall, hrefused, by simpa using hs.symm⟩)
    · rename_i hcall
      exact Or.inr (Or.inr (Or.inl ⟨hcall, by simpa using hs.symm⟩))
    · simp at hs
  | others rings => exact Or.inr (Or.inr (Or.inr (Or.inl ⟨rings, by simpa [step] using hs.symm⟩)))
  | wake =>
    rw [step] at hs
    split at hs
    · rename_i q hcall
      obtain ⟨-, hs⟩ := Option.ite_none_right_eq_some.mp hs
      exact Or.inr (Or.inr (Or.inr (Or.inr ⟨q, hcall, Or.inl (by simpa using hs.symm)⟩)))
    · simp at hs
  | signal =>
    rw [step] at hs
    split at hs
    · rename_i q hcall
      exact Or.inr (Or.inr (Or.inr (Or.inr ⟨q, hcall, Or.inr (by simpa using hs.symm)⟩)))
    · simp at hs

/-- A command as it goes on its way: it is refused for its flags or not, and it sleeps on its
queue. -/
structure OnItsWay (cmd : WrDioCmd) (s : StampState) : Prop where
  refused : flagsRefused cmd → s.call = .entered ∨ s.call = .returned .einval
  asleep : ∀ q, s.call = .asleep q → q = queue cmd
  einval : s.call = .returned .einval → flagsRefused cmd

theorem OnItsWay.step {cmd : WrDioCmd} {s s' : StampState} {a : StampAct} (h : s.OnItsWay cmd)
    (hs : s.step cmd a = some s') : s'.OnItsWay cmd := by
  obtain ⟨-, hrefused, rfl⟩ | ⟨-, hrefused, rfl⟩ | ⟨hcall, rfl⟩ | ⟨rings, rfl⟩ | ⟨q, hcall, hs'⟩ := step_cases hs
  · exact ⟨fun _ => Or.inr rfl, fun q hq => by simp at hq, fun _ => hrefused⟩
  · exact ⟨fun hr => absurd hr hrefused, fun q hq => by simp at hq, fun he => by simp at he⟩
  · have hrefused : ¬ flagsRefused cmd := fun hr => by simpa [hcall] using h.refused hr
    exact ⟨fun hr => absurd hr hrefused, fun q hq => fromAgain_asleep (Prod.ext rfl hq),
      fun he => absurd he (fromAgain_ne_einval cmd)⟩
  · exact ⟨h.refused, h.asleep, h.einval⟩
  · have hrefused : ¬ flagsRefused cmd := fun hr => by simpa [hcall] using h.refused hr
    refine ⟨fun hr => absurd hr hrefused, fun q hq => ?_, fun he => ?_⟩
    · rcases hs' with rfl | rfl <;> simp at hq
    · rcases hs' with rfl | rfl <;> simp at he

theorem entered_onItsWay (cmd : WrDioCmd) (rings : ℕ → DioChannel) :
    OnItsWay cmd ⟨rings, .entered⟩ :=
  ⟨fun _ => Or.inl rfl, fun q hq => by simp at hq, fun he => by simp at he⟩

def AsksMask (cmd : WrDioCmd) : Prop := cmd.flags &&& wrDioFMask ≠ 0
def AsksWait (cmd : WrDioCmd) : Prop := cmd.flags &&& wrDioFWait ≠ 0

instance (cmd : WrDioCmd) : Decidable (AsksMask cmd) := inferInstanceAs (Decidable (_ ≠ _))
instance (cmd : WrDioCmd) : Decidable (AsksWait cmd) := inferInstanceAs (Decidable (_ ≠ _))

/-- The channel is one of the device, or the mask names channels of the device. -/
def ValidChannel (cmd : WrDioCmd) : Prop :=
  if cmd.flags &&& wrDioFMask ≠ 0 then cmd.channel < 2 ^ 5 else cmd.channel < 5

/-- The flags of a command mean what they say, from the rings as they are when it comes. -/
structure FlagsHonoured (cmd : WrDioCmd) (rings : ℕ → DioChannel) : Prop where
  refused : AsksMask cmd → AsksWait cmd → step cmd ⟨rings, .entered⟩ .advance = some ⟨rings, .returned .einval⟩
  accepted : ValidChannel cmd → ¬ (AsksMask cmd ∧ AsksWait cmd) → ∀ acts s,
    run (step cmd) ⟨rings, .entered⟩ acts = some s → s.call ≠ .returned .einval
  sleeps : ValidChannel cmd → AsksWait cmd → ∀ acts s q, run (step cmd) ⟨rings, .entered⟩ acts = some s →
    s.call = .asleep q → ¬ AsksMask cmd ∧ q = cmd.channel
  wakes : ValidChannel cmd → AsksWait cmd → ∀ acts s q, run (step cmd) ⟨rings, .entered⟩ acts = some s →
    s.call = .asleep q → (s.rings q).bhead ≠ (s.rings q).btail →
    ∃ s' ts, run (step cmd) s [.wake, .advance] = some s' ∧ ts ≠ [] ∧
      s'.call = .returned (.stamps cmd.channel ts)
  loops : ValidChannel cmd → AsksWait cmd → ∀ acts s s' q, run (step cmd) ⟨rings, .entered⟩ acts = some s →
    s.call = .again → s.step cmd .advance = some s' → s'.call = .asleep q →
    (s.rings cmd.channel).bhead = (s.rings cmd.channel).btail

/-- They do exactly where bit 0, the one the check looks at, is set for a mask that waits and,
if the channel is valid, for nothing else. -/
theorem flagsHonoured_iff (cmd : WrDioCmd) (rings : ℕ → DioChannel) : FlagsHonoured cmd rings ↔
    (AsksMask cmd ∧ AsksWait cmd → cmd.flags.testBit 0 = true) ∧
      (ValidChannel cmd → cmd.flags.testBit 0 = true → AsksMask cmd ∧ AsksWait cmd) := by
  constructor
  · intro h
    refine ⟨fun hboth => ?_, fun hvalid hbit => ?_⟩
    · have hstep := h.refused hboth.1 hboth.2
      by_contra hbit
      rw [← flagsRefused_iff] at hbit
      simp [step, hbit] at hstep
    · by_contra hboth
      have hrefused : flagsRefused cmd := (flagsRefused_iff cmd).mpr hbit
      have hrun : run (step cmd) ⟨rings, .entered⟩ [.advance] = some ⟨rings, .returned .einval⟩ := by
        simp [run, step, hrefused]
      exact h.accepted hvalid hboth _ _ hrun rfl
  · rintro ⟨hboth, hother⟩
    have hway : ∀ {acts s}, run (step cmd) ⟨rings, .entered⟩ acts = some s → OnItsWay cmd s :=
      fun hrun => run_keeps (fun hI hs => OnItsWay.step hI hs) (entered_onItsWay cmd rings) hrun
    have hrefuses : AsksMask cmd → AsksWait cmd → flagsRefused cmd := fun hmask hwait =>
      (flagsRefused_iff cmd).mpr (hboth ⟨hmask, hwait⟩)
    -- a command that waits and is past the check names a single channel
    have hsingle : AsksWait cmd → ∀ {acts s}, run (step cmd) ⟨rings, .entered⟩ acts = some s →
        s.call ≠ .entered → s.call ≠ .returned .einval → cmd.flags &&& wrDioFMask = 0 := by
      intro hwait acts s hrun hentered heinval
      by_contra hmask
      rcases (hway hrun).refused (hrefuses hmask hwait) with he | he
      · exact hentered he
      · exact heinval he
    refine ⟨fun hmask hwait => ?_, fun hvalid hnot acts s hrun he => ?_, fun _ hwait acts s q hrun hq => ?_,
      fun _ hwait acts s q hrun hq hne => ?_, fun _ hwait acts s s' q hrun hagain hs hq => ?_⟩
    · simp [step, hrefuses hmask hwait]
    · exact hnot (hother hvalid ((flagsRefused_iff cmd).mp ((hway hrun).einval he)))
    · have hmask := hsingle hwait hrun (by simp [hq]) (by simp [hq])
      exact ⟨not_not.mpr hmask, by rw [(hway hrun).asleep q hq, queue, if_neg (not_not.mpr hmask)]⟩
    · have hmask := hsingle hwait hrun (by simp [hq]) (by simp [hq])
      have hqueue : q = cmd.channel := by rw [(hway hrun).asleep q hq, queue, if_neg (not_not.mpr hmask)]
      subst hqueue
      obtain ⟨rings', ts, hts, hfrom⟩ := fromAgain_nonempty hmask hne
      exact ⟨⟨rings', .returned (.stamps cmd.channel ts)⟩, ts, by simp [run, step, hq, hne, hfrom], hts, rfl⟩
    · have hmask := hsingle hwait hrun (by simp [hagain]) (by simp [hagain])
      by_contra hne
      obtain ⟨rings', ts, -, hfrom⟩ := fromAgain_nonempty hmask hne
      simp only [step, hagain, hfrom, Option.some.injEq] at hs
      subst hs
      cases hq

/-- A command that waits for a mask is not refused, and sleeps on the queue of channel 4. -/
theorem mask_waits : ¬ FlagsHonoured ⟨0x03, wrDioFMask ||| wrDioFWait⟩ DioDevice.start.ch ∧
    run (step ⟨0x03, wrDioFMask ||| wrDioFWait⟩) ⟨DioDevice.start.ch, .entered⟩ [.advance, .advance] =
      some ⟨DioDevice.start.ch, .asleep 4⟩ := by
  refine ⟨fun h => ?_, rfl⟩
  have hstep := h.refused (by decide) (by decide)
  have hentered : step ⟨0x03, wrDioFMask ||| wrDioFWait⟩ ⟨DioDevice.start.ch, .entered⟩ .advance =
      some ⟨DioDevice.start.ch, .again⟩ := rfl
  rw [hentered, Option.some.injEq, StampState.mk.injEq] at hstep
  exact absurd hstep.2 (by decide)

end StampState

end WhiteRabbit.Dio
