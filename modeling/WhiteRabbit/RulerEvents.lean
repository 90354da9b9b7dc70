import WhiteRabbit.StampFlags
import WhiteRabbit.TimespecSums

/-!
# The loop of the ruler

The ruler waits for a time stamp of its input channel and then runs its actions, each some delay after
the stamp. The command it waits with hands out all stamps that are there, and the ruler takes the first.
-/

namespace WhiteRabbit.Dio

open StepRuns

structure RulerAction where
  isremote : Bool
  channel : ℕ
  delay : Timespec

/-- The arguments of the ruler. Without an action it only prints how it is used. -/
structure Ruler where
  inch : ℕ
  actions : List RulerAction
  nonempty : actions ≠ []

/-- A command that was sent to the other hosts or given to the own device. -/
structure RulerTrigger where
  isremote : Bool
  cmd : PulseCmd

/-- Where the loop of `main` is: in `ruler_wait_event`, or in `ruler_run_actions` with the actions it has
still to run. -/
inductive RulerPhase where
  | waiting (call : StampCall)
  | acting (ts : Timespec) (todo : List RulerAction)
  | exited

/-- The rings of the device and the loop; the stamps that its commands took out of the ring, and the
triggers, are kept as history. -/
structure RulerState where
  rings : ℕ → DioChannel
  phase : RulerPhase
  removed : List Timespec
  triggered : List RulerTrigger

/-- The kernel goes on, an action is run and succeeds or not, or the loop turns. -/
inductive RulerAct where
  | kernel (a : StampAct)
  | action (ok : Bool)
  | turn

namespace Ruler

/-- The command of `ruler_wait_event`. -/
def waitCmd (r : Ruler) : WrDioCmd := ⟨r.inch, wrDioFWait⟩

/-- The command that `ruler_run_actions` builds for an action. -/
def trigger (r : Ruler) (ts : Timespec) (a : RulerAction) : RulerTrigger where
  isremote := a.isremote
  cmd :=
    { channel := a.channel
      flags := 0
      value := if 1 ≤ r.inch ∧ r.inch ≤ 4 then r.inch else 0
      t := fun n => if n = 0 then actionTime ts a.delay else if n = 1 then ⟨0, 1000 * 1000⟩ else ⟨0, 0⟩ }

/-- The command has gone on; where it returns, its first stamp is taken, or the ruler exits. -/
def proceed (r : Ruler) (s : RulerState) (t : StampState) : RulerState :=
  match t.call with
  | .returned (.stamps _ ts) =>
    -- assume it's only one stamp
    { s with rings := t.rings, removed := s.removed ++ ts, phase := .acting (ts.headD ⟨0, 0⟩) r.actions }
  | .returned _ | .interrupted => { s with rings := t.rings, phase := .exited }
  | call => { s with rings := t.rings, phase := .waiting call }

/-- The loop of `main`, and of `ruler_run_actions` in it. -/
def step (r : Ruler) (s : RulerState) : RulerAct → Option RulerState
  | .kernel (.others rings) => some { s with rings := rings }
  | .kernel a =>
    match s.phase with
    | .waiting call => (StampState.step r.waitCmd ⟨s.rings, call⟩ a).map (r.proceed s)
    | _ => none
  | .action ok =>
    match s.phase with
    | .acting ts (a :: todo) =>
      if ok then some { s with triggered := s.triggered ++ [r.trigger ts a], phase := .acting ts todo }
      else some { s with phase := .exited }
    | _ => none
  | .turn =>
    match s.phase with
    | .acting _ [] => some { s with phase := .waiting .entered }
    | _ => none

def start (rings : ℕ → DioChannel) : RulerState where
  rings := rings
  phase := .waiting .entered
  removed := []
  triggered := []

/-- What the stamps ask for: each action once for each stamp, in order. -/
def asked (r : Ruler) (stamps : List Timespec) : List (Timespec × RulerAction) :=
  stamps.flatMap fun ts => r.actions.map fun a => (ts, a)

/-- The triggers that are still to come for the stamp at hand. -/
def coming (r : Ruler) (s : RulerState) : List RulerTrigger :=
  match s.phase with
  | .acting ts todo => todo.map (r.trigger ts)
  | _ => []

end Ruler

/-- The trigger is for the action, at the time of the stamp and the delay. -/
structure Triggers (q : Timespec × RulerAction) (t : RulerTrigger) : Prop where
  isremote : t.isremote = q.2.isremote
  channel : t.cmd.channel = q.2.channel
  time : q.1.Within (2 ^ 60) → q.2.delay.Within (2 ^ 60) → (t.cmd.t 0).nanos = q.1.nanos + q.2.delay.nanos

namespace Ruler

variable {r : Ruler} {s t : RulerState}

/-- Every stamp that was taken has triggered each action once, in order, those that are about to run
included. -/
def ActsOnEvery (r : Ruler) (s : RulerState) : Prop :=
  List.Forall₂ Triggers (r.asked s.removed) (s.triggered ++ r.coming s)

/-- There is one stamp in the ring, or none. -/
def AtMostOne (c : DioChannel) : Prop := c.bhead = c.btail ∨ (c.btail + 1) % wrnDioBufferLen = c.bhead

/-- A command that looks into the ring finds one stamp at most, and no action fails. -/
def OneByOne (r : Ruler) (s : RulerState) : RulerAct → Prop
  | .kernel .advance => s.phase = .waiting .again → AtMostOne (s.rings r.inch)
  | .action ok => r.coming s ≠ [] → ok = true
  | _ => True

theorem trigger_triggers (r : Ruler) (ts : Timespec) (a : RulerAction) : Triggers (ts, a) (r.trigger ts a) :=
  ⟨rfl, rfl, fun hts ha => (tsAdd_eq hts ha (by decide)).1⟩

theorem asked_append (r : Ruler) (xs ys : List Timespec) : r.asked (xs ++ ys) = r.asked xs ++ r.asked ys :=
  List.flatMap_append

theorem length_asked (r : Ruler) (stamps : List Timespec) :
    (r.asked stamps).length = stamps.length * r.actions.length := by
  rw [asked, List.length_flatMap]
  simp

/-- What one stamp asks for is what its actions do. -/
theorem asked_single (r : Ruler) (ts : Timespec) :
    List.Forall₂ Triggers (r.asked [ts]) (r.actions.map (r.trigger ts)) := by
  rw [asked, List.flatMap_singleton, List.forall₂_map_left_iff, List.forall₂_map_right_iff, List.forall₂_same]
  exact fun a _ => r.trigger_triggers ts a

/-- One command takes one stamp if there is one, and what it takes more is lost. -/
theorem acts_taken (h : List.Forall₂ Triggers (r.asked s.removed) s.triggered) (ts : Timespec)
    (more : List Timespec) :
    List.Forall₂ Triggers (r.asked (s.removed ++ ts :: more)) (s.triggered ++ r.actions.map (r.trigger ts)) ↔
      more = [] := by
  constructor
  · intro hall
    have hbefore := h.length_eq
    have hlength := hall.length_eq
    have hpos : 0 < r.actions.length := List.length_pos_iff.mpr r.nonempty
    rw [length_asked] at hbefore
    rw [length_asked, List.length_append, List.length_append, List.length_map, List.length_cons, ← hbefore,
      Nat.add_mul, Nat.add_left_cancel_iff, Nat.add_mul, Nat.one_mul, Nat.add_eq_right,
      Nat.mul_eq_zero] at hlength
    exact List.length_eq_zero_iff.mp (hlength.resolve_right hpos.ne')
  · rintro rfl
    rw [asked_append]
    exact List.rel_append h (r.asked_single ts)

/-- One stamp is handed out alone where the ring holds one. -/
theorem collect_first {c : DioChannel} (h : c.bhead ≠ c.btail) :
    ∃ c' ts more, c.collect wrDioNStamp = (c', ts :: more) ∧
      (more = [] ↔ (c.btail + 1) % wrnDioBufferLen = c.bhead) := by
  refine ⟨_, _, _, DioChannel.collect_cons h, ?_⟩
  rw [DioChannel.collect]
  dsimp only
  by_cases hone : c.bhead = RingArcs.next wrnDioBufferLen c.btail
  · rw [if_pos hone]
    exact iff_of_true rfl hone.symm
  · rw [if_neg hone]
    exact iff_of_false (List.cons_ne_nil _ _) (Ne.symm hone)

/-- What the command of the ruler does once it is past the check of its flags. -/
theorem fromAgain_wait (r : Ruler) (rings : ℕ → DioChannel) :
    StampCall.fromAgain rings r.waitCmd = (rings, .asleep r.inch) ∧ AtMostOne (rings r.inch) ∨
      ∃ rings' ts more, StampCall.fromAgain rings r.waitCmd = (rings', .returned (.stamps r.inch (ts :: more))) ∧
        (more = [] ↔ AtMostOne (rings r.inch)) := by
  have hbit : (1 <<< r.inch).testBit r.inch = true := by
    rw [Nat.one_shiftLeft, Nat.testBit_two_pow_self]
  have hsingle : ¬ r.waitCmd.flags &&& wrDioFMask ≠ 0 := by
    change ¬ (0x10 : ℕ) &&& 0x04 ≠ 0
    decide
  have hwaits : r.waitCmd.flags &&& wrDioFWait ≠ 0 := by
    change (0x10 : ℕ) &&& 0x10 ≠ 0
    decide
  have hchannels : DioDevice.WrDioCmd.channels r.waitCmd = [r.inch] := if_neg hsingle
  have hmask : DioDevice.WrDioCmd.mask r.waitCmd = 1 <<< r.inch := if_neg hsingle
  by_cases hempty : (rings r.inch).bhead = (rings r.inch).btail
  · have hnone : (rings r.inch).collect wrDioNStamp = (rings r.inch, []) := by
      rw [wrDioNStamp, DioChannel.collect, if_pos hempty]
    refine .inl ⟨?_, .inl hempty⟩
    rw [StampCall.fromAgain_eq, hchannels, hmask, DioDevice.scanChannels, if_pos hbit, hnone]
    simp only [DioDevice.scanChannels, if_pos hwaits, StampCall.queue, if_neg hsingle]
    rfl
  · obtain ⟨c, ts, more, hcollect, hmore⟩ := collect_first hempty
    refine .inr ⟨Function.update rings r.inch c, ts, more, ?_, by rw [hmore, AtMostOne, or_iff_right hempty]⟩
    rw [StampCall.fromAgain_eq, hchannels, hmask, DioDevice.scanChannels, if_pos hbit, hcollect]

theorem not_flagsRefused (r : Ruler) : ¬ StampCall.flagsRefused r.waitCmd := by
  change ¬ (0x10 : ℕ) &&& 1 = 1
  decide

/-- Nothing is about to run while the command waits. -/
theorem actsOnEvery_waiting {call : StampCall} (h : s.phase = .waiting call) :
    r.ActsOnEvery s ↔ List.Forall₂ Triggers (r.asked s.removed) s.triggered := by
  rw [ActsOnEvery, coming, h, List.append_nil]

/-- Where the command takes nothing out of the ring, nothing changes. -/
theorem proceed_quiet {call : StampCall} {u : StampState} (hphase : s.phase = .waiting call)
    (hs : r.ActsOnEvery s) (hu : ∀ ch ts, u.call ≠ .returned (.stamps ch ts)) :
    r.ActsOnEvery (r.proceed s u) := by
  have hbefore := (actsOnEvery_waiting hphase).mp hs
  have hempty : r.ActsOnEvery { s with rings := u.rings, phase := .exited } := by
    rw [ActsOnEvery, coming, List.append_nil]
    exact hbefore
  have hwaits : ∀ call', r.ActsOnEvery { s with rings := u.rings, phase := .waiting call' } :=
    fun call' => (actsOnEvery_waiting rfl).mpr hbefore
  rw [proceed]
  split
  · rename_i ch ts hcall
    exact absurd hcall (hu ch ts)
  · exact hempty
  · exact hempty
  · exact hwaits u.call

/-- Where it takes stamps, the first of them triggers the actions. -/
theorem proceed_stamps {call : StampCall} {rings : ℕ → DioChannel} {ch : ℕ} {ts : Timespec} {more : List Timespec}
    (hphase : s.phase = .waiting call) (hs : r.ActsOnEvery s) :
    r.ActsOnEvery (r.proceed s ⟨rings, .returned (.stamps ch (ts :: more))⟩) ↔ more = [] :=
  acts_taken ((actsOnEvery_waiting hphase).mp hs) ts more

/-- The command goes on: it takes more than one stamp, or the ruler acts on what it takes. -/
theorem kernel_step {call : StampCall} {a : StampAct} {u : StampState} (hphase : s.phase = .waiting call)
    (hs : r.ActsOnEvery s) (ha : ∀ rings, a ≠ .others rings)
    (hu : StampState.step r.waitCmd ⟨s.rings, call⟩ a = some u) :
    r.ActsOnEvery (r.proceed s u) ↔ r.OneByOne s (.kernel a) := by
  cases a with
  | others rings => exact absurd rfl (ha rings)
  | wake =>
    refine iff_of_true (proceed_quiet hphase hs fun ch ts hcall => ?_) trivial
    simp only [StampState.step] at hu
    split at hu
    · obtain ⟨-, hu⟩ := Option.ite_none_right_eq_some.mp hu
      cases hu
      cases hcall
    · cases hu
  | signal =>
    refine iff_of_true (proceed_quiet hphase hs fun ch ts hcall => ?_) trivial
    simp only [StampState.step] at hu
    split at hu
    · cases hu
      cases hcall
    · cases hu
  | advance =>
    cases call with
    | entered =>
      simp only [StampState.step, if_neg r.not_flagsRefused, Option.some.injEq] at hu
      subst hu
      exact iff_of_true (proceed_quiet hphase hs fun ch ts hcall => by cases hcall)
        fun hagain => by simp [hphase] at hagain
    | again =>
      simp only [StampState.step, Option.some.injEq] at hu
      rw [OneByOne, forall_prop_of_true hphase]
      obtain ⟨hfrom, hone⟩ | ⟨rings', ts, more, hfrom, hone⟩ := r.fromAgain_wait s.rings
      · rw [hfrom] at hu
        subst hu
        exact iff_of_true (proceed_quiet hphase hs fun ch ts hcall => by cases hcall) hone
      · rw [hfrom] at hu
        subst hu
        exact (proceed_stamps hphase hs).trans hone
    | asleep q => cases hu
    | returned reply => cases hu
    | interrupted => cases hu

/-- A step of the command is one of the loop while it waits. -/
theorem step_kernel {a : StampAct} (ha : ∀ rings, a ≠ .others rings) (ht : r.step s (.kernel a) = some t) :
    ∃ call u, s.phase = .waiting call ∧ StampState.step r.waitCmd ⟨s.rings, call⟩ a = some u ∧
      t = r.proceed s u := by
  have hwaits : (match s.phase with
      | .waiting call => (StampState.step r.waitCmd ⟨s.rings, call⟩ a).map (r.proceed s)
      | _ => none) = some t := by
    cases a with
    | others rings => exact absurd rfl (ha rings)
    | advance => exact ht
    | wake => exact ht
    | signal => exact ht
  split at hwaits
  · rename_i call hphase
    obtain ⟨u, hu, htu⟩ := Option.map_eq_some_iff.mp hwaits
    exact ⟨call, u, hphase, hu, htu.symm⟩
  · cases hwaits

/-- An action is run. -/
theorem action_step {ok : Bool} (hs : r.ActsOnEvery s) (ht : r.step s (.action ok) = some t) :
    r.ActsOnEvery t ↔ r.OneByOne s (.action ok) := by
  simp only [step] at ht
  split at ht
  · rename_i ts a todo hphase
    rw [ActsOnEvery, coming, hphase] at hs
    have hcoming : r.coming s ≠ [] := by
      rw [coming, hphase]
      exact List.cons_ne_nil _ _
    rw [OneByOne, forall_prop_of_true hcoming]
    cases ok with
    | true =>
      cases ht
      refine iff_of_true ?_ rfl
      rw [ActsOnEvery, coming, List.append_assoc]
      exact hs
    | false =>
      cases ht
      refine iff_of_false (fun h => ?_) Bool.false_ne_true
      have hbefore := hs.length_eq
      have hafter := h.length_eq
      simp only [coming, List.length_append, List.map_cons, List.length_cons, List.length_nil] at hbefore hafter
      omega
  · cases ht

/-- What the loop does in one step is right exactly when it takes one stamp at most and its action succeeds. -/
theorem step_iff {a : RulerAct} (hs : r.ActsOnEvery s) (ht : r.step s a = some t) :
    r.ActsOnEvery t ↔ r.OneByOne s a := by
  have hkernel : ∀ a : StampAct, (∀ rings, a ≠ .others rings) → r.step s (.kernel a) = some t →
      (r.ActsOnEvery t ↔ r.OneByOne s (.kernel a)) := by
    intro a ha ht
    obtain ⟨call, u, hphase, hu, rfl⟩ := step_kernel ha ht
    exact kernel_step hphase hs ha hu
  cases a with
  | kernel a =>
    cases a with
    | others rings =>
      cases ht
      exact iff_of_true hs trivial
    | advance => exact hkernel _ (fun rings => by simp) ht
    | wake => exact hkernel _ (fun rings => by simp) ht
    | signal => exact hkernel _ (fun rings => by simp) ht
  | action ok => exact action_step hs ht
  | turn =>
    simp only [step] at ht
    split at ht
    · rename_i ts hphase
      cases ht
      rw [ActsOnEvery, coming, hphase] at hs
      exact iff_of_true ((actsOnEvery_waiting rfl).mpr (by simpa using hs)) trivial
    · cases ht

theorem start_acts (r : Ruler) (rings : ℕ → DioChannel) : r.ActsOnEvery (start rings) :=
  List.Forall₂.nil

theorem oneByOne_of_none {a : RulerAct} (h : r.step s a = none) : r.OneByOne s a := by
  cases a with
  | kernel a =>
    cases a with
    | advance =>
      intro hphase
      simp [step, hphase, StampState.step] at h
    | others rings => trivial
    | wake => trivial
    | signal => trivial
  | action ok =>
    intro hcoming
    rw [coming] at hcoming
    split at hcoming
    · rename_i ts todo hphase
      cases todo with
      | nil => exact absurd rfl hcoming
      | cons a todo => cases ok <;> simp [step, hphase] at h
    · exact absurd rfl hcoming
  | turn => trivial

/-- The ruler has triggered its actions once for each stamp that it took, all along a run, exactly where each of
its commands takes one stamp at most out of the ring and no action fails. -/
theorem acts_on_every_iff (r : Ruler) (rings : ℕ → DioChannel) (acts : List RulerAct) :
    (∀ pre t, pre <+: acts → run r.step (start rings) pre = some t → r.ActsOnEvery t) ↔
      Obeys r.step r.OneByOne (start rings) acts :=
  holds_iff_obeys (I := fun _ => True) (fun _ hs ht => ⟨trivial, step_iff hs ht⟩)
    oneByOne_of_none trivial (start_acts r rings) acts

/-- One local action, a second after the edge. -/
def oneLed : Ruler := ⟨0, [⟨false, 1, ⟨1, 0⟩⟩], List.cons_ne_nil _ _⟩

/-- Two edges come before the waiting command looks into the ring. -/
def twoEdges : List RulerAct :=
  [.kernel .advance,
    .kernel (.others (DioDevice.wrnDioInterrupt DioDevice.start.ch 1 fun _ => [⟨0, 7, 100⟩, ⟨0, 8, 100⟩])),
    .kernel .advance, .action true, .turn]

/-- The second of them triggers nothing. -/
theorem second_edge_lost :
    (run oneLed.step (start DioDevice.start.ch) twoEdges).map (fun s => (s.removed.length, s.triggered.length)) =
        some (2, 1) ∧
      ¬ ∀ pre t, pre <+: twoEdges → run oneLed.step (start DioDevice.start.ch) pre = some t →
        oneLed.ActsOnEvery t := by
  have hcount : (run oneLed.step (start DioDevice.start.ch) twoEdges).map
      (fun s => (s.removed.length, s.triggered.length, (oneLed.coming s).length)) = some (2, 1, 0) := by
    decide
  obtain ⟨t, hrun, ht⟩ := Option.map_eq_some_iff.mp hcount
  simp only [Prod.mk.injEq] at ht
  refine ⟨by rw [hrun, Option.map_some, ht.1, ht.2.1], fun h => ?_⟩
  have hlength := (h twoEdges t (List.prefix_refl _) hrun).length_eq
  rw [length_asked, List.length_append, ht.1, ht.2.1, ht.2.2] at hlength
  exact absurd hlength (by decide)

end Ruler

end WhiteRabbit.Dio
