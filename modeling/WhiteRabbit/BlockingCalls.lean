import WhiteRabbit.CheckPhases

/-!
# Blocking calls end

Without a callback of its own a cycle is waited for: the call that closes it runs the socket until
the callback has set the status. A run of the socket checks it, asks for the next deadline, sleeps
in `select` until then, and checks it again.
-/

namespace WhiteRabbit.Etherbone
open StepRuns

namespace Machine

section Waiting

variable {m m' : Machine} {a : SocketAct}

theorem waiting_call (c n : ℕ) (status : Status) : (m.call c status).waiting n = m.waiting n := by
  simp only [waiting, queued, call, List.map_cons, List.sum_cons, Frame.waits, Nat.zero_add]

theorem waiting_stack {stack : List Frame} (c : ℕ)
    (hwaits : (stack.map (Frame.waits c)).sum = (m.stack.map (Frame.waits c)).sum) :
    Machine.waiting { m with stack := stack } c = m.waiting c := by
  simp only [waiting, hwaits, queued]

theorem waiting_setDevice {d : ℕ} (f : Device → Device) (hf : ∀ dev, (f dev).ready = dev.ready) (c : ℕ) :
    (m.setDevice d f).waiting c = m.waiting c := by
  rw [waiting, waiting, queued_setDevice_of_ready f hf c]
  rfl

theorem Distinct.waiting_turns (h : m.Distinct) (ht : Turns m m') (c : ℕ) : m'.waiting c ≤ m.waiting c := by
  cases ht with
  | @expire now stack f rest hs he =>
    rw [waiting_call]
    exact Nat.le_refl _
  | tick hs | poll hs | visit hs | skip hs =>
    apply Nat.le_of_eq
    exact waiting_stack c (by rw [hs]; rfl)
  | returned hs | killEnd hs =>
    apply Nat.le_of_eq
    exact waiting_stack c (by simp [hs, Frame.waits])
  | @flush now d next stack dev hs hd =>
    have hqueued := queued_setDevice h.ids hd (fun dev => { dev with ready := [] }) c
    simp only [List.countP_nil] at hqueued
    simp only [waiting, hs, List.map_cons, List.sum_cons, Frame.waits, List.countP_reverse, Machine.setDevice, queued]
      at hqueued ⊢
    omega
  | @flushEnd d mtu p buffer stack hs =>
    have hqueued := countP_setDevice d (fun dev => { dev with ready := [] }) (fun w => w.cycle == c) m.devices
    have hnone : (((m.devices.filter fun dev => dev.id == d).map fun dev => { dev with ready := [] }).flatMap
        Device.ready).countP (fun w => w.cycle == c) = 0 := by
      rw [List.flatMap_map, List.flatMap_eq_nil_iff.mpr fun _ _ => rfl, List.countP_nil]
    simp only [waiting, hs, List.map_cons, List.sum_cons, Frame.waits, Machine.setDevice, queued, List.countP_nil]
      at hqueued ⊢
    omega
  | @flushCall d mtu p w todo buffer buffer' stack _ status operation hs hf =>
    rw [waiting_call]
    simp only [waiting, queued, hs, List.map_cons, List.sum_cons, Frame.waits, List.countP_cons]
    omega
  | @flushIssue d mtu address p w todo buffer buffer' stack _ hs hf =>
    simp only [waiting, queued, issue, hs, List.map_cons, List.sum_cons, Frame.waits, List.countP_cons]
    omega
  | @killCall f bads stack hs =>
    rw [waiting_call]
    simp only [waiting, queued, hs, List.map_cons, List.sum_cons, Frame.waits]
    omega
  | @closeEnd d stack dev hs hd =>
    have hsplit := (List.filter_append_perm (fun dev => dev.id == d) m.devices).flatMap_right Device.ready
    have hcount := hsplit.countP_eq fun w => w.cycle == c
    rw [List.flatMap_append, List.countP_append] at hcount
    have hsame : (m.devices.filter fun dev => dev.id != d) = m.devices.filter fun dev => !(dev.id == d) := rfl
    simp only [waiting, hs, List.map_cons, List.sum_cons, Frame.waits, queued, List.countP_nil]
    rw [hsame]
    omega
  | @closeCall d w todo stack hs =>
    rw [waiting_call]
    simp only [waiting, queued, hs, List.map_cons, List.sum_cons, Frame.waits, List.countP_cons]
    omega

/-- A cycle waits anew only when it is closed. -/
theorem Distinct.waiting_moves (h : m.Distinct) (hm : Moves m a m') (c : ℕ) :
    m'.waiting c + m.closings c ≤ m.waiting c + m'.closings c := by
  cases hm with
  | next alloc ht =>
    have hclosings := ht.closings c
    have hwaiting := h.waiting_turns ht c
    omega
  | idle | openDevice | operate => exact Nat.le_refl _
  | @openCycle d =>
    have hwaiting := waiting_setDevice (m := m) (d := d) (fun dev => { dev with unready := (dev.unready + 1) % 256 })
      (fun _ => rfl) c
    exact Nat.le_of_eq (congrArg (· + m.closings c) hwaiting)
  | @abort n cyc =>
    have hwaiting := waiting_setDevice (m := m) (d := cyc.device)
      (fun dev => { dev with unready := (dev.unready + 255) % 256 }) (fun _ => rfl) c
    have hclosings : Machine.closings { m with log := m.log ++ [.aborted n] } c = m.closings c := by
      simp [Machine.closings]
    exact Nat.le_of_eq (congrArg₂ (· + ·) hwaiting hclosings.symm)
  | @closeCycle n cyc dev checked hu hc hd =>
    have hid : cyc.id = n := by simpa using List.find?_some hc
    have hready := enqueue_ready dev (cyc.close checked) (h.closing dev (List.mem_of_find?_eq_some hd))
    have hqueued := queued_setDevice h.ids hd (fun dev => dev.enqueue (cyc.close checked)) c
    have hclosings : Machine.closings { m with log := m.log ++ [.closed n] } c =
        m.closings c + if n = c then 1 else 0 := by
      simp [Machine.closings, List.count_singleton]
    have hcycle : (cyc.close checked).cycle = n := hid
    rw [hready, List.countP_cons, hcycle] at hqueued
    simp only [beq_iff_eq] at hqueued
    change Machine.queued (m.setDevice cyc.device fun dev => dev.enqueue (cyc.close checked)) c +
        (m.stack.map (Frame.waits c)).sum + m.closings c ≤
      m.queued c + (m.stack.map (Frame.waits c)).sum + Machine.closings { m with log := m.log ++ [.closed n] } c
    rw [hclosings]
    omega
  | closeAgain | check | handler =>
    apply Nat.le_of_eq
    apply congrArg (· + m.closings c)
    exact waiting_stack c (by simp [Frame.waits])
  | @closeDevice d dev hu hd =>
    have hqueued := queued_setDevice h.ids hd (fun dev => { dev with ready := [], closing := true }) c
    simp only [List.countP_nil] at hqueued
    apply Nat.le_of_eq
    apply congrArg (· + m.closings c)
    simp only [waiting, Machine.setDevice, queued, ebSocketKillInflight, List.map_cons, List.sum_cons, Frame.waits,
      List.countP_reverse] at hqueued ⊢
    omega
  | timeout =>
    obtain ⟨first, last, -, hres⟩ := m.ebSocketTimeout_spec
    rw [hres]
    exact Nat.le_refl _
  | done hs =>
    apply Nat.le_of_eq
    apply congrArg (· + m.closings c)
    exact waiting_stack c (by simp [hs, Frame.waits])
  | writeBack widths addr value =>
    have hclosings := m.closings_writeBack widths addr value c
    obtain ⟨first, last, ⟨-, hres⟩ | ⟨pre, f, post, status, -, -, hres⟩⟩ := m.ebSocketWriteConfig_spec widths addr value
    · rw [hclosings, hres]
      exact Nat.le_refl _
    · rw [hclosings, hres, waiting_call]
      exact Nat.le_refl _
  | @breakLink _ d =>
    have hwaiting := waiting_setDevice (m := m) (d := d) (fun dev => { dev with link := false }) (fun _ => rfl) c
    exact Nat.le_of_eq (congrArg (· + m.closings c) hwaiting)

end Waiting

/-- A call of `eb_socket_run`: the readings of the clock, in microseconds, what happens in its two checks, and
whether a descriptor becomes ready before `select` has slept for its time. -/
structure SocketRun where
  start : ℕ
  stop : ℕ
  first : List SocketAct
  second : List SocketAct
  woken : Bool

namespace SocketRun

def startSec (r : SocketRun) : ℕ := r.start / 1000000

def stopSec (r : SocketRun) : ℕ := r.stop / 1000000

/-- The steps of the call. -/
def acts (r : SocketRun) : List SocketAct :=
  .check r.startSec :: r.first ++ .timeout :: .check r.stopSec :: r.second

end SocketRun

/-- The time that `eb_socket_run` gives `select`, when it was called with `timeoutUs`. -/
def selectTimeout (timeoutUs : ℤ) (ebDeadline startSec : ℕ) : ℤ :=
  let timeoutUs := if timeoutUs = -1 then 600 * 1000000 else timeoutUs
  let ebTimeoutUs := ((ebDeadline : ℤ) - startSec) * 1000000
  let timeoutUs := if ebDeadline ≠ 0 ∧ timeoutUs > ebTimeoutUs then ebTimeoutUs else timeoutUs
  if timeoutUs < 0 then 0 else timeoutUs

/-- `eb_socket_run`: the socket after it, the time given to `select`, and the time returned. -/
def ebSocketRun (m : Machine) (timeoutUs : ℤ) (r : SocketRun) : Option (Machine × ℤ × ℤ) :=
  (run step m (.check r.startSec :: r.first)).bind fun m =>
    let (m, ebDeadline) := m.ebSocketTimeout
    (run step m (.check r.stopSec :: r.second)).map fun m =>
      (m, selectTimeout timeoutUs ebDeadline r.startSec, (r.stop : ℤ) - r.start)

/-- Where the checks of a run return. -/
def Returns (m : Machine) (r : SocketRun) : Prop :=
  ∃ m₁ m₂, m.OutermostCheck r.startSec r.first m₁ ∧ m₁.ebSocketTimeout.1.OutermostCheck r.stopSec r.second m₂

/-- The loop of `eb_cycle_block`: the socket is run while the callback of the cycle has not set the status.
`select` sleeps for its time when nothing wakes it. -/
inductive Blocks (c : ℕ) : Machine → List SocketRun → Machine → Prop where
  | nil (m : Machine) : Blocks c m [] m
  | run {m m' m'' : Machine} {r : SocketRun} {rs : List SocketRun} {timeout elapsed : ℤ} (hwaits : m.calls c = 0)
      (hrun : m.ebSocketRun (-1) r = some (m', timeout, elapsed)) (hreturns : m.Returns r)
      (hselect : r.woken = false → r.start + timeout ≤ r.stop) (hrest : Blocks c m' rs m'') : Blocks c m (r :: rs) m''

/-- The readings of the clock in a run: they do not go back, they are less than nine hours apart, and the checks
inside have times between them. -/
structure SocketRun.Paced (r : SocketRun) : Prop where
  le : r.start ≤ r.stop
  span : r.stopSec < r.startSec + 2 ^ 15
  clock : r.stopSec + 5 < 2 ^ 32
  inside : ∀ a ∈ r.first ++ r.second, StartsIn r.startSec r.stopSec a

/-- Between two runs: no call is in progress, and the clock is not ahead. -/
structure Resting (now : ℕ) (m : Machine) : Prop where
  distinct : m.Distinct
  exactly : m.ExactlyOnce
  clocked : m.Clocked
  sorted : (m.tickets.map Ticket.due).Pairwise (· ≤ ·)
  clock : m.timeCache ≤ now
  idle : m.stack = []

/-- A closed cycle has left its device, and its response is due at a time. -/
structure Sent (c due : ℕ) (m : Machine) : Prop where
  closed : m.closings c = 1
  waiting : m.waiting c = 0
  due : ∀ t ∈ m.tickets, t.cycle = c → t.due ≤ due

/-- What is kept within a run. -/
structure Sound (r : SocketRun) (m : Machine) : Prop where
  distinct : m.Distinct
  exactly : m.ExactlyOnce
  running : m.Running r.startSec r.stopSec

/-- The conditions on the steps of a run. -/
def InRun (r : SocketRun) (m : Machine) (a : SocketAct) : Prop := m.Prompt a ∧ StartsIn r.startSec r.stopSec a

section Runs

variable {m m' m₁ m₂ : Machine} {a : SocketAct} {r : SocketRun} {c due now time : ℕ}

theorem SocketRun.startSec_le (h : r.start ≤ r.stop) : r.startSec ≤ r.stopSec := Nat.div_le_div_right h

theorem Sound.step (h : m.Sound r) (hspan : r.stopSec < r.startSec + 2 ^ 15) (hc : InRun r m a)
    (hs : m.step a = some m') : m'.Sound r where
  distinct := h.distinct.step hs
  exactly := (h.distinct.settled_iff h.exactly hs).mpr hc.1.1
  running := h.running.moves hspan hc.1.2.1 hc.2 (step_moves hs)

theorem Resting.sound (h : m.Resting now) (hr : r.Paced) (hnow : now ≤ r.startSec)
    (hnear : ∀ t ∈ m.tickets, r.stopSec < t.due + 2 ^ 15) : m.Sound r where
  distinct := h.distinct
  exactly := h.exactly
  running :=
    { clocked := h.clocked
      sorted := h.sorted
      near := hnear
      clock := by
        have hle := SocketRun.startSec_le hr.le
        have hclock := h.clock
        omega
      times := by simp [h.idle]
      fresh := .inr (by simp [h.idle]) }

theorem Sound.resting (h : m.Sound r) (hidle : m.stack = []) : m.Resting r.stopSec :=
  ⟨h.distinct, h.exactly, h.running.clocked, h.running.sorted, h.running.clock, hidle⟩

theorem Sent.moves (h : m.Sent c due) (hd : m.Distinct) (hm : Moves m a m') : m'.Sent c due where
  closed := hd.closed_moves hm h.closed
  waiting := by
    have hwaiting := hd.waiting_moves hm c
    rw [h.closed, hd.closed_moves hm h.closed, h.waiting] at hwaiting
    omega
  due t ht hcycle := by
    cases moves_issue hm ht with
    | inl hold => exact h.due t hold hcycle
    | inr hnew =>
      obtain ⟨d, p, mtu, w, todo, buffer, stack, hs, hw, -⟩ := hnew
      have hwaiting := h.waiting
      have hone : Frame.waits c (.flush d p mtu (w :: todo) buffer) = todo.countP (fun w => w.cycle == c) + 1 := by
        rw [Frame.waits, List.countP_cons, if_pos (by simp [← hw, hcycle])]
      rw [Machine.waiting, hs, List.map_cons, List.sum_cons, hone] at hwaiting
      omega

/-- A cycle that was sent is called back, or its response is in flight. -/
theorem Sent.ticket (h : m.Sent c due) (hr : m.Resting now) (hcalls : m.calls c = 0) : ∃ t ∈ m.tickets, t.cycle = c := by
  have hone := hr.exactly.closed c h.closed
  have hflight : m.inFlight c = m.tickets.countP fun t => t.cycle == c := by
    rw [inFlight, hr.idle]
    rfl
  rw [h.waiting, hcalls, hflight] at hone
  obtain ⟨t, ht, hcycle⟩ := List.countP_pos_iff.mp (show 0 < m.tickets.countP fun t => t.cycle == c by omega)
  exact ⟨t, ht, beq_iff_eq.mp hcycle⟩

/-- The log only grows. -/
theorem moves_log (hm : Moves m a m') : m.log <+: m'.log := by
  cases hm with
  | abort | closeCycle => exact List.prefix_append _ _
  | timeout =>
    obtain ⟨first, last, -, hres⟩ := m.ebSocketTimeout_spec
    rw [hres]
  | next alloc ht =>
    cases ht with
    | expire hs he =>
      rw [call, List.append_assoc]
      exact List.prefix_append _ _
    | flushCall | killCall | closeCall => exact List.prefix_append _ _
    | _ => exact List.prefix_refl _
  | writeBack widths addr value =>
    obtain ⟨first, last, ⟨-, hres⟩ | ⟨pre, f, post, status, -, -, hres⟩⟩ := m.ebSocketWriteConfig_spec widths addr value
    · rw [hres]
    · rw [hres]
      exact List.prefix_append _ _
  | _ => exact List.prefix_refl _

theorem calls_run {acts : List SocketAct} (hrun : run step m acts = some m') : m.calls c ≤ m'.calls c := by
  have hlog : m.log <+: m'.log :=
    run_keeps (I := fun x => m.log <+: x.log) (fun hI hs => hI.trans (moves_log (step_moves hs))) (List.prefix_refl _) hrun
  exact hlog.sublist.countP_le

end Runs

section Runs

variable {m m' m₁ m₂ : Machine} {r : SocketRun} {rs : List SocketRun} {c due now time : ℕ}

/-- The first check of a run sets the clock. -/
theorem Sound.first_check (h : m.Sound r) (hr : r.Paced) (hcheck : m.OutermostCheck r.startSec r.first m₁)
    (hobeys : Obeys Machine.step (InRun r) m (.check r.startSec :: r.first)) :
    m₁.Sound r ∧ r.startSec ≤ m₁.timeCache ∧ m₁.Aligned r.startSec := by
  apply hcheck.ticked (C := InRun r) (I := Sound r) (Q := fun m => r.startSec ≤ m.timeCache ∧ m.Aligned r.startSec)
  · exact fun hm hc hs => hm.step hr.span hc hs
  · rintro m a m' hm ⟨hset, haligned⟩ hc hs
    refine ⟨?_, hm.running.aligned_moves haligned (step_moves hs)⟩
    cases moves_phase (step_moves hs) with
    | keep hclock | check _ hclock | late _ _ hclock => exact hclock ▸ hset
    | tick _ hstack hclock =>
      rw [hclock]
      exact (hm.running.times _ (hstack ▸ List.mem_cons_self) _ rfl).1
  · intro m alloc hm hc hstack he
    refine ⟨Nat.le_refl _, (hm.running.expired hr.clock he).imp id fun hbeyond f hf => ?_⟩
    exact hbeyond _ (last_mem hf)
  · exact hobeys
  · exact h

/-- The query between the two checks. -/
theorem Sound.query (h : m.Sound r) (hspan : r.stopSec < r.startSec + 2 ^ 15) (hidle : m.stack = []) :
    m.ebSocketTimeout.1.Sound r ∧ m.step .timeout = some m.ebSocketTimeout.1 := by
  have hcall : m.step .timeout = some m.ebSocketTimeout.1 := by rw [Machine.step, if_pos (by rw [userTurn, hidle])]
  have hin : InRun r m .timeout := ⟨⟨trivial, trivial, trivial⟩, fun now ha => by cases ha⟩
  exact ⟨h.step hspan hin hcall, hcall⟩

/-- The second check of a run leaves nothing that was due when the run began. -/
theorem Sound.second_check (h : m.Sound r) (hr : r.Paced) (hlast : ∀ f ∈ m.last, r.startSec < f.due)
    (hcheck : m.OutermostCheck r.stopSec r.second m₂)
    (hobeys : Obeys Machine.step (InRun r) m (.check r.stopSec :: r.second)) : m₂.Sound r ∧ m₂.Beyond r.startSec := by
  have hends := hcheck.ticked (C := InRun r) (I := fun m => m.Sound r ∧ ∀ f ∈ m.last, r.startSec < f.due)
    (Q := Beyond r.startSec)
    (fun hm hc hs => ⟨hm.1.step hr.span hc hs, hm.1.running.last_moves hm.2 (step_moves hs)⟩)
    (fun hm hq hc hs => hm.1.running.beyond_moves (Nat.le_refl _) hq (step_moves hs))
    (fun {m alloc} hm hc hstack he => by
      rcases hm.1.running.expired hr.clock he with hfirst | hbeyond
      · intro t ht
        obtain ⟨f, hf, rfl⟩ := List.mem_map.mp ht
        have hmem : f ∈ m.last := by simpa [queue, hfirst] using hf
        exact hm.2 f hmem
      · intro t ht
        exact Nat.lt_of_le_of_lt (SocketRun.startSec_le hr.le) (hbeyond t ht))
    hobeys ⟨h, hlast⟩
  exact ⟨hends.1.1, hends.2⟩

/-- The sleep of a run ends no earlier than the second of its first deadline. -/
theorem Sound.sleep (h : m.Sound r) (hr : r.Paced) (hbeyond : m.Beyond time) (htime : time ≤ r.startSec)
    (hqueue : m.queue ≠ []) (hselect : r.start + selectTimeout (-1) m.ebSocketTimeout.2 r.startSec ≤ r.stop) :
    time < r.stopSec := by
  obtain ⟨f, rest, hq⟩ := List.exists_cons_of_ne_nil hqueue
  have hmem : f ∈ m.queue := hq ▸ List.mem_cons_self
  have hdeadline : m.ebSocketTimeout.2 = f.due := by
    rw [ebSocketTimeout_eq, hq]
    exact h.running.deadlineAt hr.clock hmem
  have hdue : time < f.due := hbeyond _ (ticket_mem hmem)
  have hle := hr.le
  rw [hdeadline, selectTimeout] at hselect
  simp only [SocketRun.startSec, SocketRun.stopSec] at *
  split_ifs at hselect <;> omega

theorem Sound.beyond_run {acts : List SocketAct} (h : m.Sound r) (hspan : r.stopSec < r.startSec + 2 ^ 15)
    (htime : time ≤ r.startSec) (hbeyond : m.Beyond time) (hobeys : Obeys Machine.step (InRun r) m acts)
    (hrun : StepRuns.run Machine.step m acts = some m') : m'.Beyond time := by
  have hsteps : ∀ {m a m'}, Machine.Sound r m ∧ m.Beyond time → InRun r m a → m.step a = some m' →
      Machine.Sound r m' ∧ m'.Beyond time :=
    fun hm hc hs => ⟨hm.1.step hspan hc hs, hm.1.running.beyond_moves htime hm.2 (step_moves hs)⟩
  exact (run_invariant hsteps ⟨h, hbeyond⟩ hobeys hrun).2

/-- A check finishes what was closed before it. -/
theorem OutermostCheck.finished {acts : List SocketAct} (hcheck : m.OutermostCheck now acts m') (hdistinct : m.Distinct)
    (hclocked : m.Clocked) (hobeys : Obeys Machine.step Prompt m (.check now :: acts)) :
    m'.Finished (fun c => m.closings c = 1) now := by
  have hcall : m.step (.check now) = some { m with stack := .check now .expire :: m.stack } := by
    rw [Machine.step, if_pos (by rw [userTurn, hcheck.idle])]
  have hmoves := step_moves hcall
  have hrun := hcheck.run
  rw [run_cons, hcall] at hrun
  have hinside : ∀ part t, part <+: acts → part ≠ acts →
      StepRuns.run Machine.step { m with stack := .check now .expire :: m.stack } part = some t → t.stack ≠ [] := by
    intro part t hpart hne hpartrun
    apply hcheck.inside part t hpart hne
    rw [run_cons, hcall]
    exact hpartrun
  exact ((within_check m now hcheck.idle).run_finished (hdistinct.moves hmoves) (hclocked.moves hobeys.1.2.1 hmoves)
    (hobeys.2 _ hcall) hrun hinside hcheck.returned).1

/-- After the first check a cycle closed before it has left its device. -/
theorem OutermostCheck.sent {acts : List SocketAct} (hcheck : m.OutermostCheck now acts m') (hdistinct : m.Distinct)
    (hclocked : m.Clocked) (hobeys : Obeys Machine.step Prompt m (.check now :: acts)) (hclocked' : m'.Clocked)
    (hclosed : m.closings c = 1) : m'.Sent c (now + 5) := by
  have hfinished := hcheck.finished hdistinct hclocked hobeys
  refine ⟨closings_run hdistinct hcheck.run hclosed, ?_, fun t ht _ => ?_⟩
  · rw [Machine.waiting, hfinished.stack, List.map_nil, List.sum_nil, Nat.add_zero, queued, List.countP_eq_zero]
    intro w hw hcycle
    obtain ⟨dev, hdev, hready⟩ := List.mem_flatMap.mp hw
    have hcycle : w.cycle = c := beq_iff_eq.mp hcycle
    exact hfinished.pending dev.id ⟨dev, hdev, rfl, w, hready, hcycle ▸ hclosed⟩
  · exact Nat.le_trans (hclocked'.due t ht) (Nat.add_le_add_right hfinished.clock 5)

/-- What a run does: its first check, the query, and its second check. -/
theorem ebSocketRun_spec {timeoutUs timeout elapsed : ℤ} (hrun : m.ebSocketRun timeoutUs r = some (m', timeout, elapsed))
    (hreturns : m.Returns r) : ∃ m₁, m.OutermostCheck r.startSec r.first m₁ ∧
      m₁.ebSocketTimeout.1.OutermostCheck r.stopSec r.second m' ∧
      timeout = selectTimeout timeoutUs m₁.ebSocketTimeout.2 r.startSec := by
  obtain ⟨m₁, m₂, hfirst, hsecond⟩ := hreturns
  rw [ebSocketRun, hfirst.run] at hrun
  dsimp only [Option.bind_some] at hrun
  rw [hsecond.run] at hrun
  cases hrun
  exact ⟨m₁, hfirst, hsecond, rfl⟩

theorem ebSocketRun_acts {timeoutUs timeout elapsed : ℤ} (hrun : m.ebSocketRun timeoutUs r = some (m', timeout, elapsed))
    (hreturns : m.Returns r) : StepRuns.run Machine.step m r.acts = some m' := by
  obtain ⟨m₁, hfirst, hsecond, -⟩ := ebSocketRun_spec hrun hreturns
  have hquery : m₁.step .timeout = some m₁.ebSocketTimeout.1 := by
    rw [Machine.step, if_pos (by rw [userTurn, hfirst.returned])]
  rw [SocketRun.acts, run_append, hfirst.run, Option.bind_some, run_cons, hquery]
  exact hsecond.run

/-- A run between two times of rest: the state at its query, and what it leaves. -/
theorem Resting.run {timeoutUs timeout elapsed : ℤ} (h : m.Resting now) (hr : r.Paced) (hnow : now ≤ r.startSec)
    (hnear : ∀ t ∈ m.tickets, r.stopSec < t.due + 2 ^ 15) (hobeys : Obeys Machine.step Prompt m r.acts)
    (hrun : m.ebSocketRun timeoutUs r = some (m', timeout, elapsed)) (hreturns : m.Returns r) :
    ∃ m₁, m.OutermostCheck r.startSec r.first m₁ ∧ Obeys Machine.step (InRun r) m (.check r.startSec :: r.first) ∧
      m₁.Sound r ∧ timeout = selectTimeout timeoutUs m₁.ebSocketTimeout.2 r.startSec ∧
      (∃ acts, StepRuns.run Machine.step m₁ acts = some m') ∧ m'.Resting r.stopSec ∧ m'.Beyond r.startSec := by
  obtain ⟨m₁, hfirst, hsecond, htimeout⟩ := ebSocketRun_spec hrun hreturns
  have hstarts : ∀ a ∈ r.acts, StartsIn r.startSec r.stopSec a := by
    have hle := SocketRun.startSec_le hr.le
    intro a ha
    rw [SocketRun.acts] at ha
    simp only [List.cons_append, List.mem_cons, List.mem_append] at ha
    rcases ha with rfl | ha | rfl | rfl | ha
    · intro now hnow
      cases hnow
      exact ⟨Nat.le_refl _, hle⟩
    · exact hr.inside a (List.mem_append_left _ ha)
    · intro now hnow
      cases hnow
    · intro now hnow
      cases hnow
      exact ⟨hle, Nat.le_refl _⟩
    · exact hr.inside a (List.mem_append_right _ ha)
  obtain ⟨hobeys₁, hobeys₂⟩ := (hobeys.and_forall hstarts).append hfirst.run
  obtain ⟨hsound₁, -, haligned⟩ := (h.sound hr hnow hnear).first_check hr hfirst hobeys₁
  obtain ⟨hsound, hquery⟩ := hsound₁.query hr.span hfirst.returned
  have hrest : StepRuns.run Machine.step m₁ (.timeout :: .check r.stopSec :: r.second) = some m' := by
    rw [run_cons, hquery]
    exact hsecond.run
  obtain ⟨hsound₂, hbeyond⟩ := hsound.second_check hr haligned.last_due hsecond (hobeys₂.2 _ hquery)
  exact ⟨m₁, hfirst, hobeys₁, hsound₁, htimeout, ⟨_, hrest⟩, hsound₂.resting hsecond.returned, hbeyond⟩

end Runs

/-- The clock between two runs. -/
def Follows (r r' : SocketRun) : Prop := r.stop ≤ r'.start ∧ r'.stopSec < r.startSec + 2 ^ 15

section Loops

variable {m m' : Machine} {r : SocketRun} {rs : List SocketRun} {c due : ℕ}

theorem Sent.run {acts : List SocketAct} (h : m.Sent c due) (hd : m.Distinct)
    (hrun : StepRuns.run Machine.step m acts = some m') : m'.Sent c due :=
  (run_keeps (I := fun x => x.Distinct ∧ x.Sent c due)
    (fun hI hs => ⟨hI.1.step hs, hI.2.moves hI.1 (step_moves hs)⟩) ⟨hd, h⟩ hrun).2

/-- The loop behind a run, for a cycle that has been sent: it goes on only before the response is due; and two runs
that sleep for their times make the clock go on by a second. -/
theorem Blocks.sent (h : Blocks c m rs m') (hrest : m.Resting r.stopSec) (hbeyond : m.Beyond r.startSec)
    (hsent : m.Sent c due) (hpaced : ∀ x ∈ rs, x.Paced) (hchain : (r :: rs).IsChain Follows)
    (hobeys : Obeys step Prompt m (rs.flatMap SocketRun.acts)) :
    (∀ x ∈ (r :: rs).dropLast, x.startSec < due) ∧
      (r.start ≤ r.stop → (∀ x ∈ rs, x.woken = false) →
        rs.length ≤ 1 ∨ rs.length + r.startSec + r.stopSec ≤ 2 * due) := by
  induction h generalizing r with
  | nil => exact ⟨fun x hx => absurd hx List.not_mem_nil, fun _ _ => .inl (Nat.zero_le _)⟩
  | @run m m' m'' r' rs timeout elapsed hwaits hrun hreturns hselect hblocks ih =>
    obtain ⟨hpaced', hpaceds⟩ := List.forall_mem_cons.mp hpaced
    obtain ⟨⟨hfollows, hgap⟩, hchain'⟩ := List.isChain_cons_cons.mp hchain
    have hstart : r.stopSec ≤ r'.startSec := Nat.div_le_div_right hfollows
    have hnear : ∀ t ∈ m.tickets, r'.stopSec < t.due + 2 ^ 15 := by
      intro t ht
      have hdue := hbeyond t ht
      omega
    have hstarted : r.startSec < due := by
      obtain ⟨t, ht, hcycle⟩ := hsent.ticket hrest hwaits
      exact Nat.lt_of_lt_of_le (hbeyond t ht) (hsent.due t ht hcycle)
    rw [List.flatMap_cons] at hobeys
    have hacts := ebSocketRun_acts hrun hreturns
    obtain ⟨hobeys₁, hobeys₂⟩ := hobeys.append hacts
    obtain ⟨m₁, hfirst, hin, hsound, rfl, ⟨acts, hlater⟩, hrest', hbeyond'⟩ :=
      hrest.run hpaced' hstart hnear hobeys₁ hrun hreturns
    have hsent' : m'.Sent c due := hsent.run hrest.distinct hacts
    obtain ⟨hstarts, hlength⟩ := ih hrest' hbeyond' hsent' hpaceds hchain' hobeys₂
    refine ⟨?_, fun hle hquiet => ?_⟩
    · rw [List.dropLast_cons_of_ne_nil (List.cons_ne_nil _ _)]
      exact List.forall_mem_cons.mpr ⟨hstarted, hstarts⟩
    · obtain ⟨hasleep, hquiets⟩ := List.forall_mem_cons.mp hquiet
      rw [List.length_cons]
      cases hblocks with
      | nil => exact .inl (Nat.le_refl _)
      | @run _ _ _ r'' rs _ _ hwaits' =>
        -- the cycle still waits after the run, so a response was in flight when the run slept
        have hqueue : m₁.queue ≠ [] := by
          have hcalls : m₁.calls c = 0 := Nat.le_zero.mp (hwaits' ▸ calls_run hlater)
          obtain ⟨t, ht, -⟩ := (hsent.run hrest.distinct hfirst.run).ticket (hsound.resting hfirst.returned) hcalls
          intro hnil
          rw [tickets, hnil] at ht
          cases ht
        have hbeyond₁ : m₁.Beyond r.startSec := (hrest.sound hpaced' hstart hnear).beyond_run hpaced'.span
          (Nat.le_trans (SocketRun.startSec_le hle) hstart) hbeyond hin hfirst.run
        have hslept := hsound.sleep hpaced' hbeyond₁ (Nat.le_trans (SocketRun.startSec_le hle) hstart) hqueue (hselect hasleep)
        have hnext : r'.startSec < due := hstarts r' (by simp)
        rw [List.length_cons] at hlength ⊢
        have hle' := SocketRun.startSec_le hle
        cases hlength hpaced'.le hquiets with
        | inl hone => omega
        | inr hmore => omega

/-- Responses are due in the order in which they were issued. -/
theorem prompt_sorted {acts : List SocketAct} (hobeys : Obeys step Prompt {} acts) (hrun : run step {} acts = some m) :
    (m.tickets.map Ticket.due).Pairwise (· ≤ ·) := by
  have hsteps : ∀ {m : Machine} {a : SocketAct} {m' : Machine}, m.Clocked ∧ (m.tickets.map Ticket.due).Pairwise (· ≤ ·) → m.Prompt a →
      m.step a = some m' → m'.Clocked ∧ (m'.tickets.map Ticket.due).Pairwise (· ≤ ·) :=
    fun hm hc hs => ⟨hm.1.moves hc.2.1 (step_moves hs), hm.1.sorted_moves hm.2 (step_moves hs)⟩
  exact (run_invariant hsteps ⟨start_clocked, List.Pairwise.nil⟩ hobeys hrun).2

/-- A blocking call ends. Its cycle is called back in the first run that begins five seconds after the call or later;
and when no descriptor becomes ready, in the eleventh run at the latest. -/
theorem blocking_ends {pre : List SocketAct} (hreach : run step {} pre = some m)
    (hobeys : Obeys step Prompt {} (pre ++ (r :: rs).flatMap SocketRun.acts)) (hclosed : m.closings c = 1)
    (hblocks : Blocks c m (r :: rs) m') (hpaced : ∀ x ∈ r :: rs, x.Paced) (hchain : (r :: rs).IsChain Follows)
    (hclock : m.timeCache ≤ r.startSec) (hnear : ∀ f ∈ m.queue, r.stopSec < f.due + 2 ^ 15) :
    (∀ x ∈ (r :: rs).dropLast, x.startSec < r.startSec + 5) ∧
      ((∀ x ∈ r :: rs, x.woken = false) → (r :: rs).length ≤ 11) := by
  obtain ⟨hpast, hfuture⟩ := hobeys.append hreach
  obtain ⟨hdistinct, hexactly, hclocked⟩ := prompt_run hpast hreach
  obtain ⟨hr, hrs⟩ := List.forall_mem_cons.mp hpaced
  rw [List.flatMap_cons] at hfuture
  cases hblocks with
  | @run _ m'' _ _ _ timeout elapsed hwaits hrun hreturns hselect hrest =>
    obtain ⟨hobeys₁, hobeys₂⟩ := hfuture.append (ebSocketRun_acts hrun hreturns)
    have hidle : m.stack = [] := by
      obtain ⟨m₁, m₂, hfirst, -⟩ := hreturns
      exact hfirst.idle
    have hresting : m.Resting r.startSec := ⟨hdistinct, hexactly, hclocked, prompt_sorted hpast hreach, hclock, hidle⟩
    have hnear' : ∀ t ∈ m.tickets, r.stopSec < t.due + 2 ^ 15 := by
      intro t ht
      obtain ⟨f, hf, rfl⟩ := List.mem_map.mp ht
      exact hnear f hf
    obtain ⟨m₁, hfirst, -, hsound, -, ⟨acts, hlater⟩, hresting', hbeyond⟩ :=
      hresting.run hr (Nat.le_refl _) hnear' hobeys₁ hrun hreturns
    have hsent := hfirst.sent hdistinct hclocked (hobeys₁.append hfirst.run).1 hsound.running.clocked hclosed
    obtain ⟨hstarts, hlength⟩ := hrest.sent hresting' hbeyond (hsent.run hsound.distinct hlater) hrs hchain hobeys₂
    refine ⟨hstarts, fun hquiet => ?_⟩
    have hle := SocketRun.startSec_le hr.le
    rw [List.length_cons]
    cases hlength hr.le (List.forall_mem_cons.mp hquiet).2 with
    | inl hone => omega
    | inr hmore => omega

end Loops

end Machine

namespace Sample
open Machine

/-- The turns of a check that finds nothing to do. -/
def idleCheck : List SocketAct := List.replicate 6 (.next true)

/-- A descriptor wakes the first run, and the second one sleeps until the read expires. -/
def wokenRun : SocketRun := ⟨0, 1500000, flushCheck, idleCheck, true⟩

def expiringRun : SocketRun := ⟨2000000, 5000000, idleCheck, .next true :: .done :: idleCheck, false⟩

/-- The read is sent in the first run and called back in the second one. -/
def readSent : Machine := (run step (queuedReads 1) (.check 0 :: flushCheck)).getD {}

def readWoken : Machine := (run step readSent.ebSocketTimeout.1 (.check 1 :: idleCheck)).getD {}

def readDue : Machine := (run step readWoken (.check 2 :: idleCheck)).getD {}

def readExpired : Machine := (run step readDue.ebSocketTimeout.1 (.check 5 :: expiringRun.second)).getD {}

theorem startsIn_turns {start stop : ℕ} {acts : List SocketAct} (h : ∀ a ∈ acts, ∀ now, a ≠ .check now) :
    ∀ a ∈ acts, StartsIn start stop a :=
  fun a ha now hnow => absurd hnow (h a ha now)

theorem readRuns_block : Blocks 1 (queuedReads 1) [wokenRun, expiringRun] readExpired := by
  have hfirst := @outermost_of_busy (queuedReads 1) readSent 0 flushCheck rfl rfl (by decide) rfl
  have hsecond := @outermost_of_busy readSent.ebSocketTimeout.1 readWoken 1 idleCheck rfl rfl (by decide) rfl
  have hthird := @outermost_of_busy readWoken readDue 2 idleCheck rfl rfl (by decide) rfl
  have hfourth := @outermost_of_busy readDue.ebSocketTimeout.1 readExpired 5 expiringRun.second rfl rfl (by decide) rfl
  refine .run (by decide) (show _ = some (readWoken, 5000000, 1500000) from rfl) ⟨_, _, hfirst, hsecond⟩ (by decide) ?_
  refine .run (by decide) (show _ = some (readExpired, 3000000, 3000000) from rfl) ⟨_, _, hthird, hfourth⟩ (by decide) ?_
  exact .nil _

theorem blockedRead_ends :
    (∀ x ∈ [wokenRun, expiringRun].dropLast, x.startSec < wokenRun.startSec + 5) ∧
      ((∀ x ∈ [wokenRun, expiringRun], x.woken = false) → [wokenRun, expiringRun].length ≤ 11) := by
  have hpaced : ∀ x ∈ [wokenRun, expiringRun], x.Paced := by
    intro x hx
    rcases List.mem_cons.mp hx with rfl | hx
    · exact ⟨by decide, by decide, by decide, startsIn_turns (by simp [wokenRun, flushCheck, idleCheck])⟩
    · rw [List.mem_singleton.mp hx]
      exact ⟨by decide, by decide, by decide, startsIn_turns (by simp [expiringRun, idleCheck])⟩
  exact @blocking_ends (queuedReads 1) readExpired wokenRun [expiringRun] 1 closeRead rfl (by decide) (by decide)
    readRuns_block hpaced (by simp [List.isChain_cons_cons, Machine.Follows]; decide) (by decide)
    (fun f hf => absurd hf List.not_mem_nil)

end Sample

end WhiteRabbit.Etherbone
