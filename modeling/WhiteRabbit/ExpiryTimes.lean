import WhiteRabbit.ResponseTickets

/-!
# When responses expire

Deadlines are kept on 16 bits and rebuilt from the cached clock. The expiry loop of a check takes
them in the order in which the responses were issued, but it stops when the first of the two lists is
empty, and sets the clock after its callbacks have run.
-/

namespace WhiteRabbit.Etherbone
open StepRuns

/-- The time of a check that has left its expiry loop. -/
def Frame.passed : Frame → Option ℕ
  | .check _ .expire => none
  | .check now _ => some now
  | _ => none

namespace Machine

/-- The times of the checks on the stack that have left their expiry loops. -/
def passed (m : Machine) : List ℕ := m.stack.filterMap Frame.passed

/-- Responses expire at their deadlines: never earlier, and at the latest in the next check; and the
timeout query tells the next deadline. -/
structure ExpiryExact (m : Machine) : Prop where
  early : ∀ due now, .expired due now ∈ m.log → due ≤ now
  late : ∀ now ∈ m.passed, ∀ f ∈ m.queue, now < f.due
  zero : m.ebSocketTimeout.2 = 0 ↔ m.queue = []
  next : m.queue ≠ [] → (∃ f ∈ m.queue, m.ebSocketTimeout.2 = f.due) ∧ ∀ f ∈ m.queue, m.ebSocketTimeout.2 ≤ f.due

/-- When an expiry loop ends because the first list is empty, nothing on the second one is due; its
callbacks have not set the clock to a later time, and the clock fits into 32 bits. -/
def Timely (m : Machine) : SocketAct → Prop
  | .next _ =>
    match m.stack with
    | .check now .expire :: _ =>
      (m.expiring now).isNone = true →
        m.timeCache ≤ now ∧ now + 5 < 2 ^ 32 ∧ (m.first.isEmpty = true → ∀ f ∈ m.last, now < f.due)
    | _ => True
  | _ => True

instance (m : Machine) (a : SocketAct) : Decidable (m.Timely a) := by
  cases a with
  | next alloc =>
    rw [Timely]
    split
    · infer_instance
    · infer_instance
  | _ => exact inferInstanceAs (Decidable True)

/-- What a step does to the clock, to the checks and to the record of expired responses. -/
inductive ClockStep (m : Machine) (a : SocketAct) (m' : Machine) : Prop where
  | keep (hclock : m'.timeCache = m.timeCache) (hpassed : m'.passed ⊆ m.passed)
      (hlog : ∀ due now, .expired due now ∈ m'.log → .expired due now ∈ m.log)
  | expire {now : ℕ} {f : Flight} {rest : List Flight} (he : m.expiring now = some (f, rest))
      (hclock : m'.timeCache = m.timeCache) (hpassed : m'.passed ⊆ m.passed)
      (hlog : ∀ due n, .expired due n ∈ m'.log → .expired due n ∈ m.log ∨ due = f.due ∧ n = now)
  | tick {now : ℕ} {stack : List Frame} {alloc : Bool} (ha : a = .next alloc) (hs : m.stack = .check now .expire :: stack)
      (he : m.expiring now = none) (hclock : m'.timeCache = now) (htickets : m'.tickets = m.tickets)
      (hpassed : m'.passed ⊆ now :: m.passed) (hlog : m'.log = m.log)

section Steps

variable {m m' : Machine} {a : SocketAct}

/-- A step that keeps the clock and puts nothing but calls into the log. -/
theorem ClockStep.of_stack {frame : Frame} {stack : List Frame} (hs : m.stack = frame :: stack)
    (frames : List Frame) (hs' : m'.stack = frames ++ stack)
    (hframes : frames.filterMap Frame.passed ⊆ [frame].filterMap Frame.passed)
    (hclock : m'.timeCache = m.timeCache)
    (hlog : ∀ due now, .expired due now ∈ m'.log → .expired due now ∈ m.log) :
    ClockStep m a m' := by
  refine .keep hclock ?_ hlog
  have hsplit : m.stack = [frame] ++ stack := hs
  rw [passed, passed, hs', hsplit, List.filterMap_append, List.filterMap_append]
  exact List.append_subset.mpr ⟨List.Subset.trans hframes (List.subset_append_left _ _),
    List.subset_append_right _ _⟩

theorem call_log {c : ℕ} {status : Status} (due now : ℕ) (h : .expired due now ∈ (m.call c status).log) :
    .expired due now ∈ m.log := by
  simpa [call] using h

theorem turns_clock (alloc : Bool) (h : Turns m m') : ClockStep m (.next alloc) m' := by
  cases h with
  | expire hs he =>
    refine .expire he rfl ?_ fun due n hlog => ?_
    · exact List.Subset.refl _
    · simpa [call] using hlog
  | tick hs he =>
    refine .tick rfl hs he rfl rfl ?_ rfl
    rw [passed, passed, hs]
    exact List.Subset.refl _
  | @poll now stack hs =>
    exact .of_stack hs [.check now (.devices (m.devices.head?.map Device.id))] rfl (List.Subset.refl [now]) rfl
      fun _ _ => id
  | returned hs => exact .of_stack hs [] rfl (List.nil_subset _) rfl fun _ _ => id
  | @visit now d stack dev hs =>
    exact .of_stack hs [.check now (.slave d (following d m.devices))] rfl (List.Subset.refl [now]) rfl fun _ _ => id
  | @skip now d next stack dev hs =>
    exact .of_stack hs [.check now (.devices next)] rfl (List.Subset.refl [now]) rfl fun _ _ => id
  | @flush now d next stack dev hs =>
    exact .of_stack hs [.flush d dev.port dev.mtu dev.ready.reverse (FlushState.start m.rba),
      .check now (.devices next)]
      rfl (List.Subset.refl [now]) rfl fun _ _ => id
  | flushEnd hs => exact .of_stack hs [] rfl (List.nil_subset _) rfl fun _ _ => id
  | @flushCall d mtu p c todo buffer buffer' stack _ _ _ hs hf =>
    exact .of_stack hs [.callback, .flush d p mtu todo buffer'] rfl (List.nil_subset _) rfl call_log
  | @flushIssue d mtu _ p c todo buffer buffer' stack _ hs hf =>
    exact .of_stack hs [.flush d p mtu todo buffer'] rfl (List.nil_subset _) rfl fun _ _ => id
  | killEnd hs => exact .of_stack hs [] rfl (List.nil_subset _) rfl fun _ _ => id
  | @killCall f bads stack hs =>
    exact .of_stack hs [.callback, .kill bads] rfl (List.nil_subset _) rfl call_log
  | closeEnd hs => exact .of_stack hs [] rfl (List.nil_subset _) rfl fun _ _ => id
  | @closeCall d c todo stack hs =>
    exact .of_stack hs [.callback, .close d todo] rfl (List.nil_subset _) rfl call_log

theorem moves_clock (h : Moves m a m') : ClockStep m a m' := by
  cases h with
  | idle | openDevice | openCycle | operate | breakLink | closeAgain | check | handler | closeDevice =>
    exact .keep rfl (List.Subset.refl _) fun _ _ => id
  | abort | closeCycle =>
    refine .keep rfl (List.Subset.refl _) fun due n hlog => ?_
    simpa using hlog
  | timeout =>
    obtain ⟨first, last, -, hres⟩ := m.ebSocketTimeout_spec
    rw [hres]
    exact .keep rfl (List.Subset.refl _) fun _ _ => id
  | done hs => exact .of_stack hs [] rfl (List.nil_subset _) rfl fun _ _ => id
  | next alloc ht => exact turns_clock alloc ht
  | writeBack widths addr value =>
    obtain ⟨first, last, ⟨-, hres⟩ | ⟨pre, f, post, status, -, -, hres⟩⟩ :=
      m.ebSocketWriteConfig_spec widths addr value
    · rw [hres]
      exact .keep rfl (List.Subset.refl _) fun _ _ => id
    · rw [hres]
      exact .keep rfl (List.Subset.refl _) call_log

end Steps

/-- A response in flight is due within the five seconds behind the clock, in the order of issue. -/
structure Timed (m : Machine) : Prop where
  clock : m.timeCache + 5 < 2 ^ 32
  due : ∀ t ∈ m.tickets, m.timeCache < t.due ∧ t.due ≤ m.timeCache + 5
  deadline : ∀ t ∈ m.tickets, t.deadline = t.due % 2 ^ 16
  sorted : (m.tickets.map Ticket.due).Pairwise (· ≤ ·)
  passed : ∀ now ∈ m.passed, now ≤ m.timeCache
  log : ∀ due now, .expired due now ∈ m.log → due ≤ now

/-- The deadline can be rebuilt when it is near the clock. -/
theorem deadlineAt_eq {timeCache due : ℕ} (hclock : timeCache + 5 < 2 ^ 32) (hlt : timeCache < due)
    (hle : due ≤ timeCache + 5) : deadlineAt timeCache (due % 2 ^ 16) = due := by
  have hdelta : (due % 2 ^ 16 + 2 ^ 16 - timeCache % 2 ^ 16) % 2 ^ 16 = due - timeCache := by omega
  rw [deadlineAt, hdelta, if_pos (by omega)]
  omega

section Timing

variable {m m' : Machine} {a : SocketAct}

theorem Timed.deadlineAt (h : m.Timed) {f : Flight} (hf : f ∈ m.queue) :
    deadlineAt m.timeCache f.response.deadline = f.due := by
  obtain ⟨hlt, hle⟩ := h.due _ (ticket_mem hf)
  have hdeadline := h.deadline _ (ticket_mem hf)
  rw [show f.response.deadline = f.ticket.deadline from rfl, hdeadline]
  exact deadlineAt_eq h.clock hlt hle

/-- The first response is due first. -/
theorem Timed.head_due (h : m.Timed) {f : Flight} {rest : List Flight} (hfirst : m.first = f :: rest) :
    ∀ t ∈ m.tickets, f.due ≤ t.due := by
  have hsorted := h.sorted
  rw [tickets, queue, hfirst] at hsorted ⊢
  intro t ht
  rw [List.cons_append, List.map_cons, List.map_cons, List.pairwise_cons] at hsorted
  cases List.mem_cons.mp ht with
  | inl heq =>
    subst heq
    exact Nat.le_refl _
  | inr hrest => exact hsorted.1 _ (List.mem_map_of_mem hrest)

/-- An expiry loop that ends in time leaves nothing behind that is due. -/
theorem Timed.left (h : m.Timed) {now : ℕ} {stack : List Frame} {alloc : Bool}
    (hs : m.stack = .check now .expire :: stack) (he : m.expiring now = none) (hc : m.Timely (.next alloc)) :
    m.timeCache ≤ now ∧ now + 5 < 2 ^ 32 ∧ ∀ t ∈ m.tickets, now < t.due := by
  simp only [Timely, hs, he, Option.isNone_none, forall_const] at hc
  obtain ⟨hclock, hlt, hlast⟩ := hc
  refine ⟨hclock, hlt, fun t ht => ?_⟩
  obtain hempty | ⟨f, rest, hfirst, hdue⟩ := expiring_none he
  · obtain ⟨f, hf, rfl⟩ := List.mem_map.mp ht
    have hmem : f ∈ m.last := by simpa [queue, hempty] using hf
    exact hlast (by simp [hempty]) f hmem
  · have hmem : f ∈ m.queue := by simp [queue, hfirst]
    rw [h.deadlineAt hmem] at hdue
    exact Nat.lt_of_lt_of_le hdue (h.head_due hfirst t ht)

/-- A step that keeps the clock. -/
theorem Timed.keep (h : m.Timed) (ht : TicketStep m m') (hclock : m'.timeCache = m.timeCache)
    (hpassed : m'.passed ⊆ m.passed) (hlog : ∀ due now, .expired due now ∈ m'.log → due ≤ now) : m'.Timed := by
  have hp : ∀ now ∈ m'.passed, now ≤ m'.timeCache := fun now hnow => hclock ▸ h.passed now (hpassed hnow)
  cases ht with
  | keep hsub _ _ =>
    refine ⟨hclock ▸ h.clock, fun t ht => ?_, fun t ht => h.deadline t (hsub.subset ht),
      h.sorted.sublist (hsub.map _), hp, hlog⟩
    rw [hclock]
    exact h.due t (hsub.subset ht)
  | issue t htickets _ hdeadline hdue _ _ _ =>
    refine ⟨hclock ▸ h.clock, fun u hu => ?_, fun u hu => ?_, ?_, hp, hlog⟩
    · rw [htickets] at hu
      rw [hclock]
      cases List.mem_append.mp hu with
      | inl hold => exact h.due u hold
      | inr hnew =>
        rw [List.mem_singleton.mp hnew, hdue]
        omega
    · rw [htickets] at hu
      cases List.mem_append.mp hu with
      | inl hold => exact h.deadline u hold
      | inr hnew => rw [List.mem_singleton.mp hnew, hdeadline, hdue]
    · rw [htickets, List.map_append, List.pairwise_append]
      refine ⟨h.sorted, List.pairwise_singleton _ _, fun x hx y hy => ?_⟩
      obtain ⟨u, hu, rfl⟩ := List.mem_map.mp hx
      have hy : y = t.due := by simpa using hy
      rw [hy, hdue]
      exact (h.due u hu).2

theorem Timed.step (h : m.Timed) (hc : m.Timely a) (hs : m.step a = some m') : m'.Timed := by
  have htickets := moves_tickets (step_moves hs)
  cases moves_clock (step_moves hs) with
  | keep hclock hpassed hlog =>
    exact h.keep htickets hclock hpassed fun due now hmem => h.log due now (hlog due now hmem)
  | @expire now f rest he hclock hpassed hlog =>
    refine h.keep htickets hclock hpassed fun due n hmem => ?_
    cases hlog due n hmem with
    | inl hold => exact h.log due n hold
    | inr hnew =>
      obtain ⟨hfirst, hdue⟩ := expiring_spec he
      have hmem : f ∈ m.queue := by simp [queue, hfirst]
      rw [h.deadlineAt hmem] at hdue
      rw [hnew.1, hnew.2]
      exact hdue
  | @tick now stack alloc ha hstack he hclock htickets hpassed hlog =>
    subst ha
    obtain ⟨hle, hlt, hleft⟩ := h.left hstack he hc
    refine ⟨hclock ▸ hlt, fun t ht => ?_, fun t ht => h.deadline t (htickets ▸ ht), htickets ▸ h.sorted,
      fun n hn => ?_, fun due n hmem => h.log due n (hlog ▸ hmem)⟩
    · rw [htickets] at ht
      rw [hclock]
      have hdue := h.due t ht
      have hlate := hleft t ht
      omega
    · rw [hclock]
      cases List.mem_cons.mp (hpassed hn) with
      | inl heq => exact Nat.le_of_eq heq
      | inr hold => exact Nat.le_trans (h.passed n hold) hle

theorem start_timed : Timed {} :=
  ⟨by decide, fun _ h => absurd h List.not_mem_nil, fun _ h => absurd h List.not_mem_nil, List.Pairwise.nil,
    fun _ h => absurd h List.not_mem_nil, fun _ _ h => absurd h List.not_mem_nil⟩

/-- The query gives the deadline of the oldest response in flight. -/
theorem ebSocketTimeout_eq (m : Machine) :
    m.ebSocketTimeout.2 = (m.queue.head?.map fun f => deadlineAt m.timeCache f.response.deadline).getD 0 := by
  rw [ebSocketTimeout]
  cases hfirst : m.first with
  | nil =>
    simp only [List.isEmpty_nil, if_true, refill]
    cases hqueue : m.queue with
    | nil => rfl
    | cons f rest => rfl
  | cons f rest =>
    have hqueue : m.queue = f :: (rest ++ m.last.reverse) := by rw [queue, hfirst, List.cons_append]
    simp only [List.isEmpty_cons, Bool.false_eq_true, if_false, hfirst, hqueue, List.head?_cons, Option.map_some,
      Option.getD_some]

theorem Timed.expiryExact (h : m.Timed) : m.ExpiryExact := by
  have hhead : ∀ f rest, m.queue = f :: rest → m.ebSocketTimeout.2 = f.due := by
    intro f rest hqueue
    rw [ebSocketTimeout_eq, hqueue]
    exact h.deadlineAt (hqueue ▸ List.mem_cons_self)
  refine ⟨h.log, fun now hnow f hf => ?_, ?_, fun hne => ?_⟩
  · exact Nat.lt_of_le_of_lt (h.passed now hnow) (h.due _ (ticket_mem hf)).1
  · cases hqueue : m.queue with
    | nil => simp [ebSocketTimeout_eq, hqueue]
    | cons f rest =>
      rw [hhead f rest hqueue]
      have hpos := (h.due _ (ticket_mem (hqueue ▸ List.mem_cons_self : f ∈ m.queue))).1
      simp only [Flight.ticket_due] at hpos
      refine ⟨fun hzero => ?_, fun hnil => by cases hnil⟩
      omega
  · obtain ⟨f, rest, hqueue⟩ := List.exists_cons_of_ne_nil hne
    have hsorted := h.sorted
    rw [tickets, hqueue, List.map_cons, List.map_cons, List.pairwise_cons] at hsorted
    rw [hhead f rest hqueue, hqueue]
    refine ⟨⟨f, List.mem_cons_self, rfl⟩, fun g hg => ?_⟩
    cases List.mem_cons.mp hg with
    | inl heq => exact Nat.le_of_eq (congrArg Flight.due heq).symm
    | inr hrest => exact hsorted.1 _ (List.mem_map_of_mem (List.mem_map_of_mem hrest))

end Timing

/-- Along a run whose expiry loops all end in time, responses expire exactly at their deadlines. -/
theorem timely_run {acts : List SocketAct} {m : Machine} (hobeys : Obeys step Timely {} acts)
    (hrun : run step {} acts = some m) : m.ExpiryExact :=
  (run_invariant (fun hm hc hs => Timed.step hm hc hs) start_timed hobeys hrun).expiryExact

end Machine

namespace Sample
open Machine

/-- A check that flushes one read. -/
def sendRead (now cycle : ℕ) : List SocketAct :=
  queueRead 0 cycle ++ .check now :: List.replicate 7 (.next true)

/-- A read that expires in the check at its deadline. -/
def expiringRead : List SocketAct :=
  .openDevice narrowPort 0 :: (sendRead 0 1 ++ [.timeout, .check 5, .next true, .done, .next true])

theorem expiringRead_exact : ∃ m, run step {} expiringRead = some m ∧ m.ExpiryExact :=
  ⟨_, rfl, @timely_run expiringRead _ (by decide) rfl⟩

/-- A query moves the first read to the first list, and the second one is issued behind it. -/
def strandedRead : List SocketAct :=
  .openDevice narrowPort 0 ::
    (sendRead 0 1 ++ .timeout :: (sendRead 1 2 ++ [.check 100, .next true, .done, .next true]))

/-- The loop expires the first read only. -/
theorem strandedRead_late : ¬ ∀ m, run step {} strandedRead = some m → m.ExpiryExact := by
  intro h
  have hleft : (run step {} strandedRead).map (fun m => (m.passed, m.queue.map Flight.due)) = some ([100], [6]) := by
    decide
  obtain ⟨m, hm, hcounts⟩ := Option.map_eq_some_iff.mp hleft
  have hpassed : m.passed = [100] := congrArg Prod.fst hcounts
  have hdues : m.queue.map Flight.due = [6] := congrArg Prod.snd hcounts
  have hmem : 6 ∈ m.queue.map Flight.due := by simp [hdues]
  obtain ⟨f, hf, hdue⟩ := List.mem_map.mp hmem
  have hlate := (h m hm).late 100 (by simp [hpassed]) f hf
  rw [hdue] at hlate
  exact absurd hlate (by decide)

end Sample

end WhiteRabbit.Etherbone
