import WhiteRabbit.StrandedCycles

/-!
# What a check leaves of the responses

A check sets the clock when it leaves its expiry loop, and only after that it issues responses. The
loop works on the first of the two lists, so a response of the second list outlives a check at its
deadline. A query for the next deadline before the check moves it to the first list.
-/

namespace WhiteRabbit.Etherbone
open StepRuns

/-- The time of a check on the stack. -/
def Frame.time : Frame → Option ℕ
  | .check now _ => some now
  | _ => none

/-- Whether the call has not set the clock, and runs in no check that has. -/
def Frame.early : Frame → Bool
  | .check _ .expire => true
  | .check _ _ => false
  | .flush _ _ _ _ _ => false
  | _ => true

/-- A deadline is rebuilt when the clock is not more than nine hours behind it. -/
theorem deadlineAt_near {timeCache due : ℕ} (hclock : timeCache + 5 < 2 ^ 32) (hle : due ≤ timeCache + 5)
    (hnear : timeCache < due + 2 ^ 15) : deadlineAt timeCache (due % 2 ^ 16) = due := by
  by_cases hdue : timeCache ≤ due
  · have hdelta : (due % 2 ^ 16 + 2 ^ 16 - timeCache % 2 ^ 16) % 2 ^ 16 = due - timeCache := by omega
    rw [deadlineAt, hdelta, if_pos (by omega)]
    omega
  · have hdelta : (due % 2 ^ 16 + 2 ^ 16 - timeCache % 2 ^ 16) % 2 ^ 16 = 2 ^ 16 - (timeCache - due) := by omega
    rw [deadlineAt, hdelta, if_neg (by omega)]
    omega

namespace Machine

/-- What a step does to the clock and to the calls on the stack. -/
inductive PhaseStep (m : Machine) (a : SocketAct) (m' : Machine) : Prop where
  | keep (hclock : m'.timeCache = m.timeCache)
      (hstack : ∀ frame ∈ m'.stack, frame ∈ m.stack ∨ frame.time = none ∧ frame.early = true)
  | check {now : ℕ} (ha : a = .check now) (hclock : m'.timeCache = m.timeCache)
      (hstack : m'.stack = .check now .expire :: m.stack)
  | tick {now : ℕ} {stack : List Frame} {alloc : Bool} (ha : a = .next alloc)
      (hs : m.stack = .check now .expire :: stack) (hclock : m'.timeCache = now)
      (hstack : m'.stack = .check now .poll :: stack)
  | late {frame : Frame} {frames stack : List Frame} (hs : m.stack = frame :: stack) (hlate : frame.early = false)
      (hclock : m'.timeCache = m.timeCache) (hstack : m'.stack = frames ++ stack)
      (htime : ∀ f ∈ frames, ∀ now ∈ f.time, frame.time = some now)

/-- What a step does to the two lists of responses. -/
inductive ListStep (m m' : Machine) : Prop where
  | refill (hlast : m'.last = [])
  | keep (hlast : m'.last = m.last) (hfirst : m.first = [] → m'.first = [])
  | issue (f : Flight) (hlast : m'.last = f :: m.last) (hfirst : m'.first = m.first) (hdue : f.due = m.timeCache + 5)
      (hlate : ∃ frame ∈ m.stack, frame.early = false)

section Steps

variable {m m' : Machine} {a : SocketAct}

theorem turns_phase (alloc : Bool) (ht : Turns m m') : PhaseStep m (.next alloc) m' := by
  have hpush : ∀ {m'' : Machine} {frame : Frame}, m''.timeCache = m.timeCache → m''.stack = frame :: m.stack →
      frame.time = none ∧ frame.early = true → PhaseStep m (.next alloc) m'' := by
    intro m'' frame hclock hstack hframe
    refine .keep hclock fun f hf => ?_
    rw [hstack] at hf
    cases List.mem_cons.mp hf with
    | inl heq => exact .inr (heq ▸ hframe)
    | inr hold => exact .inl hold
  cases ht with
  | expire hs he => exact hpush rfl rfl ⟨rfl, rfl⟩
  | tick hs he => exact .tick rfl hs rfl rfl
  | @poll now stack hs =>
    refine .late hs rfl rfl (show _ = [.check now (.devices (m.devices.head?.map Device.id))] ++ stack from rfl) ?_
    simp [Frame.time]
  | @returned now stack hs => exact .late hs rfl rfl (show _ = [] ++ stack from rfl) (by simp)
  | @visit now d stack dev hs =>
    refine .late hs rfl rfl (show _ = [.check now (.slave d (following d m.devices))] ++ stack from rfl) ?_
    simp [Frame.time]
  | @skip now d next stack dev hs =>
    refine .late hs rfl rfl (show _ = [.check now (.devices next)] ++ stack from rfl) ?_
    simp [Frame.time]
  | @flush now d next stack dev hs =>
    refine .late hs rfl rfl (show _ = [.flush d dev.port dev.mtu dev.ready.reverse (FlushState.start m.rba),
      .check now (.devices next)] ++ stack from rfl) ?_
    simp [Frame.time]
  | @flushEnd d mtu p buffer stack hs => exact .late hs rfl rfl (show _ = [] ++ stack from rfl) (by simp)
  | @flushCall d mtu p c todo buffer buffer' stack _ _ _ hs hf =>
    refine .late hs rfl rfl (show _ = [.callback, .flush d p mtu todo buffer'] ++ stack from rfl) ?_
    simp [Frame.time]
  | @flushIssue d mtu _ p c todo buffer buffer' stack _ hs hf =>
    refine .late hs rfl rfl (show _ = [.flush d p mtu todo buffer'] ++ stack from rfl) ?_
    simp [Frame.time]
  | killEnd hs | closeEnd hs =>
    refine .keep rfl fun f hf => .inl ?_
    rw [hs]
    exact List.mem_cons_of_mem _ hf
  | @killCall f bads stack hs =>
    refine .keep rfl fun f hf => ?_
    rw [hs]
    rcases List.mem_cons.mp hf with rfl | hf
    · exact .inr ⟨rfl, rfl⟩
    · rcases List.mem_cons.mp hf with rfl | hf
      · exact .inr ⟨rfl, rfl⟩
      · exact .inl (List.mem_cons_of_mem _ hf)
  | @closeCall d c todo stack hs =>
    refine .keep rfl fun f hf => ?_
    rw [hs]
    rcases List.mem_cons.mp hf with rfl | hf
    · exact .inr ⟨rfl, rfl⟩
    · rcases List.mem_cons.mp hf with rfl | hf
      · exact .inr ⟨rfl, rfl⟩
      · exact .inl (List.mem_cons_of_mem _ hf)

theorem moves_phase (hm : Moves m a m') : PhaseStep m a m' := by
  have hpush : ∀ {m'' : Machine} {frames : List Frame}, m''.timeCache = m.timeCache → m''.stack = frames ++ m.stack →
      (∀ frame ∈ frames, frame.time = none ∧ frame.early = true) → PhaseStep m a m'' := by
    intro m'' frames hclock hstack hframes
    refine .keep hclock fun f hf => ?_
    rw [hstack] at hf
    cases List.mem_append.mp hf with
    | inl hnew => exact .inr (hframes f hnew)
    | inr hold => exact .inl hold
  cases hm with
  | idle | openDevice | openCycle | operate | abort | closeCycle | breakLink =>
    exact hpush rfl (List.nil_append _).symm (by simp)
  | @closeAgain d => exact hpush rfl (show _ = [.close d []] ++ m.stack from rfl) (by simp [Frame.time, Frame.early])
  | @closeDevice d dev =>
    refine hpush rfl (show _ = [.kill (m.queue.filter fun f => f.response.device == d), .close d dev.ready.reverse] ++
      m.stack from rfl) ?_
    simp [Frame.time, Frame.early]
  | timeout =>
    obtain ⟨first, last, -, hres⟩ := m.ebSocketTimeout_spec
    rw [hres]
    exact hpush rfl (List.nil_append _).symm (by simp)
  | check now => exact .check rfl rfl rfl
  | done hs =>
    refine .keep rfl fun f hf => .inl ?_
    rw [hs]
    exact List.mem_cons_of_mem _ hf
  | next alloc ht => exact turns_phase alloc ht
  | writeBack widths addr value =>
    obtain ⟨first, last, ⟨-, hres⟩ | ⟨pre, f, post, status, -, -, hres⟩⟩ :=
      m.ebSocketWriteConfig_spec widths addr value
    · rw [hres]
      exact hpush rfl (List.nil_append _).symm (by simp)
    · rw [hres]
      exact hpush rfl (show _ = [.callback] ++ m.stack from rfl) (by simp [Frame.time, Frame.early])
  | handler => exact hpush rfl (show _ = [.callback] ++ m.stack from rfl) (by simp [Frame.time, Frame.early])

/-- A write-back refills the first list, or leaves the second one alone. -/
theorem ebSocketWriteConfig_list (widths addr value : ℕ) : ListStep m (m.ebSocketWriteConfig widths addr value) := by
  rw [ebSocketWriteConfig]
  generalize (fun f : Flight => f.response.address != addr &&& 0xFFFE) = other
  by_cases hall : m.first.all other = true
  · simp only [hall, if_true]
    apply ListStep.refill
    split
    · rfl
    · split <;> rfl
  · have hne : m.first ≠ [] := fun h => hall (by rw [h]; rfl)
    simp only [hall, Bool.false_eq_true, if_false]
    have hlast : ∀ {m'' : Machine}, m''.last = m.last → ListStep m m'' := fun h => .keep h fun hnil => absurd hnil hne
    apply hlast
    split
    · rfl
    · split <;> rfl

theorem turns_list (ht : Turns m m') : ListStep m m' := by
  cases ht with
  | expire hs he =>
    refine .keep rfl fun hnil => ?_
    rw [(expiring_spec he).1] at hnil
    cases hnil
  | @flushIssue d mtu address p c todo buffer buffer' stack alloc hs hf =>
    exact .issue _ rfl rfl rfl ⟨_, hs ▸ List.mem_cons_self, rfl⟩
  | _ => exact .keep rfl id

theorem moves_list (hm : Moves m a m') : ListStep m m' := by
  cases hm with
  | closeDevice => exact .refill rfl
  | timeout =>
    rw [ebSocketTimeout]
    by_cases hfirst : m.first.isEmpty = true
    · simp only [hfirst, if_true]
      exact .refill rfl
    · simp only [hfirst, Bool.false_eq_true, if_false]
      exact .keep rfl id
  | next alloc ht => exact turns_list ht
  | writeBack widths addr value => exact m.ebSocketWriteConfig_list widths addr value
  | _ => exact .keep rfl id

/-- A response in flight was there before, or is issued for the next cycle of a flush. -/
theorem moves_issue (hm : Moves m a m') {t : Ticket} (ht : t ∈ m'.tickets) :
    t ∈ m.tickets ∨ ∃ d p mtu w todo buffer stack, m.stack = .flush d p mtu (w :: todo) buffer :: stack ∧
      t.cycle = w.cycle ∧ t.due = m.timeCache + 5 := by
  have hkeep : m'.issued = m.issued → t ∈ m.tickets := by
    intro hissued
    cases moves_tickets hm with
    | keep hsub _ _ => exact hsub.subset ht
    | issue _ _ _ _ _ _ _ hnext => omega
  cases hm with
  | next alloc hturn =>
    cases hturn with
    | @flushIssue d mtu address p c todo buffer buffer' stack alloc hs hf =>
      rw [tickets, queue, issue, List.reverse_cons, ← List.append_assoc, List.map_append, List.map_singleton] at ht
      cases List.mem_append.mp ht with
      | inl hold => exact .inl hold
      | inr hnew =>
        rw [List.mem_singleton.mp hnew]
        exact .inr ⟨d, p, mtu, c, todo, buffer, stack, hs, rfl, rfl⟩
    | _ => exact .inl (hkeep rfl)
  | timeout =>
    obtain ⟨first, last, -, hres⟩ := m.ebSocketTimeout_spec
    exact .inl (hkeep (by rw [hres]))
  | writeBack widths addr value =>
    obtain ⟨first, last, ⟨-, hres⟩ | ⟨pre, f, post, status, -, -, hres⟩⟩ := m.ebSocketWriteConfig_spec widths addr value
    · exact .inl (hkeep (by rw [hres]))
    · exact .inl (hkeep (by rw [hres]; rfl))
  | _ => exact .inl (hkeep rfl)

end Steps

/-- In a call that runs from `start` to `stop`: the checks have their times in it, and responses are issued only
when the clock has been set in it. All responses are near enough for their deadlines to be rebuilt. -/
structure Running (start stop : ℕ) (m : Machine) : Prop where
  clocked : m.Clocked
  sorted : (m.tickets.map Ticket.due).Pairwise (· ≤ ·)
  near : ∀ t ∈ m.tickets, stop < t.due + 2 ^ 15
  clock : m.timeCache ≤ stop
  times : ∀ frame ∈ m.stack, ∀ now ∈ frame.time, start ≤ now ∧ now ≤ stop
  fresh : start ≤ m.timeCache ∨ ∀ frame ∈ m.stack, frame.early = true

/-- A check that is started between two times. -/
def StartsIn (start stop : ℕ) (a : SocketAct) : Prop := ∀ now, a = .check now → start ≤ now ∧ now ≤ stop

/-- Everything in flight is due after the time. -/
def Beyond (time : ℕ) (m : Machine) : Prop := ∀ t ∈ m.tickets, time < t.due

/-- What a query for the next deadline leaves on the second list is due after the time. -/
def Aligned (time : ℕ) (m : Machine) : Prop := m.first = [] ∨ ∀ f ∈ m.last, time < f.due

section Calls

variable {start stop time : ℕ} {m m' : Machine} {a : SocketAct}

theorem last_mem {f : Flight} (hf : f ∈ m.last) : f.ticket ∈ m.tickets :=
  ticket_mem (List.mem_append_right _ (List.mem_reverse.mpr hf))

/-- A response is issued only after the clock was set. -/
theorem Running.issue_fresh (h : m.Running start stop) (hlate : ∃ frame ∈ m.stack, frame.early = false) :
    start ≤ m.timeCache := by
  cases h.fresh with
  | inl hset => exact hset
  | inr hearly =>
    obtain ⟨frame, hmem, hframe⟩ := hlate
    rw [hearly frame hmem] at hframe
    cases hframe

theorem Running.clock_moves (h : m.Running start stop) (hm : Moves m a m') : m'.timeCache ≤ stop := by
  cases moves_phase hm with
  | keep hclock => exact hclock ▸ h.clock
  | check _ hclock => exact hclock ▸ h.clock
  | @tick now stack alloc _ hs hclock =>
    rw [hclock]
    exact (h.times (.check now .expire) (hs ▸ List.mem_cons_self) now rfl).2
  | late _ _ hclock => exact hclock ▸ h.clock

theorem Running.times_moves (h : m.Running start stop) (hin : StartsIn start stop a) (hm : Moves m a m') :
    ∀ frame ∈ m'.stack, ∀ now ∈ frame.time, start ≤ now ∧ now ≤ stop := by
  intro frame hframe now hnow
  cases moves_phase hm with
  | keep _ hstack =>
    cases hstack frame hframe with
    | inl hold => exact h.times frame hold now hnow
    | inr hnew =>
      rw [hnew.1] at hnow
      cases hnow
  | @check time ha _ hstack =>
    rw [hstack] at hframe
    rcases List.mem_cons.mp hframe with rfl | hold
    · cases hnow
      exact hin now ha
    · exact h.times frame hold now hnow
  | @tick time stack alloc _ hs _ hstack =>
    rw [hstack] at hframe
    rcases List.mem_cons.mp hframe with rfl | hold
    · cases hnow
      exact h.times (.check now .expire) (hs ▸ List.mem_cons_self) now rfl
    · exact h.times frame (hs ▸ List.mem_cons_of_mem _ hold) now hnow
  | @late top frames stack hs _ _ hstack htime =>
    rw [hstack] at hframe
    cases List.mem_append.mp hframe with
    | inl hnew => exact h.times top (hs ▸ List.mem_cons_self) now (htime frame hnew now hnow)
    | inr hold => exact h.times frame (hs ▸ List.mem_cons_of_mem _ hold) now hnow

theorem Running.fresh_moves (h : m.Running start stop) (hm : Moves m a m') :
    start ≤ m'.timeCache ∨ ∀ frame ∈ m'.stack, frame.early = true := by
  cases moves_phase hm with
  | keep hclock hstack =>
    rw [hclock]
    refine h.fresh.imp_right fun hearly frame hframe => ?_
    cases hstack frame hframe with
    | inl hold => exact hearly frame hold
    | inr hnew => exact hnew.2
  | check _ hclock hstack =>
    rw [hclock, hstack]
    refine h.fresh.imp_right fun hearly frame hframe => ?_
    rcases List.mem_cons.mp hframe with rfl | hold
    · rfl
    · exact hearly frame hold
  | @tick now stack alloc _ hs hclock =>
    rw [hclock]
    exact .inl (h.times (.check now .expire) (hs ▸ List.mem_cons_self) now rfl).1
  | @late top frames stack hs hlate hclock =>
    rw [hclock]
    exact .inl (h.issue_fresh ⟨top, hs ▸ List.mem_cons_self, hlate⟩)

/-- What is in flight was there before, or is due five seconds after the clock that was set in the call. -/
theorem Running.issued (h : m.Running start stop) (hm : Moves m a m') {t : Ticket} (ht : t ∈ m'.tickets) :
    t ∈ m.tickets ∨ start ≤ m.timeCache ∧ t.due = m.timeCache + 5 := by
  refine (moves_issue hm ht).imp_right fun ⟨d, p, mtu, w, todo, buffer, stack, hs, _, hdue⟩ => ⟨?_, hdue⟩
  exact h.issue_fresh ⟨.flush d p mtu (w :: todo) buffer, hs ▸ List.mem_cons_self, rfl⟩

/-- Responses are issued in the order of their deadlines. -/
theorem Clocked.sorted_moves (h : m.Clocked) (hsorted : (m.tickets.map Ticket.due).Pairwise (· ≤ ·))
    (hm : Moves m a m') : (m'.tickets.map Ticket.due).Pairwise (· ≤ ·) := by
  cases moves_tickets hm with
  | keep hsub => exact hsorted.sublist (hsub.map _)
  | issue t htickets _ _ hdue =>
    rw [htickets, List.map_append, List.pairwise_append]
    refine ⟨hsorted, List.pairwise_singleton _ _, fun x hx y hy => ?_⟩
    obtain ⟨u, hu, rfl⟩ := List.mem_map.mp hx
    rw [List.map_singleton, List.mem_singleton] at hy
    rw [hy, hdue]
    exact h.due u hu

theorem Running.moves (h : m.Running start stop) (hspan : stop < start + 2 ^ 15) (hnested : m.Nested a)
    (hin : StartsIn start stop a) (hm : Moves m a m') : m'.Running start stop where
  clocked := h.clocked.moves hnested hm
  sorted := h.clocked.sorted_moves h.sorted hm
  near t ht := by
    cases h.issued hm ht with
    | inl hold => exact h.near t hold
    | inr hnew => omega
  clock := h.clock_moves hm
  times := h.times_moves hin hm
  fresh := h.fresh_moves hm

/-- The deadline of a response in flight is rebuilt as it was. -/
theorem Running.deadlineAt (h : m.Running start stop) (hstop : stop + 5 < 2 ^ 32) {f : Flight} (hf : f ∈ m.queue) :
    deadlineAt m.timeCache f.response.deadline = f.due := by
  have hdue := h.clocked.due _ (ticket_mem hf)
  have hdeadline := h.clocked.deadline _ (ticket_mem hf)
  have hnear := h.near _ (ticket_mem hf)
  have hclock := h.clock
  simp only [Flight.ticket_due] at hdue hnear
  rw [show f.response.deadline = f.ticket.deadline from rfl, hdeadline, Flight.ticket_due]
  exact deadlineAt_near (by omega) hdue (by omega)

theorem Running.head_due (h : m.Running start stop) {f : Flight} {rest : List Flight} (hqueue : m.queue = f :: rest) :
    ∀ t ∈ m.tickets, f.due ≤ t.due := by
  have hsorted := h.sorted
  rw [tickets, hqueue, List.map_cons, List.map_cons, List.pairwise_cons] at hsorted
  intro t ht
  rw [tickets, hqueue, List.map_cons] at ht
  cases List.mem_cons.mp ht with
  | inl heq =>
    rw [heq]
    exact Nat.le_refl _
  | inr hrest => exact hsorted.1 _ (List.mem_map_of_mem hrest)

/-- Where the expiry loop ends before the end of the first list, all that is in flight is due after the check. -/
theorem Running.expired (h : m.Running start stop) (hstop : stop + 5 < 2 ^ 32) {now : ℕ}
    (he : m.expiring now = none) : m.first = [] ∨ m.Beyond now := by
  refine (expiring_none he).imp_right fun ⟨f, rest, hfirst, hdue⟩ t ht => ?_
  have hqueue : m.queue = f :: (rest ++ m.last.reverse) := by rw [queue, hfirst, List.cons_append]
  rw [h.deadlineAt hstop (hqueue ▸ List.mem_cons_self)] at hdue
  exact Nat.lt_of_lt_of_le hdue (h.head_due hqueue t ht)

theorem Running.beyond_moves (h : m.Running start stop) (htime : time ≤ start) (hbeyond : m.Beyond time)
    (hm : Moves m a m') : m'.Beyond time := by
  intro t ht
  cases h.issued hm ht with
  | inl hold => exact hbeyond t hold
  | inr hnew => omega

theorem Running.aligned_moves (h : m.Running start stop) (haligned : m.Aligned start) (hm : Moves m a m') :
    m'.Aligned start := by
  cases moves_list hm with
  | refill hlast => exact .inr fun f hf => absurd (hlast ▸ hf) List.not_mem_nil
  | keep hlast hfirst => exact haligned.imp hfirst fun h f hf => h f (hlast ▸ hf)
  | issue g hlast hfirst hdue hlate =>
    refine haligned.imp (fun hnil => hfirst.trans hnil) fun h' f hf => ?_
    rw [hlast] at hf
    cases List.mem_cons.mp hf with
    | inl heq =>
      have := h.issue_fresh hlate
      rw [heq, hdue]
      omega
    | inr hold => exact h' f hold

/-- After a query for the next deadline, only responses due after the time are on the second list. -/
theorem Aligned.last_due (h : m.Aligned time) : ∀ f ∈ m.ebSocketTimeout.1.last, time < f.due := by
  rw [ebSocketTimeout]
  by_cases hfirst : m.first.isEmpty = true
  · simp [hfirst, refill]
  · simp only [hfirst, Bool.false_eq_true, if_false]
    exact h.resolve_left fun hnil => hfirst (List.isEmpty_iff.mpr hnil)

theorem Running.last_moves (h : m.Running start stop) (hlast : ∀ f ∈ m.last, start < f.due) (hm : Moves m a m') :
    ∀ f ∈ m'.last, start < f.due := by
  cases moves_list hm with
  | refill hnil => exact fun f hf => absurd (hnil ▸ hf) List.not_mem_nil
  | keep hsame => exact fun f hf => hlast f (hsame ▸ hf)
  | issue g hnew _ hdue hlate =>
    intro f hf
    rw [hnew] at hf
    cases List.mem_cons.mp hf with
    | inl heq =>
      have := h.issue_fresh hlate
      rw [heq, hdue]
      omega
    | inr hold => exact hlast f hold

end Calls

section Outermost

variable {C : Machine → SocketAct → Prop} {I Q : Machine → Prop} {s m : Machine} {now : ℕ} {acts : List SocketAct}

/-- A check that no other call encloses leaves its expiry loop before it returns. What holds then, and is kept, holds
when it returns. -/
theorem OutermostCheck.ticked (hcheck : s.OutermostCheck now acts m)
    (hkeep : ∀ {m a m'}, I m → C m a → m.step a = some m' → I m')
    (hstay : ∀ {m a m'}, I m → Q m → C m a → m.step a = some m' → Q m')
    (htick : ∀ {m alloc}, I m → C m (.next alloc) → m.stack = [.check now .expire] → m.expiring now = none →
      Q { m with timeCache := now, stack := [.check now .poll] })
    (hobeys : Obeys step C s (.check now :: acts)) (hI : I s) : I m ∧ Q m := by
  have hcall : s.step (.check now) = some { s with stack := .check now .expire :: s.stack } := by
    rw [step, if_pos (by rw [userTurn, hcheck.idle])]
  have hrun := hcheck.run
  rw [run_cons, hcall] at hrun
  have hsteps : ∀ {m a m'}, I m ∧ (Q m ∨ ∃ rest, m.stack = rest ++ [.check now .expire]) → C m a → m.step a = some m' →
      I m' ∧ (Q m' ∨ ∃ rest, m'.stack = rest ++ [.check now .expire]) := by
    rintro m a m' ⟨hm, hphase⟩ hc hstep
    refine ⟨hkeep hm hc hstep, ?_⟩
    cases hphase with
    | inl hq => exact .inl (hstay hm hq hc hstep)
    | inr hbottom =>
      have hmoves := step_moves hstep
      clear hstep
      obtain ⟨rest, hstack⟩ := hbottom
      cases moves_stack hmoves with
      | push frames hpush => exact .inr ⟨frames ++ rest, by rw [hpush, hstack, List.append_assoc]⟩
      | done stack hs' hpop =>
        cases rest with
        | nil => cases hstack.symm.trans hs'
        | cons frame rest =>
          cases hstack.symm.trans hs'
          exact .inr ⟨rest, hpop⟩
      | turn alloc ha ht frame frames stack hs' hnext =>
        cases rest with
        | nil =>
          subst ha
          cases ht with
          | expire hs he => exact .inr ⟨[.callback], congrArg (Frame.callback :: ·) hstack⟩
          | tick hs he =>
            cases hstack.symm.trans hs
            exact .inl (htick hm hc hstack he)
          | poll hs | returned hs | visit hs | skip hs | flush hs | flushEnd hs | flushCall hs | flushIssue hs
          | killEnd hs | killCall hs | closeEnd hs | closeCall hs => cases hstack.symm.trans hs
        | cons top rest =>
          cases hstack.symm.trans hs'
          exact .inr ⟨frames ++ rest, hnext.trans (List.append_assoc _ _ _).symm⟩
  have hstart : I { s with stack := .check now .expire :: s.stack } := hkeep hI hobeys.1 hcall
  obtain ⟨hend, hphase⟩ := run_invariant hsteps ⟨hstart, .inr ⟨[], by rw [hcheck.idle]; rfl⟩⟩ (hobeys.2 _ hcall) hrun
  refine ⟨hend, hphase.resolve_right ?_⟩
  rintro ⟨rest, hstack⟩
  rw [hcheck.returned] at hstack
  simp at hstack

end Outermost

end Machine

end WhiteRabbit.Etherbone
