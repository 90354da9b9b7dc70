import WhiteRabbit.FlushContents
import WhiteRabbit.SocketMoves
import Mathlib.Data.List.TakeWhile

/-!
# What stays fixed about a response in flight

While a response is in flight only its operations and cursors change. The rest is its
ticket. A step either takes tickets out of the queue or puts one at its end.
-/

namespace WhiteRabbit.Etherbone

/-- The part of a response in flight that does not change. -/
structure Ticket where
  cycle : ℕ
  address : ℕ
  deadline : ℕ
  device : ℕ
  due : ℕ
  serial : ℕ
  deriving DecidableEq

def Flight.ticket (f : Flight) : Ticket where
  cycle := f.cycle
  address := f.response.address
  deadline := f.response.deadline
  device := f.response.device
  due := f.due
  serial := f.serial

@[simp] theorem Flight.ticket_cycle (f : Flight) : f.ticket.cycle = f.cycle := rfl

@[simp] theorem Flight.ticket_address (f : Flight) : f.ticket.address = f.response.address := rfl

@[simp] theorem Flight.ticket_due (f : Flight) : f.ticket.due = f.due := rfl

namespace Machine

variable {m m' : Machine}

def tickets (m : Machine) : List Ticket := m.queue.map Flight.ticket

theorem ticket_mem {f : Flight} (h : f ∈ m.queue) : f.ticket ∈ m.tickets := List.mem_map_of_mem h

@[simp] theorem refill_queue (m : Machine) : m.refill.queue = m.queue := by
  rw [refill, queue, List.reverse_nil, List.append_nil]

/-- A timeout query moves responses, but keeps the queue. -/
theorem ebSocketTimeout_spec (m : Machine) : ∃ first last, first ++ last.reverse = m.queue ∧
    m.ebSocketTimeout.1 = { m with first := first, last := last } := by
  rw [ebSocketTimeout]
  by_cases h : m.first.isEmpty = true
  · rw [if_pos h]
    exact ⟨m.queue, [], by simp, rfl⟩
  · rw [if_neg h]
    exact ⟨m.first, m.last, rfl, rfl⟩

/-- What a write-back does: nothing but a refill of the first list where no response has the address;
otherwise it is for the first one that has it, which stays where it is, or is complete and leaves. -/
inductive WrittenBack (m : Machine) (widths addr value : ℕ) : Machine → Prop where
  | unmatched (hnone : ∀ f ∈ m.queue, f.response.address ≠ addr &&& 0xFFFE) :
      WrittenBack m widths addr value { m with first := m.first ++ m.last.reverse, last := [] }
  | answered {first last before after : List Flight} {f : Flight} {r : Response}
      (hqueue : m.queue = before ++ f :: after) (hbefore : ∀ f ∈ before, f.response.address ≠ addr &&& 0xFFFE)
      (hf : f.response.address = addr &&& 0xFFFE) (hr : f.response.writeBack widths addr value = (r, none))
      (hqueue' : first ++ last.reverse = before ++ { f with response := r } :: after) :
      WrittenBack m widths addr value { m with first := first, last := last }
  | completed {first last before after : List Flight} {f : Flight} {r : Response} {status : Status}
      (hqueue : m.queue = before ++ f :: after) (hbefore : ∀ f ∈ before, f.response.address ≠ addr &&& 0xFFFE)
      (hf : f.response.address = addr &&& 0xFFFE) (hr : f.response.writeBack widths addr value = (r, some status))
      (hqueue' : first ++ last.reverse = before ++ after) :
      WrittenBack m widths addr value ({ m with first := first, last := last }.call f.cycle status)

theorem ebSocketWriteConfig_writtenBack (m : Machine) (widths addr value : ℕ) :
    WrittenBack m widths addr value (m.ebSocketWriteConfig widths addr value) := by
  rw [ebSocketWriteConfig]
  generalize hother : (fun f : Flight => f.response.address != addr &&& 0xFFFE) = other
  have hne : ∀ f, other f = true ↔ f.response.address ≠ addr &&& 0xFFFE := by
    intro f
    rw [← hother]
    exact bne_iff_ne
  obtain ⟨first, last, hqueue, hstart, hall⟩ : ∃ first last, first ++ last.reverse = m.queue ∧
      (if m.first.all other then m.refill else m) = { m with first := first, last := last } ∧
      (first.all other = true → first = m.first ++ m.last.reverse ∧ last = []) := by
    by_cases hfirst : m.first.all other = true
    · exact ⟨m.queue, [], List.append_nil _, if_pos hfirst, fun _ => ⟨rfl, rfl⟩⟩
    · exact ⟨m.first, m.last, rfl, if_neg hfirst, fun h => absurd h hfirst⟩
  simp only [hstart]
  cases hdrop : first.dropWhile other with
  | nil =>
    have hothers := List.dropWhile_eq_nil_iff.mp hdrop
    obtain ⟨rfl, rfl⟩ := hall (List.all_eq_true.mpr hothers)
    exact .unmatched fun f hf => (hne f).mp (hothers f hf)
  | cons f rest =>
    have hsplit : first = first.takeWhile other ++ f :: rest := by rw [← hdrop, List.takeWhile_append_dropWhile]
    have hqueue : m.queue = first.takeWhile other ++ f :: (rest ++ last.reverse) := by
      rw [← hqueue]
      nth_rewrite 1 [hsplit]
      rw [List.append_assoc, List.cons_append]
    have hbefore : ∀ f ∈ first.takeWhile other, f.response.address ≠ addr &&& 0xFFFE := fun f hf =>
      (hne f).mp (List.mem_takeWhile_imp hf)
    have hf : f.response.address = addr &&& 0xFFFE := by
      have hhead := List.head?_dropWhile_not other first
      rw [hdrop] at hhead
      by_contra hcon
      exact absurd ((hne f).mpr hcon) (by simpa using hhead)
    cases hr : f.response.writeBack widths addr value with
    | mk r done =>
      cases done with
      | none =>
        simp only [hr]
        apply WrittenBack.answered hqueue hbefore hf hr
        rw [List.append_assoc, List.cons_append]
      | some status =>
        simp only [hr]
        apply WrittenBack.completed hqueue hbefore hf hr
        rw [List.append_assoc]

/-- A write-back works on one response at most, and takes it out of the queue when it calls
its cycle. -/
theorem ebSocketWriteConfig_spec (m : Machine) (widths addr value : ℕ) : ∃ first last,
    ((first ++ last.reverse).map Flight.ticket = m.tickets ∧
      m.ebSocketWriteConfig widths addr value = { m with first := first, last := last }) ∨
    ∃ pre f post status, m.queue = pre ++ f :: post ∧ first ++ last.reverse = pre ++ post ∧
      m.ebSocketWriteConfig widths addr value =
        { m with first := first, last := last }.call f.cycle status := by
  have hwritten := m.ebSocketWriteConfig_writtenBack widths addr value
  generalize m.ebSocketWriteConfig widths addr value = m' at hwritten
  cases hwritten with
  | unmatched hnone => exact ⟨_, _, .inl ⟨by rw [List.reverse_nil, List.append_nil]; rfl, rfl⟩⟩
  | @answered first last before after f r hqueue hbefore hf hr hqueue' =>
    obtain ⟨haddr, hdead, hdev⟩ := f.response.writeBack_address widths addr value
    rw [hr] at haddr hdead hdev
    dsimp only at haddr hdead hdev
    have hsame : Flight.ticket { f with response := r } = f.ticket := by
      simp only [Flight.ticket, haddr, hdead, hdev]
    refine ⟨first, last, .inl ⟨?_, rfl⟩⟩
    rw [hqueue', tickets, hqueue, List.map_append, List.map_append, List.map_cons, List.map_cons, hsame]
  | @completed first last before after f r status hqueue hbefore hf hr hqueue' =>
    exact ⟨first, last, .inr ⟨before, f, after, status, hqueue, hqueue', rfl⟩⟩

theorem expiring_spec {now : ℕ} {f : Flight} {rest : List Flight} (h : m.expiring now = some (f, rest)) :
    m.first = f :: rest ∧ deadlineAt m.timeCache f.response.deadline ≤ now := by
  rw [expiring] at h
  split at h
  · simp at h
  · rename_i g gs hfirst
    split at h
    · rename_i hle
      cases h
      exact ⟨hfirst, hle⟩
    · simp at h

theorem expiring_none {now : ℕ} (h : m.expiring now = none) :
    m.first = [] ∨ ∃ f rest, m.first = f :: rest ∧ now < deadlineAt m.timeCache f.response.deadline := by
  rw [expiring] at h
  split at h
  · rename_i hfirst
    exact .inl hfirst
  · rename_i f rest hfirst
    split at h
    · simp at h
    · rename_i hlt
      exact .inr ⟨f, rest, hfirst, Nat.lt_of_not_le hlt⟩

/-- What a step does to the tickets in flight. -/
inductive TicketStep (m m' : Machine) : Prop where
  | keep (hsub : m'.tickets.Sublist m.tickets) (hrba : m'.rba = m.rba) (hissued : m'.issued = m.issued)
  | issue (t : Ticket) (htickets : m'.tickets = m.tickets ++ [t]) (haddress : t.address = m.rba)
      (hdeadline : t.deadline = (m.timeCache + 5) % 2 ^ 16) (hdue : t.due = m.timeCache + 5)
      (hserial : t.serial = m.issued) (hrba : m'.rba = nextRba m.rba)
      (hissued : m'.issued = m.issued + 1)

/-- A step that leaves the responses alone. -/
theorem TicketStep.same (hqueue : m'.queue = m.queue) (hrba : m'.rba = m.rba)
    (hissued : m'.issued = m.issued) : TicketStep m m' :=
  .keep (by rw [tickets, hqueue, tickets]) hrba hissued

theorem turns_tickets (h : Turns m m') : TicketStep m m' := by
  cases h with
  | expire hs he =>
    refine .keep ?_ rfl rfl
    rw [tickets, tickets, queue, queue, (expiring_spec he).1]
    exact ((List.sublist_cons_self _ _).append_right _).map _
  | tick | poll | returned | visit | skip | flush | flushEnd | killEnd | killCall | closeEnd | closeCall =>
    exact .same rfl rfl rfl
  | flushCall hs hf => exact .same rfl (flushCycle_rba hf) rfl
  | @flushIssue d _ address p c _ _ _ _ _ hs hf =>
    obtain ⟨haddress, hrba⟩ := flushCycle_rba hf
    refine .issue ⟨c.cycle, address, (m.timeCache + 5) % 2 ^ 16, d, m.timeCache + 5, m.issued⟩ ?_ haddress
      rfl rfl rfl hrba rfl
    rw [tickets, tickets, queue, queue, issue, List.reverse_cons, ← List.append_assoc, List.map_append]
    rfl

theorem moves_tickets {a : SocketAct} (h : Moves m a m') : TicketStep m m' := by
  cases h with
  | idle | openDevice | openCycle | operate | abort | closeCycle | closeAgain | check | done | handler
  | breakLink => exact .same rfl rfl rfl
  | closeDevice =>
    refine .keep ?_ rfl rfl
    rw [tickets, tickets, queue, ebSocketKillInflight, List.reverse_nil, List.append_nil]
    exact List.filter_sublist.map _
  | timeout =>
    obtain ⟨first, last, hqueue, hres⟩ := m.ebSocketTimeout_spec
    rw [hres]
    exact .same hqueue rfl rfl
  | next alloc ht => exact turns_tickets ht
  | writeBack widths addr value =>
    obtain ⟨first, last, ⟨hqueue, hres⟩ | ⟨pre, f, post, status, hqueue, hrest, hres⟩⟩ :=
      m.ebSocketWriteConfig_spec widths addr value
    · rw [hres]
      exact .keep (by rw [← hqueue]; exact List.Sublist.refl _) rfl rfl
    · rw [hres]
      refine .keep ?_ rfl rfl
      change ((first ++ last.reverse).map Flight.ticket).Sublist (m.queue.map Flight.ticket)
      rw [hrest, hqueue]
      exact ((List.sublist_cons_self _ _).append_left _).map _

end Machine

end WhiteRabbit.Etherbone
