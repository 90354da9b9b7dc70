import WhiteRabbit.ResponseTickets
import Mathlib.Data.List.Range

/-!
# Return addresses of the responses in flight

The return address is a counter of even numbers that wraps at the end of the upper half of
the 16-bit space, and the devices of a socket share it. So two responses in flight have the
same address exactly when a multiple of 16384 responses were set up from the one to the
other.
-/

namespace WhiteRabbit.Etherbone
open StepRuns

/-- The address of the response with a serial number. -/
def returnAddress (serial : ℕ) : ℕ := 0x8000 + 2 * (serial % 16384)

theorem returnAddress_eq_iff {i j : ℕ} : returnAddress i = returnAddress j ↔ i % 16384 = j % 16384 := by
  rw [returnAddress, returnAddress]
  omega

theorem nextRba_returnAddress (serial : ℕ) :
    nextRba (returnAddress serial) = returnAddress (serial + 1) := by
  have hor : ∀ x < 2 ^ 15, 0x8000 ||| x = 0x8000 + x := fun x hx => by
    rw [show 0x8000 = 2 ^ 15 * 1 from rfl, Nat.two_pow_add_eq_or_of_lt hx]
  rw [nextRba, returnAddress, returnAddress]
  by_cases h : serial % 16384 = 16383
  · have hnext : (serial + 1) % 16384 = 0 := by omega
    rw [h, hnext]
    rfl
  · have hnext : (serial + 1) % 16384 = serial % 16384 + 1 := by omega
    have hmod : (0x8000 + 2 * (serial % 16384) + 2) % 2 ^ 16 = 0x8000 + (2 * (serial % 16384) + 2) := by
      omega
    rw [hnext, hmod, ← hor _ (by omega), ← Nat.or_assoc, Nat.or_self, hor _ (by omega)]
    omega

namespace Machine

variable {m m' : Machine}

/-- The counter and the addresses follow the serial numbers. -/
structure Numbered (m : Machine) : Prop where
  rba : m.rba = returnAddress m.issued
  serial_lt : ∀ t ∈ m.tickets, t.serial < m.issued
  address : ∀ t ∈ m.tickets, t.address = returnAddress t.serial

theorem start_numbered : Numbered {} := ⟨rfl, by simp [tickets, queue], by simp [tickets, queue]⟩

theorem Numbered.step (h : m.Numbered) {a : SocketAct} (hs : m.step a = some m') : m'.Numbered := by
  cases moves_tickets (step_moves hs) with
  | keep hsub hrba hissued =>
    refine ⟨by rw [hrba, hissued, h.rba], fun t ht => ?_, fun t ht => h.address t (hsub.subset ht)⟩
    rw [hissued]
    exact h.serial_lt t (hsub.subset ht)
  | issue t htickets haddress _ _ hserial hrba hissued =>
    refine ⟨by rw [hrba, hissued, h.rba, nextRba_returnAddress], fun u hu => ?_, fun u hu => ?_⟩
    · rw [htickets] at hu
      rw [hissued]
      rcases List.mem_append.mp hu with hu | hu
      · exact Nat.lt_succ_of_lt (h.serial_lt u hu)
      · rw [List.mem_singleton.mp hu, hserial]
        exact Nat.lt_succ_self _
    · rw [htickets] at hu
      rcases List.mem_append.mp hu with hu | hu
      · exact h.address u hu
      · rw [List.mem_singleton.mp hu, haddress, hserial, h.rba]

/-- A response in flight can be told by its address: distinct even numbers in the upper half,
so that a write-back at the address, or next to it, finds that response only. -/
structure AddressesIdentify (m : Machine) : Prop where
  distinct : (m.queue.map fun f => f.response.address).Nodup
  even : ∀ f ∈ m.queue, 2 ∣ f.response.address
  upper : ∀ f ∈ m.queue, 0x8000 ≤ f.response.address ∧ f.response.address < 2 ^ 16
  credited : ∀ f ∈ m.queue, ∀ addr, addr = f.response.address ∨ addr = f.response.address + 1 →
    (m.queue.filter fun g => g.response.address == addr &&& 0xFFFE) = [f]

/-- When the step sets up a response, none is in flight that was set up a multiple of 16384
responses before. -/
def Spaced (m : Machine) (a : SocketAct) : Prop :=
  ∀ m', m.step a = some m' → m'.issued = m.issued + 1 →
    ∀ f ∈ m.queue, ¬ 16384 ∣ m.issued - f.serial

theorem addresses_eq (m : Machine) :
    (m.queue.map fun f => f.response.address) = m.tickets.map Ticket.address := by
  rw [tickets, List.map_map]
  rfl

/-- Whether the next step keeps the addresses distinct. -/
theorem Numbered.spaced_iff (h : m.Numbered) (hd : (m.tickets.map Ticket.address).Nodup) {a : SocketAct}
    (hs : m.step a = some m') : (m'.tickets.map Ticket.address).Nodup ↔ m.Spaced a := by
  cases moves_tickets (step_moves hs) with
  | keep hsub _ hissued =>
    refine ⟨fun _ u hu hi => ?_, fun _ => hd.sublist (hsub.map _)⟩
    cases hs.symm.trans hu
    omega
  | issue t htickets haddress _ _ hserial _ hissued =>
    have hclash : ∀ u ∈ m.tickets, u.address = t.address ↔ 16384 ∣ m.issued - u.serial := fun u hu => by
      have hlt := h.serial_lt u hu
      rw [h.address u hu, haddress, h.rba, returnAddress_eq_iff]
      omega
    rw [htickets, List.map_append, List.map_singleton, List.nodup_append]
    constructor
    · rintro ⟨-, -, hne⟩ u hu hi f hf hdvd
      exact hne _ (List.mem_map_of_mem (ticket_mem hf)) _ (List.mem_singleton_self _)
        ((hclash _ (ticket_mem hf)).mpr hdvd)
    · intro hspaced
      refine ⟨hd, List.nodup_singleton _, fun x hx y hy hxy => ?_⟩
      obtain ⟨u, hu, rfl⟩ := List.mem_map.mp hx
      obtain ⟨f, hf, rfl⟩ := List.mem_map.mp hu
      rw [List.mem_singleton.mp hy] at hxy
      exact hspaced m' hs hissued f hf ((hclash _ hu).mp hxy)

private theorem and_mask_even {a : ℕ} (h : 2 ∣ a) (ha : a < 2 ^ 16) :
    a &&& 0xFFFE = a ∧ (a + 1) &&& 0xFFFE = a := by
  have hmask : ∀ b < 2 ^ 16, b &&& 0xFFFE = b / 2 * 2 := fun b hb =>
    AlignedMasks.and_mask_of_lt (show 1 ≤ 16 by decide) hb
  rw [hmask a ha, hmask (a + 1) (by omega)]
  omega

/-- Among distinct keys only the element itself has its key. -/
private theorem filter_key {α : Type*} {key : α → ℕ} {l : List α} (hnd : (l.map key).Nodup) {x : α}
    (hx : x ∈ l) : (l.filter fun y => key y == key x) = [x] := by
  obtain ⟨pre, post, rfl⟩ := List.append_of_mem hx
  rw [List.map_append, List.map_cons, List.nodup_append, List.nodup_cons] at hnd
  obtain ⟨-, ⟨hpost, -⟩, hpre⟩ := hnd
  have hleft : (pre.filter fun y => key y == key x) = [] := by
    rw [List.filter_eq_nil_iff]
    intro y hy
    simpa using hpre _ (List.mem_map_of_mem hy) _ (List.mem_cons_self ..)
  have hright : (post.filter fun y => key y == key x) = [] := by
    rw [List.filter_eq_nil_iff]
    intro y hy he
    exact hpost (beq_iff_eq.mp he ▸ List.mem_map_of_mem hy)
  rw [List.filter_append, hleft, List.filter_cons_of_pos (by simp), hright, List.nil_append]

theorem Numbered.identify (h : m.Numbered) (hd : (m.tickets.map Ticket.address).Nodup) :
    m.AddressesIdentify := by
  have haddr : ∀ f ∈ m.queue, f.response.address = returnAddress f.serial := fun f hf =>
    h.address _ (ticket_mem hf)
  have hnd : (m.queue.map fun f => f.response.address).Nodup := by rwa [addresses_eq]
  have heven : ∀ f ∈ m.queue, 2 ∣ f.response.address := fun f hf => by
    rw [haddr f hf, returnAddress]
    omega
  have hupper : ∀ f ∈ m.queue, 0x8000 ≤ f.response.address ∧ f.response.address < 2 ^ 16 := fun f hf => by
    rw [haddr f hf, returnAddress]
    omega
  refine ⟨hnd, heven, hupper, fun f hf addr ha => ?_⟩
  obtain ⟨h0, h1⟩ := and_mask_even (heven f hf) (hupper f hf).2
  have hmask : addr &&& 0xFFFE = f.response.address := by
    rcases ha with rfl | rfl
    · exact h0
    · exact h1
  rw [hmask]
  exact filter_key hnd hf

/-- In a run the addresses identify the responses at every moment exactly when every step is
spaced. -/
theorem addressesIdentify_iff (acts : List SocketAct) :
    (∀ pre m, pre <+: acts → run step {} pre = some m → m.AddressesIdentify) ↔
      Obeys step Spaced {} acts := by
  have hnone : ∀ {m : Machine} {a : SocketAct}, m.step a = none → m.Spaced a := by
    intro m a hs m' hm'
    rw [hs] at hm'
    exact absurd hm' (by simp)
  have hstep : ∀ {m : Machine} {a : SocketAct} {m' : Machine}, m.Numbered →
      m.Numbered ∧ (m.tickets.map Ticket.address).Nodup → m.step a = some m' →
      m'.Numbered ∧ (m'.Numbered ∧ (m'.tickets.map Ticket.address).Nodup ↔ m.Spaced a) := by
    intro m a m' hI hP hs
    rw [← hI.spaced_iff hP.2 hs]
    exact ⟨hI.step hs, And.right, fun h => ⟨hI.step hs, h⟩⟩
  have hempty : (({} : Machine).tickets.map Ticket.address).Nodup := List.nodup_nil
  rw [← holds_iff_obeys hstep hnone start_numbered ⟨start_numbered, hempty⟩ acts]
  constructor
  · intro h pre m hpre hrun
    refine ⟨run_keeps (fun hI hs => Numbered.step hI hs) start_numbered hrun, ?_⟩
    rw [← addresses_eq]
    exact (h pre m hpre hrun).distinct
  · intro h pre m hpre hrun
    obtain ⟨hn, hd⟩ := h pre m hpre hrun
    exact hn.identify hd

end Machine

namespace Sample
open Machine

def queueReads : ℕ → List SocketAct
  | 0 => []
  | n + 1 => queueReads n ++ queueRead 0 (n + 1)

/-- Queue reads on a stream, and let a check flush them. -/
def flushReads (n : ℕ) : List SocketAct :=
  .openDevice narrowPort 0 :: (queueReads n ++ [.check 0, .next true, .next true, .next true, .next true]) ++
    List.replicate n (.next true)

def readyReads : ℕ → List Waiting
  | 0 => []
  | n + 1 => ⟨n + 1, { ops := [wordRead] }⟩ :: readyReads n

def queuedReads (n : ℕ) : Machine where
  devices := [{ id := 0, port := narrowPort, mtu := 0, ready := readyReads n }]
  nextId := n + 1
  log := (List.range n).map fun i => .closed (i + 1)

/-- The flush of the queued reads begins. -/
def flushingReads (n : ℕ) : Machine where
  devices := [{ id := 0, port := narrowPort, mtu := 0 }]
  nextId := n + 1
  stack := [.flush 0 narrowPort 0 (readyReads n).reverse (FlushState.start 0x8000), .check 0 (.devices none)]
  log := (List.range n).map fun i => .closed (i + 1)

private theorem queueRead_run (n : ℕ) :
    run step (queuedReads n) (queueRead 0 (n + 1)) = some (queuedReads (n + 1)) := by
  simp [queueRead, queuedReads, run, step, userTurn, ebCycleOpen, device?, setDevice, ebCycleDoop,
    cycle?, setCycle, ebCycleClose, dropCycle, Device.enqueue, OpenCycle.close, readyReads, wordRead,
    List.range_succ]

private theorem queueReads_run (n : ℕ) :
    run step {} (.openDevice narrowPort 0 :: queueReads n) = some (queuedReads n) := by
  induction n with
  | zero => rfl
  | succ n ih =>
    rw [queueReads, ← List.cons_append, run_append, ih]
    exact queueRead_run n

private theorem check_run (n : ℕ) :
    run step (queuedReads n) [.check 0, .next true, .next true, .next true, .next true] =
      some (flushingReads n) := rfl

private theorem flushCycle_read (s : FlushState) : ∃ s' address,
    s.flushCycle narrowPort 0 { ops := [wordRead] } = (s', .response address) := by
  have hcheck : checkOperations narrowPort [wordRead] = ([wordRead], none) := by decide
  obtain ⟨r, hencode, hreads⟩ :
      ∃ r : Record, encodeCycle narrowPort s.rba [wordRead] = some [r] ∧ r.HasReads :=
    ⟨_, rfl, List.cons_ne_nil wordRead.address []⟩
  obtain ⟨placed, hplace⟩ : ∃ placed, s.placeRecord narrowPort 0 r = (placed, true) := by
    rw [FlushState.placeRecord]
    split
    · exact ⟨_, rfl⟩
    · exact ⟨_, rfl⟩
  have hclose : ∃ q ∈ [r], q.HasReads := ⟨r, List.mem_singleton_self r, hreads⟩
  simp only [FlushState.flushCycle, hcheck, FlushState.formatCycle, hencode, Option.getD_some,
    FlushState.placeRecords, hplace, FlushState.closeCycle, if_pos hclose, List.cons_ne_nil,
    Bool.false_eq_true, if_false, Bool.true_eq_false]
  exact ⟨_, _, rfl⟩

private theorem flush_run {m : Machine} {todo : List Waiting} {buffer : FlushState} {stack : List Frame}
    (hs : m.stack = .flush 0 narrowPort 0 todo buffer :: stack)
    (htodo : ∀ c ∈ todo, c.content = { ops := [wordRead] }) :
    ∃ m', run step m (List.replicate todo.length (.next true)) = some m' ∧
      m'.tickets.map Ticket.serial =
        m.tickets.map Ticket.serial ++ List.range' m.issued todo.length := by
  induction todo generalizing m buffer with
  | nil => exact ⟨m, rfl, by simp⟩
  | cons c todo ih =>
    obtain ⟨buffer', address, hflush⟩ := flushCycle_read { buffer with rba := m.rba }
    have hcontent := htodo c (List.mem_cons_self ..)
    have hstep : m.step (.next true) = some (issue
        { m with rba := buffer'.rba, stack := .flush 0 narrowPort 0 todo buffer' :: stack } 0 c
        (checkOperations narrowPort c.content.ops).1 address) := by
      simp only [step, turn, hs, flushTurn, hcontent, hflush]
    obtain ⟨m', hrun, hserial⟩ := ih (m := issue
        { m with rba := buffer'.rba, stack := .flush 0 narrowPort 0 todo buffer' :: stack } 0 c
        (checkOperations narrowPort c.content.ops).1 address) rfl
        (fun c hc => htodo c (List.mem_cons_of_mem _ hc))
    refine ⟨m', ?_, ?_⟩
    · rw [List.length_cons, List.replicate_succ, run_cons, hstep]
      exact hrun
    · rw [hserial, List.length_cons, List.range'_succ]
      simp [tickets, queue, issue, Flight.ticket]

private theorem readyReads_spec (n : ℕ) : (readyReads n).length = n ∧
    ∀ c ∈ readyReads n, c.content = { ops := [wordRead] } := by
  induction n with
  | zero => exact ⟨rfl, by simp [readyReads]⟩
  | succ n ih =>
    refine ⟨by rw [readyReads, List.length_cons, ih.1], fun c hc => ?_⟩
    rcases List.mem_cons.mp hc with rfl | hc
    · rfl
    · exact ih.2 c hc

private theorem flushReads_run (n : ℕ) : ∃ m, run step {} (flushReads n) = some m ∧
    m.tickets.map Ticket.serial = List.range n := by
  obtain ⟨hlength, hcontent⟩ := readyReads_spec n
  obtain ⟨m, hrun, hserial⟩ := flush_run (m := flushingReads n) rfl fun c hc =>
    hcontent c (List.mem_reverse.mp hc)
  rw [List.length_reverse, hlength] at hrun hserial
  refine ⟨m, ?_, ?_⟩
  · rw [flushReads, ← List.cons_append, run_append, run_append, queueReads_run, Option.bind_some,
      check_run, Option.bind_some, hrun]
  · rw [hserial, List.range_eq_range']
    rfl

/-- The 16385th response in flight gets the address of the first one. -/
theorem address_reused : ¬ ∀ m, run step {} (flushReads 16385) = some m → m.AddressesIdentify := by
  intro h
  obtain ⟨m, hrun, hserial⟩ := flushReads_run 16385
  have hn : m.Numbered := run_keeps (fun hI hs => Numbered.step hI hs) start_numbered hrun
  have hmem : ∀ i < 16385, ∃ t ∈ m.tickets, t.serial = i := fun i hi => by
    have hi : i ∈ m.tickets.map Ticket.serial := by
      rw [hserial]
      exact List.mem_range.mpr hi
    exact List.mem_map.mp hi
  obtain ⟨t, ht, ht0⟩ := hmem 0 (by decide)
  obtain ⟨u, hu, hu0⟩ := hmem 16384 (by decide)
  have hnd := (h m hrun).distinct
  rw [addresses_eq] at hnd
  have haddr : t.address = u.address := by
    rw [hn.address t ht, hn.address u hu, ht0, hu0]
    rfl
  have htu := List.inj_on_of_nodup_map hnd ht hu haddr
  rw [htu, hu0] at ht0
  exact absurd ht0 (by decide)

end Sample

end WhiteRabbit.Etherbone
