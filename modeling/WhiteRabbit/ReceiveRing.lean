import WhiteRabbit.NicTransmitRing

/-!
# The receive ring of the network interface

The hardware stores frames in the empty descriptors, one after the other, and reports them by an
interrupt. The handler turns the report off and schedules a tasklet, which takes out frames until it
finds an empty descriptor, and then turns the report on again. The three run at the same time.
-/

namespace WhiteRabbit.Nic
open RingArcs StepRuns

/-- A frame as it lies in a descriptor. There is one endpoint, so every frame is from port 0. -/
structure RxFrame where
  error : Bool
  gotTs : Bool
  data : List UInt8
deriving DecidableEq

/-- Whether `__wrn_rx_descriptor` hands the frame on. -/
def RxFrame.good (f : RxFrame) : Bool := !f.error && f.gotTs

/-- `wrn_rxd`: the bit EMPTY, and the frame that was stored last. -/
structure RxDesc where
  empty : Bool := true
  frame : RxFrame := ⟨false, false, []⟩

/-- How far `wrn_interrupt` is; `read` has the bit RCOMP of the status register. -/
inductive HandlerPc where
  | idle
  | read (rcomp : Bool)
  | cleared
  | disabled
deriving DecidableEq

/-- How far `wrn_rx_interrupt` is, in its loop and with the frame it has copied. -/
inductive TaskletPc where
  | idle
  | check
  | copied (f : RxFrame)
  | freed (f : RxFrame)
  | handed
  | enable
deriving DecidableEq

/-- The descriptors and the driver, and the bit RCOMP in the status and in the mask of the interrupt
controller. `raising` tells that a frame was stored that is not reported yet. The rest is history:
`passed` counts the steps of `nextRx`. -/
structure RxDev where
  rxd : ℕ → RxDesc := fun _ => {}
  nextRx : ℕ := 0
  hwNext : ℕ := 0
  raising : Bool := false
  isr : Bool := false
  imr : Bool := true
  handler : HandlerPc := .idle
  scheduled : Bool := false
  tasklet : TaskletPc := .idle
  rxPackets : ℕ := 0
  rxBytes : ℕ := 0
  rxErrors : ℕ := 0
  received : List RxFrame := []
  delivered : List RxFrame := []
  passed : ℕ := 0

/-- What the hardware, the kernel and the two functions do. -/
inductive RxAct where
  | store (f : RxFrame)
  | raise
  | interrupt
  | handler
  | softirq
  | tasklet

namespace RxDev

def setEmpty (s : RxDev) (k : ℕ) : RxDev :=
  { s with rxd := Function.update s.rxd k { s.rxd k with empty := true } }

/-- The end of `__wrn_rx_descriptor`, where the descriptor is free again. -/
def hand (s : RxDev) (f : RxFrame) : RxDev :=
  if f.good then
    { s with
      rxPackets := s.rxPackets + 1
      rxBytes := s.rxBytes + f.data.length
      delivered := s.delivered ++ [f] }
  else { s with rxErrors := s.rxErrors + 1 }

/-- The hardware stores a frame, when the last one is reported; without an empty descriptor it is lost. -/
def store (s : RxDev) (f : RxFrame) : Option RxDev :=
  if s.raising then none
  else if (s.rxd s.hwNext).empty then
    some
      { s with
        rxd := Function.update s.rxd s.hwNext ⟨false, f⟩
        hwNext := next wrnNrDesc s.hwNext
        raising := true
        received := s.received ++ [f] }
  else some s

/-- The part of `wrn_interrupt` for received frames. -/
def wrnInterrupt (s : RxDev) : Option RxDev :=
  match s.handler with
  | .idle => none
  | .read false => some { s with handler := .idle }
  | .read true => some { s with isr := false, handler := .cleared }
  | .cleared => some { s with imr := false, handler := .disabled }
  | .disabled => some { s with scheduled := true, handler := .idle }

/-- `wrn_rx_interrupt` with `__wrn_rx_descriptor`. The hardware leaves a descriptor alone that is not
empty, so that reading it is one step. -/
def wrnRxInterrupt (s : RxDev) : Option RxDev :=
  match s.tasklet with
  | .idle => none
  | .check =>
    if (s.rxd s.nextRx).empty then some { s with tasklet := .enable }
    else some { s with tasklet := .copied (s.rxd s.nextRx).frame }
  | .copied f => some { s.setEmpty s.nextRx with tasklet := .freed f }
  | .freed f => some { s.hand f with tasklet := .handed }
  | .handed => some { s with nextRx := next wrnNrDesc s.nextRx, tasklet := .check, passed := s.passed + 1 }
  | .enable => some { s with imr := true, tasklet := .idle }

/-- The controller may report at any time, and the handler may run for another interrupt. -/
def step (s : RxDev) : RxAct → Option RxDev
  | .store f => s.store f
  | .raise => some { s with raising := false, isr := true }
  | .interrupt => if s.handler = .idle then some { s with handler := .read s.isr } else none
  | .handler => s.wrnInterrupt
  | .softirq =>
    if s.scheduled ∧ s.tasklet = .idle then some { s with scheduled := false, tasklet := .check } else none
  | .tasklet => s.wrnRxInterrupt

/-- The frames whose descriptors were freed. -/
def freed (s : RxDev) : ℕ :=
  match s.tasklet with
  | .freed _ | .handed => s.passed + 1
  | _ => s.passed

/-- The frames that were handed on or counted as errors. -/
def settled (s : RxDev) : List RxFrame :=
  match s.tasklet with
  | .handed => s.received.take (s.passed + 1)
  | _ => s.received.take s.passed

/-- What comes of some frames: the good ones are delivered in order and counted, the others are errors. -/
structure Accounts (s : RxDev) (frames : List RxFrame) : Prop where
  delivered : s.delivered = frames.filter RxFrame.good
  packets : s.rxPackets = frames.countP RxFrame.good
  bytes : s.rxBytes = ((frames.filter RxFrame.good).map fun f => f.data.length).sum
  errors : s.rxErrors = frames.countP fun f => !f.good

/-- The descriptors that are not empty hold the frames that were not freed. -/
structure Holds (s : RxDev) : Prop where
  nextRx : s.nextRx = s.passed % 8
  hwNext : s.hwNext = s.received.length % 8
  freed_le : s.freed ≤ s.received.length
  room : s.received.length ≤ s.freed + 8
  full : ∀ k < 8, (s.rxd k).empty = false ↔ ∃ n, k = n % 8 ∧ s.freed ≤ n ∧ n < s.received.length
  frame : ∀ n f, s.freed ≤ n → s.received[n]? = some f → (s.rxd (n % 8)).frame = f
  copied : ∀ f, s.tasklet = .copied f ∨ s.tasklet = .freed f → s.received[s.passed]? = some f

/-- Some part is about to look for frames. -/
def Awake (s : RxDev) : Prop :=
  s.raising = true ∨ s.isr = true ∨ s.handler = .cleared ∨ s.handler = .disabled ∨ s.scheduled = true ∨
    (s.tasklet ≠ .idle ∧ s.tasklet ≠ .enable)

/-- The report is on, or will be turned on. -/
def Reporting (s : RxDev) : Prop :=
  s.imr = true ∨ s.handler = .disabled ∨ s.scheduled = true ∨ s.tasklet ≠ .idle

structure Inv (s : RxDev) : Prop where
  holds : s.Holds
  accounts : s.Accounts s.settled
  awake : s.freed < s.received.length → s.Awake
  reporting : s.Reporting
  read : s.handler = .read true → s.isr = true

variable {s t : RxDev} {f : RxFrame}

theorem start_inv : Inv {} where
  holds := ⟨rfl, rfl, Nat.le_refl _, Nat.zero_le _, by simp, by simp, by simp⟩
  accounts := ⟨rfl, rfl, rfl, rfl⟩
  awake := fun h => absurd h (Nat.lt_irrefl 0)
  reporting := .inl rfl
  read := by simp

/-- The descriptor behind the last frame is empty when there is room. -/
theorem Holds.room_of_empty (h : s.Holds) (he : (s.rxd s.hwNext).empty = true) :
    s.received.length < s.freed + 8 := by
  refine Nat.lt_of_le_of_ne h.room fun heq => ?_
  have hlt : s.hwNext < 8 := h.hwNext ▸ Nat.mod_lt _ (by decide)
  have hslot : s.hwNext = s.freed % 8 := by
    rw [h.hwNext, heq]
    omega
  have hfull := (h.full s.hwNext hlt).mpr ⟨s.freed, hslot, Nat.le_refl _, by omega⟩
  rw [he] at hfull
  exact absurd hfull (by simp)

/-- The frame at the tail of the ring, or nothing is left. -/
theorem Holds.tail_frame (h : s.Holds) (hfreed : s.freed = s.passed) :
    if (s.rxd s.nextRx).empty then s.received.length = s.passed
    else s.received[s.passed]? = some (s.rxd s.nextRx).frame := by
  have hlt : s.nextRx < 8 := h.nextRx ▸ Nat.mod_lt _ (by decide)
  have hle := h.freed_le
  have hroom := h.room
  split
  · rename_i he
    by_contra hne
    have hfull := (h.full s.nextRx hlt).mpr ⟨s.passed, h.nextRx, hfreed.le, by omega⟩
    rw [he] at hfull
    exact absurd hfull (by simp)
  · rename_i he
    obtain ⟨n, hslot, hn, hn'⟩ := (h.full s.nextRx hlt).mp (by simpa using he)
    obtain rfl : n = s.passed := by
      rw [h.nextRx] at hslot
      omega
    have hget := List.getElem?_eq_getElem hn'
    rw [hget, h.nextRx, h.frame _ _ hn hget]

theorem Holds.store (h : s.Holds) (he : (s.rxd s.hwNext).empty = true) (f : RxFrame) :
    Holds { s with
      rxd := Function.update s.rxd s.hwNext ⟨false, f⟩
      hwNext := next wrnNrDesc s.hwNext
      raising := true
      received := s.received ++ [f] } := by
  have hroom := h.room_of_empty he
  have hle := h.freed_le
  have hlen : (s.received ++ [f]).length = s.received.length + 1 := by simp
  refine ⟨h.nextRx, ?_, ?_, ?_, fun k hk => ?_, fun n g hn hg => ?_, fun g hg => ?_⟩
  · dsimp only
    rw [h.hwNext, next, wrnNrDesc, hlen]
    omega
  · exact hle.trans (hlen ▸ Nat.le_succ _)
  · exact hlen.le.trans hroom
  · dsimp only
    rw [hlen]
    by_cases hslot : k = s.hwNext
    · rw [hslot, Function.update_self]
      exact ⟨fun _ => ⟨s.received.length, h.hwNext, hle, Nat.lt_succ_self _⟩, fun _ => rfl⟩
    · rw [Function.update_of_ne hslot, h.full k hk]
      constructor
      · rintro ⟨n, rfl, hn, hn'⟩
        exact ⟨n, rfl, hn, Nat.lt_succ_of_lt hn'⟩
      · rintro ⟨n, rfl, hn, hn'⟩
        refine ⟨n, rfl, hn, Nat.lt_of_le_of_ne (Nat.le_of_lt_succ hn') ?_⟩
        rintro rfl
        exact hslot h.hwNext.symm
  · dsimp only at hg ⊢
    replace hn : s.freed ≤ n := hn
    rcases Nat.lt_or_ge n s.received.length with hlt | hge
    · rw [List.getElem?_append_left hlt] at hg
      rw [Function.update_of_ne, h.frame n g hn hg]
      rw [h.hwNext]
      omega
    · rw [List.getElem?_append_right hge] at hg
      obtain ⟨hnil, rfl⟩ := List.getElem?_eq_some_iff.mp hg
      obtain rfl : n = s.received.length := by
        rw [List.length_singleton] at hnil
        omega
      rw [← h.hwNext, Function.update_self]
      simp
  · dsimp only
    have hget := h.copied g hg
    rw [List.getElem?_append_left (List.getElem?_eq_some_iff.mp hget).1]
    exact hget

/-- A descriptor that was copied is freed. -/
theorem Holds.setEmpty (h : s.Holds) (hcopied : s.tasklet = .copied f) :
    Holds { s.setEmpty s.nextRx with tasklet := .freed f } := by
  have hget := h.copied f (.inl hcopied)
  have hlt := (List.getElem?_eq_some_iff.mp hget).1
  have hfreed : s.freed = s.passed := by rw [freed, hcopied]
  have hroom := h.room
  rw [hfreed] at hroom
  refine ⟨h.nextRx, h.hwNext, hlt, show s.received.length ≤ s.passed + 1 + 8 by omega, fun k hk => ?_,
    fun n g hn hg => ?_, fun g hg => ?_⟩
  · change (Function.update s.rxd s.nextRx _ k).empty = false ↔
      ∃ n, k = n % 8 ∧ s.passed + 1 ≤ n ∧ n < s.received.length
    by_cases hslot : k = s.nextRx
    · rw [hslot, Function.update_self]
      refine ⟨fun he => absurd he (by simp), ?_⟩
      rintro ⟨n, hn, hge, hlt'⟩
      rw [h.nextRx] at hn
      omega
    · rw [Function.update_of_ne hslot, h.full k hk, hfreed]
      constructor
      · rintro ⟨n, rfl, hn, hn'⟩
        refine ⟨n, rfl, Nat.lt_of_le_of_ne hn ?_, hn'⟩
        rintro rfl
        exact hslot h.nextRx.symm
      · rintro ⟨n, rfl, hn, hn'⟩
        exact ⟨n, rfl, Nat.le_of_succ_le hn, hn'⟩
  · change (Function.update s.rxd s.nextRx _ (n % 8)).frame = g
    replace hn : s.passed + 1 ≤ n := hn
    have hlast := (List.getElem?_eq_some_iff.mp hg).1
    rw [Function.update_of_ne]
    · exact h.frame n g (hfreed ▸ Nat.le_of_succ_le hn) hg
    · rw [h.nextRx]
      change n < s.received.length at hlast
      omega
  · rcases hg with hg | hg
    · cases hg
    · cases hg
      exact hget

/-- The tasklet goes on, and no descriptor is freed. -/
theorem Holds.goto (h : s.Holds) {pc : TaskletPc} (hfreed : s.freed = freed { s with tasklet := pc })
    (hcopied : ∀ f, pc = .copied f ∨ pc = .freed f → s.received[s.passed]? = some f) :
    Holds { s with tasklet := pc } where
  nextRx := h.nextRx
  hwNext := h.hwNext
  freed_le := hfreed ▸ h.freed_le
  room := hfreed ▸ h.room
  full := hfreed ▸ h.full
  frame := hfreed ▸ h.frame
  copied := hcopied

theorem Holds.hand (h : s.Holds) (f : RxFrame) : (s.hand f).Holds := by
  rw [RxDev.hand]
  split <;> exact { h with }

/-- A frame that leaves the ring is delivered or counted. -/
theorem Accounts.hand {frames : List RxFrame} (h : s.Accounts frames) (f : RxFrame) :
    (s.hand f).Accounts (frames ++ [f]) := by
  rw [RxDev.hand]
  by_cases hf : f.good = true
  · rw [if_pos hf]
    refine ⟨?_, ?_, ?_, ?_⟩
    · simp [h.delivered, hf]
    · simp [h.packets, hf]
    · simp [h.bytes, hf]
    · simp [h.errors, hf]
  · rw [if_neg hf]
    refine ⟨?_, ?_, ?_, ?_⟩
    · simp [h.delivered, hf]
    · simp [h.packets, hf]
    · simp [h.bytes, hf]
    · simp [h.errors, hf]

theorem Inv.store (h : s.Inv) (hs : s.store f = some t) : t.Inv := by
  rw [RxDev.store] at hs
  split at hs
  · cases hs
  split at hs <;> rename_i he <;> cases hs
  · refine ⟨h.holds.store he f, ?_, fun _ => .inl rfl, h.reporting, h.read⟩
    have hsettled : settled { s with
        rxd := Function.update s.rxd s.hwNext ⟨false, f⟩
        hwNext := next wrnNrDesc s.hwNext
        raising := true
        received := s.received ++ [f] } = s.settled := by
      have hle := h.holds.freed_le
      rw [settled, settled]
      cases htasklet : s.tasklet with
      | handed =>
        rw [freed, htasklet] at hle
        exact List.take_append_of_le_length hle
      | freed g =>
        rw [freed, htasklet] at hle
        exact List.take_append_of_le_length (Nat.le_of_succ_le hle)
      | idle | check | copied g | enable =>
        rw [freed, htasklet] at hle
        exact List.take_append_of_le_length hle
    rw [hsettled]
    exact { h.accounts with }
  · exact h

/-- The steps of the handler. -/
theorem Inv.wrnInterrupt (h : s.Inv) (hs : s.wrnInterrupt = some t) : t.Inv := by
  rw [RxDev.wrnInterrupt] at hs
  cases hhandler : s.handler with
  | idle => simp [hhandler] at hs
  | read rcomp =>
    cases rcomp with
    | false =>
      simp only [hhandler, Option.some_inj] at hs
      subst hs
      refine ⟨{ h.holds with }, { h.accounts with }, fun hlt => ?_, ?_, by simp⟩
      · have hawake := h.awake hlt
        simpa [Awake, hhandler] using hawake
      · have hreporting := h.reporting
        simpa [Reporting, hhandler] using hreporting
    | true =>
      simp only [hhandler, Option.some_inj] at hs
      subst hs
      refine ⟨{ h.holds with }, { h.accounts with }, fun _ => .inr (.inr (.inl rfl)), ?_, by simp⟩
      have hreporting := h.reporting
      simpa [Reporting, hhandler] using hreporting
  | cleared =>
    simp only [hhandler, Option.some_inj] at hs
    subst hs
    exact ⟨{ h.holds with }, { h.accounts with }, fun _ => .inr (.inr (.inr (.inl rfl))), .inr (.inl rfl),
      by simp⟩
  | disabled =>
    simp only [hhandler, Option.some_inj] at hs
    subst hs
    exact ⟨{ h.holds with }, { h.accounts with }, fun _ => .inr (.inr (.inr (.inr (.inl rfl)))),
      .inr (.inr (.inl rfl)), by simp⟩

@[simp] theorem hand_passed (s : RxDev) (f : RxFrame) : (s.hand f).passed = s.passed := by
  rw [hand]
  split <;> rfl

@[simp] theorem hand_received (s : RxDev) (f : RxFrame) : (s.hand f).received = s.received := by
  rw [hand]
  split <;> rfl

@[simp] theorem hand_tasklet (s : RxDev) (f : RxFrame) : (s.hand f).tasklet = s.tasklet := by
  rw [hand]
  split <;> rfl

theorem Inv.read_hand (h : s.Inv) (f : RxFrame) : (s.hand f).handler = .read true → (s.hand f).isr = true := by
  rw [hand]
  split <;> exact h.read

/-- The steps of the tasklet. Before it turns the report on it has found nothing. -/
theorem Inv.wrnRxInterrupt (h : s.Inv) (hs : s.wrnRxInterrupt = some t) : t.Inv := by
  rw [RxDev.wrnRxInterrupt] at hs
  cases htasklet : s.tasklet with
  | idle => simp [htasklet] at hs
  | check =>
    have hfreed : s.freed = s.passed := by rw [freed, htasklet]
    have hsettled : s.settled = s.received.take s.passed := by rw [settled, htasklet]
    have htail := h.holds.tail_frame hfreed
    have haccounts := hsettled ▸ h.accounts
    simp only [htasklet] at hs
    split at hs <;> rename_i he <;> rw [Option.some_inj] at hs <;> subst hs
    · rw [if_pos he] at htail
      exact ⟨h.holds.goto hfreed (by simp), { haccounts with }, fun hlt => absurd htail.symm (Nat.ne_of_lt hlt),
        .inr (.inr (.inr (by simp))), h.read⟩
    · rw [if_neg he] at htail
      refine ⟨h.holds.goto hfreed ?_, { haccounts with }, fun _ => ?_, .inr (.inr (.inr (by simp))), h.read⟩
      · rintro g (hg | hg)
        · cases hg
          exact htail
        · cases hg
      · exact .inr (.inr (.inr (.inr (.inr (by simp)))))
  | copied g =>
    have hsettled : s.settled = s.received.take s.passed := by rw [settled, htasklet]
    have haccounts := hsettled ▸ h.accounts
    simp only [htasklet, Option.some_inj] at hs
    subst hs
    exact ⟨h.holds.setEmpty htasklet, { haccounts with }, fun _ => .inr (.inr (.inr (.inr (.inr (by simp))))),
      .inr (.inr (.inr (by simp))), h.read⟩
  | freed g =>
    have hget := h.holds.copied g (.inr htasklet)
    have hsettled : s.settled = s.received.take s.passed := by rw [settled, htasklet]
    have haccounts := (hsettled ▸ h.accounts).hand g
    simp only [htasklet, Option.some_inj] at hs
    subst hs
    refine ⟨(h.holds.hand g).goto ?_ (by simp), ?_, fun _ => .inr (.inr (.inr (.inr (.inr (by simp))))),
      .inr (.inr (.inr (by simp))), h.read_hand g⟩
    · simp only [RxDev.freed, hand_tasklet, htasklet, hand_passed]
    · have hframes : settled { s.hand g with tasklet := .handed } = s.received.take s.passed ++ [g] := by
        simp only [settled, hand_received, hand_passed]
        rw [List.take_add_one, hget]
        rfl
      rw [hframes]
      exact { haccounts with }
  | handed =>
    have hfreed : s.freed = s.passed + 1 := by rw [freed, htasklet]
    have hsettled : s.settled = s.received.take (s.passed + 1) := by rw [settled, htasklet]
    have haccounts := hsettled ▸ h.accounts
    simp only [htasklet, Option.some_inj] at hs
    subst hs
    refine ⟨⟨?_, h.holds.hwNext, hfreed ▸ h.holds.freed_le, hfreed ▸ h.holds.room, hfreed ▸ h.holds.full,
      hfreed ▸ h.holds.frame, by simp⟩, { haccounts with }, fun _ => .inr (.inr (.inr (.inr (.inr (by simp))))),
      .inr (.inr (.inr (by simp))), h.read⟩
    dsimp only
    rw [h.holds.nextRx, next, wrnNrDesc]
    omega
  | enable =>
    have hfreed : s.freed = s.passed := by rw [freed, htasklet]
    have hsettled : s.settled = s.received.take s.passed := by rw [settled, htasklet]
    have haccounts := hsettled ▸ h.accounts
    simp only [htasklet, Option.some_inj] at hs
    subst hs
    refine ⟨⟨h.holds.nextRx, h.holds.hwNext, hfreed ▸ h.holds.freed_le, hfreed ▸ h.holds.room,
      hfreed ▸ h.holds.full, hfreed ▸ h.holds.frame, by simp⟩, { haccounts with }, fun hlt => ?_, .inl rfl, h.read⟩
    have hawake := h.awake (hfreed ▸ hlt)
    simpa [Awake, htasklet] using hawake

/-- Every step keeps the invariant. -/
theorem Inv.step (h : s.Inv) {a : RxAct} (hs : s.step a = some t) : t.Inv := by
  cases a with
  | store f => exact h.store hs
  | raise =>
    cases hs
    exact ⟨{ h.holds with }, { h.accounts with }, fun _ => .inr (.inl rfl), h.reporting, fun _ => rfl⟩
  | interrupt =>
    rw [RxDev.step] at hs
    split at hs
    · rename_i hidle
      cases hs
      refine ⟨{ h.holds with }, { h.accounts with }, fun hlt => ?_, ?_, by simp⟩
      · have hawake := h.awake hlt
        simpa [Awake, hidle] using hawake
      · have hreporting := h.reporting
        simpa [Reporting, hidle] using hreporting
    · cases hs
  | handler => exact h.wrnInterrupt hs
  | softirq =>
    rw [RxDev.step] at hs
    split at hs
    · rename_i hstart
      cases hs
      have hfreed : s.freed = s.passed := by rw [freed, hstart.2]
      have hsettled : s.settled = s.received.take s.passed := by rw [settled, hstart.2]
      have haccounts := hsettled ▸ h.accounts
      exact ⟨⟨h.holds.nextRx, h.holds.hwNext, hfreed ▸ h.holds.freed_le, hfreed ▸ h.holds.room,
        hfreed ▸ h.holds.full, hfreed ▸ h.holds.frame, by simp⟩, { haccounts with },
        fun _ => .inr (.inr (.inr (.inr (.inr (by simp))))), .inr (.inr (.inr (by simp))), h.read⟩
    · cases hs
  | tasklet => exact h.wrnRxInterrupt hs

theorem run_inv {acts : List RxAct} (hrun : run step {} acts = some t) : t.Inv :=
  run_keeps (fun h hs => h.step hs) start_inv hrun

/-- The frames that were handed on are the first ones that were stored, each once and in order, with the counts
that belong to them. The others are on their way: the first one may be with the tasklet, and else they lie in
their descriptors. -/
theorem received_in_order {acts : List RxAct} (hrun : run step {} acts = some t) :
    ∃ n, t.Accounts (t.received.take n) ∧ n ≤ t.received.length ∧ t.received.length ≤ n + 9 ∧
      (∀ f, t.received[n]? = some f → t.tasklet = .freed f ∨ t.rxd (n % 8) = ⟨false, f⟩) ∧
      ∀ i f, n < i → t.received[i]? = some f → t.rxd (i % 8) = ⟨false, f⟩ := by
  have h := run_inv hrun
  have hle := h.holds.freed_le
  have hroom := h.holds.room
  have hdesc : ∀ i f, t.freed ≤ i → t.received[i]? = some f → t.rxd (i % 8) = ⟨false, f⟩ := by
    intro i f hi hf
    have hframe := h.holds.frame i f hi hf
    have hfull := (h.holds.full (i % 8) (Nat.mod_lt _ (by decide))).mpr
      ⟨i, rfl, hi, (List.getElem?_eq_some_iff.mp hf).1⟩
    cases hd : t.rxd (i % 8) with
    | mk empty frame =>
      rw [hd] at hframe hfull
      subst hframe
      subst hfull
      rfl
  have haccounts := h.accounts
  rw [settled] at haccounts
  rw [freed] at hle hroom hdesc
  cases htasklet : t.tasklet with
  | handed =>
    simp only [htasklet] at haccounts hle hroom hdesc
    exact ⟨t.passed + 1, haccounts, hle, by omega, fun f hf => .inr (hdesc _ f (Nat.le_refl _) hf),
      fun i f hi => hdesc i f hi.le⟩
  | freed g =>
    have hfirst := h.holds.copied g (.inr htasklet)
    simp only [htasklet] at haccounts hle hroom hdesc
    refine ⟨t.passed, haccounts, by omega, by omega, fun f hf => .inl ?_, fun i f hi => hdesc i f hi⟩
    rw [hfirst] at hf
    rw [Option.some_inj.mp hf]
  | idle | check | copied g | enable =>
    simp only [htasklet] at haccounts hle hroom hdesc
    exact ⟨t.passed, haccounts, hle, by omega, fun f hf => .inr (hdesc _ f (Nat.le_refl _) hf),
      fun i f hi => hdesc i f hi.le⟩

/-- What happens of itself: no new frame, no report without one, and no other interrupt. -/
def Quiet (s : RxDev) : RxAct → Prop
  | .store _ => False
  | .raise => s.raising = true
  | .interrupt => s.isr = true ∧ s.imr = true
  | _ => True

instance (s : RxDev) : ∀ a, Decidable (s.Quiet a)
  | .store _ => isFalse id
  | .raise => inferInstanceAs (Decidable (_ = true))
  | .interrupt => inferInstanceAs (Decidable (_ = true ∧ _ = true))
  | .handler | .softirq | .tasklet => isTrue trivial

def bit (b : Bool) : ℕ := if b then 1 else 0

/-- The steps to the end of the handler, and to what comes of a report. -/
def handlerWork (s : RxDev) : ℕ :=
  match s.handler with
  | .idle => 8 * bit s.isr
  | .read true => 7
  | .read false => 8 * bit s.isr + 1
  | .cleared => 8 * bit s.isr + 5
  | .disabled => 8 * bit s.isr + 4

def taskletWork (s : RxDev) : ℕ :=
  match s.tasklet with
  | .idle => 0
  | .check => 2
  | .copied _ => 1
  | .freed _ => 4
  | .handed => 3
  | .enable => 1

/-- More than what is left to do when nothing new comes. -/
def work (s : RxDev) : ℕ :=
  9 * bit s.raising + s.handlerWork + 3 * bit s.scheduled + s.taskletWork + 4 * (s.received.length - s.freed)

theorem Inv.work_wrnInterrupt (h : s.Inv) (hs : s.wrnInterrupt = some t) : t.work < s.work := by
  rw [RxDev.wrnInterrupt] at hs
  cases hhandler : s.handler with
  | idle => simp [hhandler] at hs
  | read rcomp =>
    cases rcomp with
    | false =>
      simp only [hhandler, Option.some_inj] at hs
      subst hs
      simp [work, handlerWork, taskletWork, freed, hhandler]
    | true =>
      have hisr := h.read hhandler
      simp only [hhandler, Option.some_inj] at hs
      subst hs
      simp [work, handlerWork, taskletWork, freed, hhandler, bit]
  | cleared =>
    simp only [hhandler, Option.some_inj] at hs
    subst hs
    simp [work, handlerWork, taskletWork, freed, hhandler]
  | disabled =>
    simp only [hhandler, Option.some_inj] at hs
    subst hs
    simp only [work, handlerWork, taskletWork, freed, hhandler, bit]
    cases s.scheduled <;> simp
    omega

theorem work_hand (s : RxDev) (f : RxFrame) (pc : TaskletPc) :
    work { s.hand f with tasklet := pc } = work { s with tasklet := pc } := by
  rw [hand]
  split <;> rfl

theorem Inv.work_wrnRxInterrupt (h : s.Inv) (hs : s.wrnRxInterrupt = some t) : t.work < s.work := by
  rw [RxDev.wrnRxInterrupt] at hs
  cases htasklet : s.tasklet with
  | idle => simp [htasklet] at hs
  | check =>
    simp only [htasklet] at hs
    split at hs <;> rw [Option.some_inj] at hs <;> subst hs
    · simp [work, handlerWork, taskletWork, freed, htasklet]
    · simp [work, handlerWork, taskletWork, freed, htasklet]
  | copied g =>
    have hlt := (List.getElem?_eq_some_iff.mp (h.holds.copied g (.inl htasklet))).1
    simp only [htasklet, Option.some_inj] at hs
    subst hs
    simp only [work, handlerWork, taskletWork, freed, htasklet, setEmpty]
    omega
  | freed g =>
    simp only [htasklet, Option.some_inj] at hs
    subst hs
    rw [work_hand]
    simp [work, handlerWork, taskletWork, freed, htasklet]
  | handed =>
    simp only [htasklet, Option.some_inj] at hs
    subst hs
    simp [work, handlerWork, taskletWork, freed, htasklet]
  | enable =>
    simp only [htasklet, Option.some_inj] at hs
    subst hs
    simp [work, handlerWork, taskletWork, freed, htasklet]

/-- Every quiet step is progress. -/
theorem Inv.work_lt (h : s.Inv) {a : RxAct} (hquiet : s.Quiet a) (hs : s.step a = some t) : t.work < s.work := by
  cases a with
  | store f => exact hquiet.elim
  | raise =>
    cases hs
    simp only [Quiet] at hquiet
    simp only [work, handlerWork, taskletWork, freed, bit, hquiet]
    cases hhandler : s.handler with
    | read rcomp => cases rcomp <;> cases s.isr <;> simp
    | idle | cleared | disabled => cases s.isr <;> simp
  | interrupt =>
    rw [RxDev.step] at hs
    split at hs
    · rename_i hidle
      cases hs
      simp [work, handlerWork, taskletWork, freed, hidle, bit, hquiet.1]
    · cases hs
  | handler => exact h.work_wrnInterrupt hs
  | softirq =>
    rw [RxDev.step] at hs
    split at hs
    · rename_i hstart
      cases hs
      simp [work, handlerWork, taskletWork, freed, hstart.1, hstart.2, bit]
    · cases hs
  | tasklet => exact h.work_wrnRxInterrupt hs

theorem wrnRxInterrupt_isSome (h : s.tasklet ≠ .idle) : s.wrnRxInterrupt.isSome := by
  rw [wrnRxInterrupt]
  cases hpc : s.tasklet with
  | idle => exact absurd hpc h
  | check =>
    dsimp only
    split <;> rfl
  | copied g | freed g => rfl
  | handed | enable => rfl

theorem wrnInterrupt_isSome (h : s.handler ≠ .idle) : s.wrnInterrupt.isSome := by
  rw [wrnInterrupt]
  cases hpc : s.handler with
  | idle => exact absurd hpc h
  | read rcomp => cases rcomp <;> rfl
  | cleared | disabled => rfl

/-- While a frame is in the ring, some quiet step can be made. -/
theorem Inv.can_step (h : s.Inv) (hlt : s.freed < s.received.length) :
    ∃ a, s.Quiet a ∧ (RxDev.step s a).isSome := by
  by_cases htasklet : s.tasklet = .idle
  · by_cases hhandler : s.handler = .idle
    · by_cases hscheduled : s.scheduled = true
      · exact ⟨.softirq, trivial, by simp [RxDev.step, hscheduled, htasklet]⟩
      · have hawake := h.awake hlt
        have himr := h.reporting
        simp only [Awake, Reporting, hhandler, htasklet, hscheduled, reduceCtorEq, ne_eq, not_true_eq_false,
          false_and, or_false] at hawake himr
        rcases hawake with hraise | hisr
        · exact ⟨.raise, hraise, rfl⟩
        · exact ⟨.interrupt, ⟨hisr, himr⟩, by simp [RxDev.step, hhandler]⟩
    · exact ⟨.handler, trivial, wrnInterrupt_isSome hhandler⟩
  · exact ⟨.tasklet, trivial, wrnRxInterrupt_isSome htasklet⟩

/-- Only the hardware stores frames. -/
theorem received_quiet {a : RxAct} (hquiet : s.Quiet a) (hs : step s a = some t) : t.received = s.received := by
  cases a with
  | store f => exact hquiet.elim
  | raise =>
    cases hs
    rfl
  | interrupt | softirq =>
    rw [step] at hs
    split at hs
    · cases hs
      rfl
    · cases hs
  | handler =>
    rw [step, wrnInterrupt] at hs
    split at hs <;> cases hs <;> rfl
  | tasklet =>
    rw [step, wrnRxInterrupt] at hs
    split at hs
    · cases hs
    · split at hs <;> cases hs <;> rfl
    · cases hs
      rfl
    · cases hs
      exact hand_received s _
    · cases hs
      rfl
    · cases hs
      rfl

/-- Without new frames all that was stored is handed on, after at most as many steps as are left to do: a run
that cannot go on has nothing left. -/
theorem frames_arrive {acts quiet : List RxAct} (hrun : run step {} acts = some s)
    (hquiet : Obeys step Quiet s quiet) (hrest : run step s quiet = some t) :
    quiet.length + t.work ≤ s.work ∧
      ((∀ a, t.Quiet a → t.step a = none) → t.Accounts s.received) := by
  have h := run_inv hrun
  have hkeep : ∀ {u a v}, u.Inv ∧ u.received = s.received → u.Quiet a → step u a = some v →
      (v.Inv ∧ v.received = s.received) ∧ v.work < u.work := fun hu ha hv =>
    ⟨⟨hu.1.step hv, (received_quiet ha hv).trans hu.2⟩, hu.1.work_lt ha hv⟩
  refine ⟨run_measure hkeep ⟨h, rfl⟩ hquiet hrest, fun hstuck => ?_⟩
  obtain ⟨ht, hreceived⟩ := run_invariant (fun hu ha hv => (hkeep hu ha hv).1) ⟨h, rfl⟩ hquiet hrest
  have hidle : t.tasklet = .idle := by
    by_contra hne
    have hsome := wrnRxInterrupt_isSome hne
    rw [show t.wrnRxInterrupt = none from hstuck .tasklet trivial] at hsome
    exact absurd hsome (by simp)
  have hall : t.received.length ≤ t.passed := by
    by_contra hlt
    have hfreed : t.freed = t.passed := by rw [freed, hidle]
    obtain ⟨a, ha, hsome⟩ := ht.can_step (hfreed ▸ Nat.lt_of_not_le hlt)
    rw [hstuck a ha] at hsome
    exact absurd hsome (by simp)
  have haccounts := ht.accounts
  rwa [settled, hidle, List.take_of_length_le hall, hreceived] at haccounts

def goodFrame : RxFrame := ⟨false, true, [1, 2]⟩

def badFrame : RxFrame := ⟨true, true, []⟩

/-- The second frame is stored when the tasklet has the first one. -/
def twoFrames : List RxAct :=
  [.store goodFrame, .raise, .interrupt, .handler, .handler, .handler, .softirq, .tasklet, .store badFrame,
    .tasklet, .tasklet]

theorem received_in_order_two : ∃ t, run step {} twoFrames = some t ∧ ∃ n, t.Accounts (t.received.take n) ∧
    n ≤ t.received.length ∧ t.received.length ≤ n + 9 ∧
      (∀ f, t.received[n]? = some f → t.tasklet = .freed f ∨ t.rxd (n % 8) = ⟨false, f⟩) ∧
      ∀ i f, n < i → t.received[i]? = some f → t.rxd (i % 8) = ⟨false, f⟩ := by
  have hrun : run step {} twoFrames = some _ := rfl
  exact ⟨_, hrun, received_in_order hrun⟩

def busy : RxDev := (run step {} twoFrames).getD {}

/-- The tasklet goes on to the second frame, and the report of it makes it run once more. -/
def untilIdle : List RxAct :=
  [.tasklet, .tasklet, .raise, .tasklet, .tasklet, .tasklet, .tasklet, .tasklet, .interrupt, .handler, .handler,
    .handler, .softirq, .tasklet, .tasklet]

def done : RxDev := (run step busy untilIdle).getD {}

theorem frames_arrive_two : untilIdle.length + done.work ≤ busy.work ∧ done.Accounts busy.received := by
  have hrun : run step {} twoFrames = some busy := rfl
  have hrest : run step busy untilIdle = some done := rfl
  obtain ⟨hwork, hall⟩ := frames_arrive hrun (by decide) hrest
  refine ⟨hwork, hall fun a ha => ?_⟩
  cases a with
  | store f => exact ha.elim
  | raise => exact absurd ha (by decide)
  | interrupt => exact absurd ha (by decide)
  | handler | softirq | tasklet => rfl

end RxDev

end WhiteRabbit.Nic
