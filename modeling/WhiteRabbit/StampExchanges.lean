import WhiteRabbit.StepRuns
import WhiteRabbit.TimespecSums

/-!
# Exchanges of stamped frames

A host sends a frame, and a follow-up with the time when the frame went out. The other host takes both, adds when
the first came in and answers in the same way. From the four times the first host prints the delays. Other frames
arrive on both sides.
-/

namespace WhiteRabbit.Dio
open StepRuns

def stampProto : ℕ := 0xf001

/-- `struct frame`, with what the hosts look at. -/
structure StampFrame where
  etherType : ℕ := 0
  phase : ℕ := 0
  ts : Fin 4 → Timespec := fun _ => ⟨0, 0⟩

/-- `sizeof(struct frame)`. -/
def stampFrameSize : ℤ := 144

/-- What `recv_and_stamp` returns, what it makes of the frame in memory, and the stamp `hw[2]`. -/
structure Arrival where
  ret : ℤ
  fill : StampFrame → StampFrame
  hw : Timespec

/-- The host that runs `main` with and without `listen`. -/
inductive Host where
  | sender
  | listener
  deriving DecidableEq

namespace Host

def peer : Host → Host
  | sender => listener
  | listener => sender

/-- Where `main` tells the host to put the time of its first frame, and that of the other's. -/
def sendPlace : Host → ℕ
  | sender => 0
  | listener => 2

def recvPlace : Host → ℕ
  | sender => 3
  | listener => 1

theorem sendPlace_lt (h : Host) : h.sendPlace < 4 := by cases h <;> decide

theorem recvPlace_lt (h : Host) : h.recvPlace < 4 := by cases h <;> decide

def sendOffset (h : Host) : Fin 4 := ⟨h.sendPlace, h.sendPlace_lt⟩

def recvOffset (h : Host) : Fin 4 := ⟨h.recvPlace, h.recvPlace_lt⟩

end Host

/-- The call a host is in: the two frames that it sends, and the two that it waits for. -/
inductive StampPc where
  | send
  | followup (hw : Timespec)
  | recv
  | second (hw : Timespec)
  | exited

/-- A host with its socket. The lists at the end are history: what was sent, when the first frame of each pair went
out, and when the frames of the peer came in. -/
structure StampHost where
  f : StampFrame := {}
  pc : StampPc
  queue : List Arrival := []
  sent : List StampFrame := []
  sentAt : List Timespec := []
  arrivedAt : List Timespec := []

/-- Both hosts, the frames on their way to each, and the times that were reported. -/
structure Exchange where
  host : Host → StampHost
  wire : Host → List StampFrame := fun _ => []
  reports : List (Fin 4 → Timespec) := []

/-- `other` is a frame of someone else, and `restart` the next run of the sender. -/
inductive ExchangeAct where
  | send (h : Host) (hw : Timespec)
  | recv (h : Host)
  | arrive (h : Host) (hw : Timespec)
  | other (h : Host) (a : Arrival)
  | restart

/-- The test of the loop in `recv_one_with_followup`. -/
def GoodFrame (ret : ℤ) (f : StampFrame) : Prop := ret = stampFrameSize ∧ f.etherType = stampProto ∧ f.phase = 0

instance (ret : ℤ) (f : StampFrame) : Decidable (GoodFrame ret f) := inferInstanceAs (Decidable (_ ∧ _ ∧ _))

namespace Exchange

def setHost (x : Exchange) (h : Host) (p : StampHost) : Exchange := { x with host := Function.update x.host h p }

/-- What a host sends goes to its peer. -/
def transmit (x : Exchange) (h : Host) (f : StampFrame) : Exchange :=
  { x with wire := Function.update x.wire h.peer (x.wire h.peer ++ [f]) }

/-- The times go to `report_times`. -/
def report (x : Exchange) (ts : Fin 4 → Timespec) : Exchange := { x with reports := x.reports ++ [ts] }

/-- A `send_and_stamp` of `send_one_with_followup`. -/
def sendOneWithFollowup (x : Exchange) (h : Host) (hw : Timespec) : Option Exchange :=
  let p := x.host h
  match p.pc with
  | .send =>
    let f : StampFrame := { p.f with etherType := stampProto, phase := 0 }
    some ((x.transmit h f).setHost h
      { p with f := f, pc := .followup hw, sent := p.sent ++ [f], sentAt := p.sentAt ++ [hw] })
  | .followup hw =>
    let f : StampFrame := { p.f with phase := 1, ts := Function.update p.f.ts h.sendOffset hw }
    some ((x.transmit h f).setHost h { p with f := f, pc := .recv, sent := p.sent ++ [f] })
  | _ => none

/-- A `recv_and_stamp` of `recv_one_with_followup`. -/
def recvOneWithFollowup (x : Exchange) (h : Host) : Option Exchange :=
  let p := x.host h
  match p.pc, p.queue with
  | .recv, a :: queue =>
    let f := a.fill p.f
    if GoodFrame a.ret f then some (x.setHost h { p with f := f, pc := .second a.hw, queue := queue })
    else some (x.setHost h { p with f := f, queue := queue })
  | .second hw, a :: queue =>
    let f := a.fill p.f
    let f : StampFrame := { f with ts := Function.update f.ts h.recvOffset hw }
    match h with
    | .sender =>
      some ((x.setHost h { p with f := f, pc := .exited, queue := queue }).report f.ts)
    | .listener => some (x.setHost h { p with f := f, pc := .send, queue := queue })
  | _, _ => none

def step (x : Exchange) : ExchangeAct → Option Exchange
  | .send h hw => x.sendOneWithFollowup h hw
  | .recv h => x.recvOneWithFollowup h
  | .arrive h hw =>
    match x.wire h with
    | [] => none
    | f :: rest =>
      let p := x.host h
      let x : Exchange := { x with wire := Function.update x.wire h rest }
      some (x.setHost h
        { p with queue := p.queue ++ [⟨stampFrameSize, fun _ => f, hw⟩], arrivedAt := p.arrivedAt ++ [hw] })
  | .other h a =>
    let p := x.host h
    some (x.setHost h { p with queue := p.queue ++ [a] })
  | .restart =>
    match (x.host .sender).pc with
    | .exited => some (x.setHost .sender { x.host .sender with f := {}, pc := .send, queue := [] })
    | _ => none

def start : Exchange where
  host
    | .sender => { pc := .send }
    | .listener => { pc := .recv }

/-- No host but the two sends stamped frames, and no frame comes between a frame and its follow-up. -/
def Undisturbed (x : Exchange) : ExchangeAct → Prop
  | .other h a => (∀ f, ¬ GoodFrame a.ret (a.fill f)) ∧ (x.host h).arrivedAt.length % 2 = 0
  | _ => True

/-- The hardware's four times of an exchange. -/
def time (x : Exchange) (n : ℕ) : Fin 4 → Option Timespec
  | 0 => (x.host .sender).sentAt[n]?
  | 1 => (x.host .listener).arrivedAt[2 * n]?
  | 2 => (x.host .listener).sentAt[n]?
  | 3 => (x.host .sender).arrivedAt[2 * n]?

/-- The first times are those of the exchange. -/
def Knows (x : Exchange) (n : ℕ) (ts : Fin 4 → Timespec) (k : ℕ) : Prop :=
  ∀ i : Fin 4, i.val < k → x.time n i = some (ts i)

end Exchange

/-- The arrivals in a socket are frames of the peer from some place on, up to the last that came in. Between pairs
there are others. -/
inductive Queued (frames : List StampFrame) (stamps : List Timespec) : ℕ → List Arrival → Prop
  | done : Queued frames stamps stamps.length []
  | other {r : ℕ} {a : Arrival} {rest : List Arrival} (hforeign : ∀ f, ¬ GoodFrame a.ret (a.fill f))
      (heven : r % 2 = 0) (hrest : Queued frames stamps r rest) : Queued frames stamps r (a :: rest)
  | frame {r : ℕ} {f : StampFrame} {hw : Timespec} {rest : List Arrival} (hframe : frames[r]? = some f)
      (hstamp : stamps[r]? = some hw) (hrest : Queued frames stamps (r + 1) rest) :
      Queued frames stamps r (⟨stampFrameSize, fun _ => f, hw⟩ :: rest)

theorem getElem?_extends {α : Type*} {xs ys : List α} (h : xs <+: ys) {i : ℕ} {a : α} (hi : xs[i]? = some a) :
    ys[i]? = some a := by
  obtain ⟨rest, rfl⟩ := h
  obtain ⟨hlt, -⟩ := List.getElem?_eq_some_iff.mp hi
  rw [List.getElem?_append_left hlt, hi]

theorem getElem?_concat {α : Type*} {xs : List α} {a b : α} {i : ℕ} (hi : (xs ++ [a])[i]? = some b) :
    xs[i]? = some b ∨ i = xs.length ∧ b = a := by
  rcases Nat.lt_trichotomy i xs.length with hlt | heq | hgt
  · rw [List.getElem?_append_left hlt] at hi
    exact .inl hi
  · subst heq
    rw [List.getElem?_concat_length] at hi
    exact .inr ⟨rfl, (Option.some.inj hi).symm⟩
  · rw [List.getElem?_eq_none (by simp; omega)] at hi
    cases hi

namespace Queued

variable {frames frames' : List StampFrame} {stamps : List Timespec} {r : ℕ} {queue : List Arrival}

theorem le (h : Queued frames stamps r queue) : r ≤ stamps.length := by
  induction h with
  | done => exact Nat.le_refl _
  | other _ _ _ ih => exact ih
  | frame _ _ _ ih => exact Nat.le_of_succ_le ih

theorem grow (h : Queued frames stamps r queue) (hframes : frames <+: frames') : Queued frames' stamps r queue := by
  induction h with
  | done => exact .done
  | other hforeign heven _ ih => exact .other hforeign heven ih
  | frame hframe hstamp _ ih => exact .frame (getElem?_extends hframes hframe) hstamp ih

theorem arrive (h : Queued frames stamps r queue) {f : StampFrame} (hf : frames[stamps.length]? = some f)
    (hw : Timespec) : Queued frames (stamps ++ [hw]) r (queue ++ [⟨stampFrameSize, fun _ => f, hw⟩]) := by
  induction h with
  | done =>
    apply Queued.frame hf (by simp)
    have hdone : Queued frames (stamps ++ [hw]) (stamps ++ [hw]).length [] := .done
    rwa [List.length_append, List.length_singleton] at hdone
  | other hforeign heven _ ih => exact .other hforeign heven ih
  | frame hframe hstamp _ ih => exact .frame hframe (getElem?_extends (List.prefix_append _ _) hstamp) ih

theorem interfere (h : Queued frames stamps r queue) {a : Arrival} (ha : ∀ f, ¬ GoodFrame a.ret (a.fill f))
    (heven : stamps.length % 2 = 0) : Queued frames stamps r (queue ++ [a]) := by
  induction h with
  | done => exact .other ha heven .done
  | other hforeign heven' _ ih => exact .other hforeign heven' ih
  | frame hframe hstamp _ ih => exact .frame hframe hstamp ih

end Queued

namespace Exchange

variable {x y : Exchange} {h : Host} {n r : ℕ} {ts : Fin 4 → Timespec} {k : ℕ}

@[simp] theorem setHost_host_self (p : StampHost) : (x.setHost h p).host h = p := Function.update_self _ _ _

theorem setHost_host_of_ne {j : Host} (hne : j ≠ h) (p : StampHost) : (x.setHost h p).host j = x.host j :=
  Function.update_of_ne hne _ _

theorem peer_ne (h : Host) : h.peer ≠ h := by cases h <;> simp [Host.peer]

theorem peer_peer (h : Host) : h.peer.peer = h := by cases h <;> rfl

theorem eq_or_peer (h j : Host) : j = h ∨ j = h.peer := by cases h <;> cases j <;> simp [Host.peer]

/-- A first frame gives the time of the host's `sendOffset`, and one that arrives that of its `recvOffset`. -/
theorem time_sendOffset (x : Exchange) (h : Host) (n : ℕ) : x.time n h.sendOffset = (x.host h).sentAt[n]? := by
  cases h <;> rfl

theorem time_recvOffset (x : Exchange) (h : Host) (n : ℕ) : x.time n h.recvOffset = (x.host h).arrivedAt[2 * n]? := by
  cases h <;> rfl

/-- What has happened stays. -/
def Grows (x y : Exchange) : Prop :=
  ∀ h, (x.host h).sentAt <+: (y.host h).sentAt ∧ (x.host h).arrivedAt <+: (y.host h).arrivedAt

theorem Grows.time (hg : Grows x y) {i : Fin 4} {t : Timespec} (ht : x.time n i = some t) : y.time n i = some t := by
  have hplaces : ∀ i : Fin 4, i = 0 ∨ i = 1 ∨ i = 2 ∨ i = 3 := by decide
  rcases hplaces i with rfl | rfl | rfl | rfl
  · exact getElem?_extends (hg .sender).1 ht
  · exact getElem?_extends (hg .listener).2 ht
  · exact getElem?_extends (hg .listener).1 ht
  · exact getElem?_extends (hg .sender).2 ht

theorem Grows.knows (hg : Grows x y) (hk : x.Knows n ts k) : y.Knows n ts k := fun i hi => hg.time (hk i hi)

/-- The next time is known with those before it. -/
theorem Knows.update (hk : x.Knows n ts k) {i : Fin 4} (hi : i.val = k) {t : Timespec} (ht : x.time n i = some t) :
    x.Knows n (Function.update ts i t) (k + 1) := by
  intro j hj
  by_cases hji : j = i
  · subst hji
    rw [Function.update_self, ht]
  · rw [Function.update_of_ne hji]
    apply hk
    have hne : j.val ≠ i.val := fun heq => hji (Fin.ext heq)
    omega

/-- How many frames a host has sent and taken in the exchange that it is in. -/
def Stands (h : Host) (pc : StampPc) (n sent taken : ℕ) : Prop :=
  match h, pc with
  | .sender, .send => sent = 2 * n ∧ taken = 2 * n
  | .sender, .followup _ => sent = 2 * n + 1 ∧ taken = 2 * n
  | .sender, .recv => sent = 2 * n + 2 ∧ taken = 2 * n
  | .sender, .second _ => sent = 2 * n + 2 ∧ taken = 2 * n + 1
  | .sender, .exited => sent = 2 * n + 2 ∧ taken = 2 * n + 2
  | .listener, .recv => sent = 2 * n ∧ taken = 2 * n
  | .listener, .second _ => sent = 2 * n ∧ taken = 2 * n + 1
  | .listener, .send => sent = 2 * n ∧ taken = 2 * n + 2
  | .listener, .followup _ => sent = 2 * n + 1 ∧ taken = 2 * n + 2
  | .listener, .exited => False

/-- The times that a host has and has not yet sent on. -/
def Carries (x : Exchange) (h : Host) (n : ℕ) : Prop :=
  match (x.host h).pc with
  | .send => x.Knows n (x.host h).f.ts h.sendOffset
  | .followup hw => x.Knows n (x.host h).f.ts h.sendOffset ∧ x.time n h.sendOffset = some hw
  | .second hw => x.time n h.recvOffset = some hw
  | .recv | .exited => True

theorem Carries.grow (hcarries : x.Carries h n) (hg : Grows x y) (hpc : (y.host h).pc = (x.host h).pc)
    (hf : (y.host h).f = (x.host h).f) : y.Carries h n := by
  rw [Carries] at hcarries ⊢
  rw [hpc, hf]
  cases hcall : (x.host h).pc with
  | send =>
    simp only [hcall] at hcarries ⊢
    exact hg.knows hcarries
  | followup hw =>
    simp only [hcall] at hcarries ⊢
    exact ⟨hg.knows hcarries.1, hg.time hcarries.2⟩
  | second hw =>
    simp only [hcall] at hcarries ⊢
    exact hg.time hcarries
  | recv | exited => trivial

/-- A host in its exchange number `n`, with the frames of its peer that it has taken. -/
structure HostInv (x : Exchange) (h : Host) (n taken : ℕ) : Prop where
  stands : Stands h (x.host h).pc n (x.host h).sent.length taken
  stamps : (x.host h).sentAt.length = ((x.host h).sent.length + 1) / 2
  arrived_le : (x.host h).arrivedAt.length ≤ (x.host h.peer).sent.length
  wire : x.wire h = (x.host h.peer).sent.drop (x.host h).arrivedAt.length
  queued : Queued (x.host h.peer).sent (x.host h).arrivedAt taken (x.host h).queue
  first : ∀ m f, (x.host h).sent[2 * m]? = some f → f.etherType = stampProto ∧ f.phase = 0
  follow : ∀ m f, (x.host h).sent[2 * m + 1]? = some f → x.Knows m f.ts (h.sendOffset + 1)
  carries : x.Carries h n

theorem Grows.setHost {p : StampHost} (hhost : x.host = y.host) (hsentAt : (x.host h).sentAt <+: p.sentAt)
    (harrivedAt : (x.host h).arrivedAt <+: p.arrivedAt) : Grows x (y.setHost h p) := by
  intro j
  rcases eq_or_peer h j with rfl | rfl
  · rw [setHost_host_self]
    exact ⟨hsentAt, harrivedAt⟩
  · rw [setHost_host_of_ne (peer_ne h), hhost]
    exact ⟨List.prefix_refl _, List.prefix_refl _⟩

/-- What its peer does leaves a host in its place, with new frames on the way to it. -/
theorem HostInv.keep {l : List StampFrame} (hi : x.HostInv h n r) (hg : Grows x y) (hhost : y.host h = x.host h)
    (hsent : (y.host h.peer).sent = (x.host h.peer).sent ++ l) (hwire : y.wire h = x.wire h ++ l) :
    y.HostInv h n r where
  stands := by rw [hhost]; exact hi.stands
  stamps := by rw [hhost]; exact hi.stamps
  arrived_le := by
    rw [hhost, hsent, List.length_append]
    exact Nat.le_add_right_of_le hi.arrived_le
  wire := by rw [hwire, hi.wire, hhost, hsent, List.drop_append_of_le_length hi.arrived_le]
  queued := by
    rw [hhost, hsent]
    exact hi.queued.grow (List.prefix_append _ _)
  first := by rw [hhost]; exact hi.first
  follow m f hf := by
    rw [hhost] at hf
    exact hg.knows (hi.follow m f hf)
  carries := hi.carries.grow hg (by rw [hhost]) (by rw [hhost])

/-- A host sends a frame. -/
theorem HostInv.transmit {n' m q : ℕ} {p : StampHost} {f : StampFrame} (hi : x.HostInv h n r)
    (hp : x.HostInv h.peer m q) (hsent : p.sent = (x.host h).sent ++ [f]) (hqueue : p.queue = (x.host h).queue)
    (harrivedAt : p.arrivedAt = (x.host h).arrivedAt) (hsentAt : (x.host h).sentAt <+: p.sentAt)
    (hstands : Stands h p.pc n' p.sent.length r) (hstamps : p.sentAt.length = (p.sent.length + 1) / 2)
    (hfirst : ∀ k, (x.host h).sent.length = 2 * k → f.etherType = stampProto ∧ f.phase = 0)
    (hfollow : ∀ k, (x.host h).sent.length = 2 * k + 1 →
      ((x.transmit h f).setHost h p).Knows k f.ts (h.sendOffset + 1))
    (hcarries : ((x.transmit h f).setHost h p).Carries h n') :
    ((x.transmit h f).setHost h p).HostInv h n' r ∧ ((x.transmit h f).setHost h p).HostInv h.peer m q ∧
      Grows x ((x.transmit h f).setHost h p) := by
  have hg : Grows x ((x.transmit h f).setHost h p) :=
    Grows.setHost rfl hsentAt (harrivedAt ▸ List.prefix_refl _)
  have hself : ((x.transmit h f).setHost h p).host h = p := setHost_host_self p
  have hpeer : ((x.transmit h f).setHost h p).host h.peer = x.host h.peer := setHost_host_of_ne (peer_ne h) p
  have hwire : ((x.transmit h f).setHost h p).wire h = x.wire h := Function.update_of_ne (peer_ne h).symm _ _
  have hwire' : ((x.transmit h f).setHost h p).wire h.peer = x.wire h.peer ++ [f] := Function.update_self _ _ _
  refine ⟨⟨?_, ?_, ?_, ?_, ?_, ?_, ?_, hcarries⟩, ?_, hg⟩
  · rw [hself]
    exact hstands
  · rw [hself]
    exact hstamps
  · rw [hself, hpeer, harrivedAt]
    exact hi.arrived_le
  · rw [hwire, hself, hpeer, harrivedAt]
    exact hi.wire
  · rw [hself, hpeer, harrivedAt, hqueue]
    exact hi.queued
  · intro k g hk
    rw [hself, hsent] at hk
    rcases getElem?_concat hk with hbefore | ⟨hlength, rfl⟩
    · exact hi.first k g hbefore
    · exact hfirst k hlength.symm
  · intro k g hk
    rw [hself, hsent] at hk
    rcases getElem?_concat hk with hbefore | ⟨hlength, rfl⟩
    · exact hg.knows (hi.follow k g hbefore)
    · exact hfollow k hlength.symm
  · apply hp.keep hg hpeer _ hwire'
    rw [peer_peer, hself, hsent]

theorem HostInv.sendOneWithFollowup {m q : ℕ} {hw : Timespec} (hi : x.HostInv h n r) (hp : x.HostInv h.peer m q)
    (hs : x.sendOneWithFollowup h hw = some y) :
    ∃ n', (h = .sender → n' = n) ∧ y.HostInv h n' r ∧ y.HostInv h.peer m q ∧ Grows x y := by
  have hstands := hi.stands
  have hstamps := hi.stamps
  have hcarries := hi.carries
  rw [Exchange.sendOneWithFollowup] at hs
  rw [Carries] at hcarries
  cases hpc : (x.host h).pc with
  | send =>
    simp only [hpc] at hs hcarries
    rw [hpc] at hstands
    cases hs
    have heven : (x.host h).sent.length = 2 * n := by cases h <;> exact hstands.1
    refine ⟨n, fun _ => rfl, hi.transmit hp rfl rfl rfl (List.prefix_append _ _) ?_ ?_ ?_ ?_ ?_⟩
    · rw [List.length_append, List.length_singleton]
      cases h <;> exact ⟨by rw [heven], hstands.2⟩
    · simp only [List.length_append, List.length_singleton]
      omega
    · exact fun _ _ => ⟨rfl, rfl⟩
    · intro k hk
      omega
    · rw [Carries]
      simp only [setHost_host_self, time_sendOffset]
      refine ⟨?_, ?_⟩
      · refine Grows.knows ?_ hcarries
        exact Grows.setHost rfl (List.prefix_append _ _) (List.prefix_refl _)
      · have hlength : (x.host h).sentAt.length = n := by omega
        rw [← hlength, List.getElem?_concat_length]
  | followup hw' =>
    simp only [hpc] at hs hcarries
    rw [hpc] at hstands
    cases hs
    have hodd : (x.host h).sent.length = 2 * n + 1 := by cases h <;> exact hstands.1
    obtain ⟨n', hn', hstands'⟩ : ∃ n', (h = .sender → n' = n) ∧ Stands h .recv n' (2 * n + 2) r := by
      cases h with
      | sender => exact ⟨n, fun _ => rfl, rfl, hstands.2⟩
      | listener => exact ⟨n + 1, (fun hne => by cases hne), by rw [Nat.mul_succ], by rw [hstands.2, Nat.mul_succ]⟩
    refine ⟨n', hn', hi.transmit hp rfl rfl rfl (List.prefix_refl _) ?_ ?_ ?_ ?_ ?_⟩
    · rw [List.length_append, List.length_singleton, hodd]
      exact hstands'
    · simp only [List.length_append, List.length_singleton]
      omega
    · intro k hk
      omega
    · intro k hk
      have hkn : k = n := by omega
      subst hkn
      refine Grows.knows ?_ (hcarries.1.update rfl hcarries.2)
      exact Grows.setHost rfl (List.prefix_refl _) (List.prefix_refl _)
    · rw [Carries]
      simp only [setHost_host_self]
  | recv | second _ | exited =>
    simp only [hpc] at hs
    cases hs

/-- A host changes what is in its own memory and socket. -/
theorem HostInv.own {n' r' m q : ℕ} {p : StampHost} (hi : x.HostInv h n r) (hp : x.HostInv h.peer m q)
    (hself : y.host h = p) (hpeer : y.host h.peer = x.host h.peer) (hwire : y.wire = x.wire)
    (hsent : p.sent = (x.host h).sent) (hsentAt : p.sentAt = (x.host h).sentAt)
    (harrivedAt : p.arrivedAt = (x.host h).arrivedAt) (hstands : Stands h p.pc n' p.sent.length r')
    (hqueued : Queued (x.host h.peer).sent (x.host h).arrivedAt r' p.queue)
    (hcarries : Grows x y → y.Carries h n') : y.HostInv h n' r' ∧ y.HostInv h.peer m q ∧ Grows x y := by
  have hg : Grows x y := by
    intro j
    rcases eq_or_peer h j with rfl | rfl
    · rw [hself, hsentAt, harrivedAt]
      exact ⟨List.prefix_refl _, List.prefix_refl _⟩
    · rw [hpeer]
      exact ⟨List.prefix_refl _, List.prefix_refl _⟩
  refine ⟨⟨?_, ?_, ?_, ?_, ?_, ?_, ?_, hcarries hg⟩, ?_, hg⟩
  · rw [hself]
    exact hstands
  · rw [hself, hsentAt, hsent]
    exact hi.stamps
  · rw [hself, hpeer, harrivedAt]
    exact hi.arrived_le
  · rw [hwire, hself, hpeer, harrivedAt]
    exact hi.wire
  · rw [hself, hpeer, harrivedAt]
    exact hqueued
  · rw [hself, hsent]
    exact hi.first
  · intro k g hk
    rw [hself, hsent] at hk
    exact hg.knows (hi.follow k g hk)
  · apply hp.keep (l := []) hg hpeer
    · rw [peer_peer, hself, hsent, List.append_nil]
    · rw [hwire, List.append_nil]

theorem HostInv.setHost {n' r' m q : ℕ} {p : StampHost} (hi : x.HostInv h n r) (hp : x.HostInv h.peer m q)
    (hsent : p.sent = (x.host h).sent) (hsentAt : p.sentAt = (x.host h).sentAt)
    (harrivedAt : p.arrivedAt = (x.host h).arrivedAt) (hstands : Stands h p.pc n' p.sent.length r')
    (hqueued : Queued (x.host h.peer).sent (x.host h).arrivedAt r' p.queue)
    (hcarries : Grows x (x.setHost h p) → (x.setHost h p).Carries h n') :
    (x.setHost h p).HostInv h n' r' ∧ (x.setHost h p).HostInv h.peer m q ∧ Grows x (x.setHost h p) :=
  hi.own hp (setHost_host_self p) (setHost_host_of_ne (peer_ne h) p) rfl hsent hsentAt harrivedAt hstands hqueued
    hcarries

/-- How many of the sender's runs that have begun are over, apart from those before the last. -/
def finished (x : Exchange) : ℕ :=
  match (x.host .sender).pc with
  | .exited => 1
  | _ => 0

/-- What a receive adds to the reports. -/
def Reported (x y : Exchange) (h : Host) (n : ℕ) : Prop :=
  y.reports = x.reports ∧ y.finished = x.finished ∨
    h = .sender ∧ ∃ ts, y.reports = x.reports ++ [ts] ∧ x.finished = 0 ∧ y.finished = 1 ∧ y.Knows n ts 4

theorem finished_setHost {p : StampHost} (hpc : (x.host h).pc ≠ .exited) (hp : p.pc ≠ .exited) :
    (x.setHost h p).finished = x.finished := by
  cases h with
  | listener => rfl
  | sender =>
    rw [finished, finished, setHost_host_self]
    cases hsender : (x.host .sender).pc <;> cases hnew : p.pc <;>
      first | rfl | exact absurd hsender hpc | exact absurd hnew hp

theorem HostInv.recvOneWithFollowup {m q : ℕ} (hi : x.HostInv h n r) (hp : x.HostInv h.peer m q)
    (hs : x.recvOneWithFollowup h = some y) :
    ∃ r', (y.HostInv h n r' ∧ y.HostInv h.peer m q ∧ Grows x y) ∧ Reported x y h n := by
  have hstands := hi.stands
  have hcarries := hi.carries
  have hqueued := hi.queued
  rw [Exchange.recvOneWithFollowup] at hs
  rw [Carries] at hcarries
  cases hpc : (x.host h).pc with
  | recv =>
    rw [hpc] at hstands
    have hr : r = 2 * n := by cases h <;> exact hstands.2
    cases hqueue : (x.host h).queue with
    | nil =>
      simp only [hpc, hqueue] at hs
      cases hs
    | cons a queue =>
      simp only [hpc, hqueue] at hs
      rw [hqueue] at hqueued
      cases hqueued with
      | other hforeign heven hrest =>
        rw [if_neg (hforeign _)] at hs
        cases hs
        refine ⟨r, hi.setHost hp rfl rfl rfl hstands hrest fun _ => ?_,
          .inl ⟨rfl, finished_setHost (by simp [hpc]) (by simp)⟩⟩
        rw [Carries]
        simp only [setHost_host_self]
      | @frame _ f hw _ hframe hstamp hrest =>
        subst hr
        rw [if_pos ⟨rfl, hp.first n f hframe⟩] at hs
        cases hs
        refine ⟨2 * n + 1, hi.setHost hp rfl rfl rfl ?_ hrest fun hg => ?_,
          .inl ⟨rfl, finished_setHost (by simp [hpc]) (by simp)⟩⟩
        · cases h <;> exact ⟨hstands.1, rfl⟩
        · rw [Carries]
          simp only [setHost_host_self]
          apply hg.time
          rw [time_recvOffset, hstamp]
  | second hw =>
    rw [hpc] at hstands
    simp only [hpc] at hcarries
    have hr : r = 2 * n + 1 := by cases h <;> exact hstands.2
    cases hqueue : (x.host h).queue with
    | nil =>
      simp only [hpc, hqueue] at hs
      cases hs
    | cons a queue =>
      simp only [hpc, hqueue] at hs
      rw [hqueue] at hqueued
      cases hqueued with
      | other _ heven _ => omega
      | @frame _ f _ _ hframe hstamp hrest =>
        subst hr
        have htold := (hp.follow n f hframe).update (i := h.recvOffset) (by cases h <;> rfl) hcarries
        cases h with
        | sender =>
          obtain ⟨p, hpdef, rfl⟩ : ∃ p : StampHost,
              p = { x.host .sender with
                f := { f with ts := Function.update f.ts Host.sender.recvOffset hw }, pc := .exited, queue := queue } ∧
              (x.setHost .sender p).report (Function.update f.ts Host.sender.recvOffset hw) = y :=
            ⟨_, rfl, Option.some.inj hs⟩
          generalize hts : Function.update f.ts Host.sender.recvOffset hw = ts at htold ⊢
          have hself : ((x.setHost .sender p).report ts).host .sender = p :=
            @setHost_host_self x .sender p
          have hmoved := hi.own hp hself (setHost_host_of_ne (peer_ne .sender) p) rfl (by rw [hpdef]) (by rw [hpdef])
            (by rw [hpdef]) (by rw [hpdef]; exact ⟨hstands.1, rfl⟩) (by rw [hpdef]; exact hrest) (fun _ => by
              rw [Carries, hself, hpdef]
              trivial)
          refine ⟨2 * n + 2, hmoved, .inr ⟨rfl, _, rfl, by rw [finished, hpc], ?_, hmoved.2.2.knows htold⟩⟩
          rw [finished, hself, hpdef]
        | listener =>
          cases hs
          refine ⟨2 * n + 2, hi.setHost hp rfl rfl rfl ⟨hstands.1, rfl⟩ hrest fun hg => ?_, .inl ⟨rfl, rfl⟩⟩
          rw [Carries]
          simp only [setHost_host_self]
          exact hg.knows htold
  | send | followup _ | exited =>
    simp only [hpc] at hs
    cases hs

theorem HostInv.arrive {m q : ℕ} {hw : Timespec} (hi : x.HostInv h n r) (hp : x.HostInv h.peer m q)
    (hs : x.step (.arrive h hw) = some y) :
    (y.HostInv h n r ∧ y.HostInv h.peer m q ∧ Grows x y) ∧ y.reports = x.reports ∧ y.finished = x.finished ∧
      (y.host h).arrivedAt.length = (x.host h).arrivedAt.length + 1 := by
  have hwire := hi.wire
  rw [step] at hs
  cases hnext : x.wire h with
  | nil =>
    simp only [hnext] at hs
    cases hs
  | cons f rest =>
    simp only [hnext] at hs
    rw [hnext] at hwire
    have hlt : (x.host h).arrivedAt.length < (x.host h.peer).sent.length := by
      by_contra hge
      rw [List.drop_eq_nil_of_le (Nat.not_lt.mp hge)] at hwire
      cases hwire
    rw [List.drop_eq_getElem_cons hlt] at hwire
    obtain ⟨hf, hrest⟩ := List.cons_eq_cons.mp hwire
    obtain ⟨p, hpdef, hy⟩ : ∃ p : StampHost,
        p = { x.host h with
          queue := (x.host h).queue ++ [⟨stampFrameSize, fun _ => f, hw⟩]
          arrivedAt := (x.host h).arrivedAt ++ [hw] } ∧
        ({ x with wire := Function.update x.wire h rest } : Exchange).setHost h p = y :=
      ⟨_, rfl, Option.some.inj hs⟩
    have hself : y.host h = p := by rw [← hy, setHost_host_self]
    have hpeer : y.host h.peer = x.host h.peer := by rw [← hy, setHost_host_of_ne (peer_ne h)]
    have hywire : y.wire h = rest := by
      rw [← hy]
      exact Function.update_self _ _ _
    have hywire' : y.wire h.peer = x.wire h.peer := by
      rw [← hy]
      exact Function.update_of_ne (peer_ne h) _ _
    have hsent : p.sent = (x.host h).sent := by rw [hpdef]
    have hsentAt : p.sentAt = (x.host h).sentAt := by rw [hpdef]
    have harrivedAt : p.arrivedAt = (x.host h).arrivedAt ++ [hw] := by rw [hpdef]
    have hlength : p.arrivedAt.length = (x.host h).arrivedAt.length + 1 := by
      rw [harrivedAt, List.length_append, List.length_singleton]
    have hg : Grows x y := by
      intro j
      rcases eq_or_peer h j with rfl | rfl
      · rw [hself, hsentAt, harrivedAt]
        exact ⟨List.prefix_refl _, List.prefix_append _ _⟩
      · rw [hpeer]
        exact ⟨List.prefix_refl _, List.prefix_refl _⟩
    refine ⟨⟨⟨?_, ?_, ?_, ?_, ?_, ?_, ?_, ?_⟩, ?_, hg⟩, by rw [← hy]; rfl, ?_, by rw [hself, hlength]⟩
    · rw [hself, hpdef]
      exact hi.stands
    · rw [hself, hsentAt, hsent]
      exact hi.stamps
    · rw [hself, hpeer, hlength]
      exact hlt
    · rw [hywire, hself, hpeer, hlength]
      exact hrest
    · rw [hself, hpeer, harrivedAt, hpdef]
      apply hi.queued.arrive
      rw [List.getElem?_eq_getElem hlt, hf]
    · rw [hself, hsent]
      exact hi.first
    · intro k g hk
      rw [hself, hsent] at hk
      exact hg.knows (hi.follow k g hk)
    · exact hi.carries.grow hg (by rw [hself, hpdef]) (by rw [hself, hpdef])
    · apply hp.keep (l := []) hg hpeer
      · rw [peer_peer, hself, hsent, List.append_nil]
      · rw [hywire', List.append_nil]
    · cases h with
      | sender => rw [finished, finished, hself, hpdef]
      | listener => rw [finished, finished, show y.host .sender = x.host .sender from hpeer]

theorem HostInv.other {m q : ℕ} {a : Arrival} (hi : x.HostInv h n r) (hp : x.HostInv h.peer m q)
    (hforeign : ∀ f, ¬ GoodFrame a.ret (a.fill f)) (heven : (x.host h).arrivedAt.length % 2 = 0)
    (hs : x.step (.other h a) = some y) :
    (y.HostInv h n r ∧ y.HostInv h.peer m q ∧ Grows x y) ∧ y.reports = x.reports ∧ y.finished = x.finished := by
  obtain ⟨p, hpdef, rfl⟩ : ∃ p : StampHost,
      p = { x.host h with queue := (x.host h).queue ++ [a] } ∧ x.setHost h p = y :=
    ⟨_, rfl, Option.some.inj hs⟩
  refine ⟨hi.own hp (setHost_host_self p) (setHost_host_of_ne (peer_ne h) p) rfl ?_ ?_ ?_ ?_ ?_ ?_, rfl, ?_⟩
  · rw [hpdef]
  · rw [hpdef]
  · rw [hpdef]
  · rw [hpdef]
    exact hi.stands
  · rw [hpdef]
    exact hi.queued.interfere hforeign heven
  · exact fun hg => hi.carries.grow hg (by rw [setHost_host_self, hpdef]) (by rw [setHost_host_self, hpdef])
  · cases h with
    | sender => rw [finished, finished, setHost_host_self, hpdef]
    | listener => rfl

/-- The next run of the sender begins when all that was sent has been taken. -/
theorem HostInv.restart {m q : ℕ} (hi : x.HostInv .sender n r) (hp : x.HostInv .listener m q)
    (hs : x.step .restart = some y) :
    (y.HostInv .sender (n + 1) r ∧ y.HostInv .listener m q ∧ Grows x y) ∧ y.reports = x.reports ∧
      x.finished = 1 ∧ y.finished = 0 := by
  have hstands := hi.stands
  rw [step] at hs
  cases hpc : (x.host .sender).pc with
  | exited =>
    simp only [hpc] at hs
    rw [hpc] at hstands
    obtain ⟨p, hpdef, rfl⟩ : ∃ p : StampHost,
        p = { x.host .sender with f := {}, pc := .send, queue := [] } ∧ x.setHost .sender p = y :=
      ⟨_, rfl, Option.some.inj hs⟩
    have hall : (x.host .sender).arrivedAt.length = r := by
      have htaken := hi.queued.le
      have harrived := hi.arrived_le
      have htaken' := hp.queued.le
      have harrived' := hp.arrived_le
      have hanswers : (x.host .listener).sent.length ≤ q := by
        have hlistener := hp.stands
        cases hcall : (x.host .listener).pc <;> rw [hcall] at hlistener
        · exact hlistener.1.trans_le (by rw [hlistener.2]; omega)
        · exact hlistener.1.trans_le (by rw [hlistener.2]; omega)
        · exact hlistener.1.trans_le (by rw [hlistener.2])
        · exact hlistener.1.trans_le (by rw [hlistener.2]; omega)
        · exact hlistener.elim
      simp only [Host.peer] at harrived harrived'
      obtain ⟨hsent, htook⟩ := hstands
      omega
    refine ⟨hi.own hp (setHost_host_self p) (setHost_host_of_ne (peer_ne .sender) p) rfl ?_ ?_ ?_ ?_ ?_ ?_, rfl,
      by rw [finished, hpc], by rw [finished, setHost_host_self, hpdef]⟩
    · rw [hpdef]
    · rw [hpdef]
    · rw [hpdef]
    · rw [hpdef]
      exact ⟨by rw [hstands.1, Nat.mul_succ], by rw [hstands.2, Nat.mul_succ]⟩
    · rw [hpdef, ← hall]
      exact .done
    · intro _
      rw [Carries, setHost_host_self, hpdef]
      exact fun i hi => absurd hi (Nat.not_lt_zero _)
  | send | followup _ | recv | second _ =>
    simp only [hpc] at hs
    cases hs

/-- Both hosts, with the reports of the runs that are over. -/
structure Inv (x : Exchange) (n r m q : ℕ) : Prop where
  sender : x.HostInv .sender n r
  listener : x.HostInv .listener m q
  count : x.reports.length = n + x.finished
  reports : ∀ k ts, x.reports[k]? = some ts → x.Knows k ts 4

theorem start_inv : start.Inv 0 0 0 0 where
  sender := ⟨⟨rfl, rfl⟩, rfl, Nat.le_refl _, rfl, .done, fun m f hf => absurd hf (by simp [start]),
    fun m f hf => absurd hf (by simp [start]), fun _ hi => absurd hi (Nat.not_lt_zero _)⟩
  listener := ⟨⟨rfl, rfl⟩, rfl, Nat.le_refl _, rfl, .done, fun m f hf => absurd hf (by simp [start]),
    fun m f hf => absurd hf (by simp [start]), trivial⟩
  count := rfl
  reports k ts hk := absurd hk (by simp [start])

theorem Inv.same {m q n' r' m' q' : ℕ} (hI : x.Inv n r m q) (hsender : y.HostInv .sender n' r')
    (hlistener : y.HostInv .listener m' q') (hg : Grows x y) (hreports : y.reports = x.reports)
    (hcount : n' + y.finished = n + x.finished) : y.Inv n' r' m' q' where
  sender := hsender
  listener := hlistener
  count := by rw [hreports, hI.count, hcount]
  reports k ts hk := by
    rw [hreports] at hk
    exact hg.knows (hI.reports k ts hk)

theorem finished_send {hw : Timespec} (hs : x.sendOneWithFollowup h hw = some y) :
    y.reports = x.reports ∧ y.finished = x.finished := by
  rw [sendOneWithFollowup] at hs
  cases hpc : (x.host h).pc with
  | send | followup _ =>
    simp only [hpc] at hs
    cases hs
    have hbefore : ∀ f, ((x.transmit h f).host h).pc ≠ .exited := by
      intro f
      rw [show (x.transmit h f).host = x.host from rfl, hpc]
      simp
    exact ⟨rfl, finished_setHost (hbefore _) (by simp)⟩
  | recv | second _ | exited =>
    simp only [hpc] at hs
    cases hs

theorem Inv.step {a : ExchangeAct} {m q : ℕ} (hI : x.Inv n r m q) (ha : x.Undisturbed a) (hs : x.step a = some y) :
    ∃ n' r' m' q', y.Inv n' r' m' q' := by
  cases a with
  | send h hw =>
    obtain ⟨hreports, hfinished⟩ := finished_send hs
    cases h with
    | sender =>
      obtain ⟨n', hn', hsender, hlistener, hg⟩ := hI.sender.sendOneWithFollowup hI.listener hs
      exact ⟨_, _, _, _, hI.same hsender hlistener hg hreports (by rw [hn' rfl, hfinished])⟩
    | listener =>
      obtain ⟨m', -, hlistener, hsender, hg⟩ := hI.listener.sendOneWithFollowup hI.sender hs
      exact ⟨_, _, _, _, hI.same hsender hlistener hg hreports (by rw [hfinished])⟩
  | recv h =>
    cases h with
    | sender =>
      obtain ⟨r', ⟨hsender, hlistener, hg⟩, hreported⟩ := hI.sender.recvOneWithFollowup hI.listener hs
      rcases hreported with ⟨hreports, hfinished⟩ | ⟨-, ts, hreports, hbefore, hafter, hknows⟩
      · exact ⟨_, _, _, _, hI.same hsender hlistener hg hreports (by rw [hfinished])⟩
      · have hcount := hI.count
        refine ⟨_, _, _, _, hsender, hlistener, ?_, ?_⟩
        · rw [hreports, List.length_append, hcount, hbefore, hafter]
          rfl
        · intro k ts' hk
          rw [hreports] at hk
          rcases getElem?_concat hk with hold | ⟨rfl, rfl⟩
          · exact hg.knows (hI.reports k ts' hold)
          · rw [hcount, hbefore, Nat.add_zero]
            exact hknows
    | listener =>
      obtain ⟨q', ⟨hlistener, hsender, hg⟩, hreported⟩ := hI.listener.recvOneWithFollowup hI.sender hs
      rcases hreported with ⟨hreports, hfinished⟩ | ⟨hne, -⟩
      · exact ⟨_, _, _, _, hI.same hsender hlistener hg hreports (by rw [hfinished])⟩
      · cases hne
  | arrive h hw =>
    cases h with
    | sender =>
      obtain ⟨⟨hsender, hlistener, hg⟩, hreports, hfinished, -⟩ := hI.sender.arrive hI.listener hs
      exact ⟨_, _, _, _, hI.same hsender hlistener hg hreports (by rw [hfinished])⟩
    | listener =>
      obtain ⟨⟨hlistener, hsender, hg⟩, hreports, hfinished, -⟩ := hI.listener.arrive hI.sender hs
      exact ⟨_, _, _, _, hI.same hsender hlistener hg hreports (by rw [hfinished])⟩
  | other h a =>
    cases h with
    | sender =>
      obtain ⟨⟨hsender, hlistener, hg⟩, hreports, hfinished⟩ := hI.sender.other hI.listener ha.1 ha.2 hs
      exact ⟨_, _, _, _, hI.same hsender hlistener hg hreports (by rw [hfinished])⟩
    | listener =>
      obtain ⟨⟨hlistener, hsender, hg⟩, hreports, hfinished⟩ := hI.listener.other hI.sender ha.1 ha.2 hs
      exact ⟨_, _, _, _, hI.same hsender hlistener hg hreports (by rw [hfinished])⟩
  | restart =>
    obtain ⟨⟨hsender, hlistener, hg⟩, hreports, hbefore, hafter⟩ := hI.sender.restart hI.listener hs
    exact ⟨_, _, _, _, hI.same hsender hlistener hg hreports (by rw [hbefore, hafter])⟩

/-- The steps of the hosts and the wires. -/
def Quiet (_ : Exchange) : ExchangeAct → Prop
  | .other .. | .restart => False
  | .send .. | .recv _ | .arrive .. => True

instance (x : Exchange) : ∀ a, Decidable (x.Quiet a)
  | .other .. | .restart => isFalse fun h => h
  | .send .. | .recv _ | .arrive .. => isTrue trivial

/-- The runs of the sender that have begun. -/
def begun (x : Exchange) : ℕ := x.reports.length + (1 - x.finished)

/-- The steps that a host has left: each frame that is still to be sent is taken off a wire and out of a socket. -/
def hostWork (x : Exchange) (h : Host) : ℕ :=
  (2 * x.begun - (x.host h).sent.length) + 2 * (2 * x.begun - (x.host h).arrivedAt.length) + (x.host h).queue.length

def work (x : Exchange) : ℕ := x.hostWork .sender + x.hostWork .listener

theorem finished_le (x : Exchange) : x.finished ≤ 1 := by
  rw [finished]
  split <;> simp

/-- No host is ahead of the runs that have begun. -/
theorem Inv.bounds {m q : ℕ} (hI : x.Inv n r m q) :
    x.begun = n + 1 ∧ ∀ h, (x.host h).sent.length ≤ 2 * x.begun ∧ (x.host h).arrivedAt.length ≤ 2 * x.begun := by
  have hcount := hI.count
  have hle := finished_le x
  have hbegun : x.begun = n + 1 := by
    rw [begun, hcount]
    omega
  have hsender : (x.host .sender).sent.length ≤ 2 * x.begun := by
    have hstands := hI.sender.stands
    cases hcall : (x.host .sender).pc <;> rw [hcall] at hstands <;> have hsent := hstands.1 <;> omega
  have hanswers : (x.host .listener).sent.length ≤ q := by
    have hstands := hI.listener.stands
    cases hcall : (x.host .listener).pc with
    | exited =>
      rw [hcall] at hstands
      exact hstands.elim
    | send | followup _ | recv | second _ =>
      rw [hcall] at hstands
      have hsent := hstands.1
      have htaken := hstands.2
      omega
  have htaken := hI.listener.queued.le
  have harrived := hI.listener.arrived_le
  have harrived' := hI.sender.arrived_le
  simp only [Host.peer] at harrived harrived'
  refine ⟨hbegun, fun h => ?_⟩
  cases h with
  | sender => exact ⟨hsender, by omega⟩
  | listener => exact ⟨by omega, by omega⟩

/-- A host sends a frame, lets one in from the wire, or takes one out of its socket. -/
theorem quiet_cases {a : ExchangeAct} (ha : x.Quiet a) (hs : x.step a = some y) :
    ∃ h, y.host h.peer = x.host h.peer ∧
      ((y.host h).sent.length = (x.host h).sent.length + 1 ∧ (y.host h).arrivedAt = (x.host h).arrivedAt ∧
          (y.host h).queue = (x.host h).queue ∨
        (y.host h).sent = (x.host h).sent ∧ (y.host h).arrivedAt.length = (x.host h).arrivedAt.length + 1 ∧
          (y.host h).queue.length = (x.host h).queue.length + 1 ∨
        (y.host h).sent = (x.host h).sent ∧ (y.host h).arrivedAt = (x.host h).arrivedAt ∧
          (y.host h).queue.length + 1 = (x.host h).queue.length) := by
  cases a with
  | other h a => exact ha.elim
  | restart => exact ha.elim
  | send h hw =>
    refine ⟨h, ?_⟩
    rw [step, sendOneWithFollowup] at hs
    cases hpc : (x.host h).pc with
    | send | followup _ =>
      simp only [hpc] at hs
      cases hs
      refine ⟨setHost_host_of_ne (peer_ne h) _, .inl ?_⟩
      rw [setHost_host_self]
      exact ⟨by simp, rfl, rfl⟩
    | recv | second _ | exited =>
      simp only [hpc] at hs
      cases hs
  | arrive h hw =>
    refine ⟨h, ?_⟩
    rw [step] at hs
    cases hwire : x.wire h with
    | nil =>
      simp only [hwire] at hs
      cases hs
    | cons f rest =>
      simp only [hwire] at hs
      cases hs
      refine ⟨setHost_host_of_ne (peer_ne h) _, .inr (.inl ?_)⟩
      rw [setHost_host_self]
      exact ⟨rfl, by simp, by simp⟩
  | recv h =>
    refine ⟨h, ?_⟩
    rw [step, recvOneWithFollowup] at hs
    cases hqueue : (x.host h).queue with
    | nil => cases hpc : (x.host h).pc <;> simp only [hpc, hqueue] at hs <;> cases hs
    | cons a queue =>
      cases hpc : (x.host h).pc with
      | recv =>
        simp only [hpc, hqueue] at hs
        split at hs <;> cases hs
        all_goals
          refine ⟨setHost_host_of_ne (peer_ne h) _, .inr (.inr ?_)⟩
          rw [setHost_host_self]
          exact ⟨rfl, rfl, by simp⟩
      | second hw =>
        simp only [hpc, hqueue] at hs
        cases h with
        | sender =>
          cases hs
          refine ⟨?_, .inr (.inr ?_)⟩
          · rw [report, setHost_host_of_ne (peer_ne .sender)]
          · rw [report, setHost_host_self]
            exact ⟨rfl, rfl, by simp⟩
        | listener =>
          cases hs
          refine ⟨setHost_host_of_ne (peer_ne .listener) _, .inr (.inr ?_)⟩
          rw [setHost_host_self]
          exact ⟨rfl, rfl, by simp⟩
      | send | followup _ | exited =>
        simp only [hpc] at hs
        cases hs

theorem undisturbed_quiet {a : ExchangeAct} (ha : x.Quiet a) : x.Undisturbed a := by
  cases a with
  | other h a => exact ha.elim
  | restart => exact ha.elim
  | send h hw | recv h | arrive h hw => trivial

/-- The hosts and the wires begin no run. -/
theorem Inv.begun_quiet {a : ExchangeAct} {m q : ℕ} (hI : x.Inv n r m q) (ha : x.Quiet a) (hs : x.step a = some y) :
    y.begun = x.begun := by
  have hreported : ∀ {h : Host} {k : ℕ}, Reported x y h k → y.begun = x.begun := by
    intro h k hreported
    rcases hreported with ⟨hreports, hfinished⟩ | ⟨-, ts, hreports, hbefore, hafter, -⟩
    · rw [begun, begun, hreports, hfinished]
    · rw [begun, begun, hreports, hbefore, hafter, List.length_append]
      rfl
  cases a with
  | other h a => exact ha.elim
  | restart => exact ha.elim
  | send h hw =>
    obtain ⟨hreports, hfinished⟩ := finished_send hs
    rw [begun, begun, hreports, hfinished]
  | arrive h hw =>
    cases h with
    | sender =>
      obtain ⟨-, hreports, hfinished, -⟩ := hI.sender.arrive hI.listener hs
      rw [begun, begun, hreports, hfinished]
    | listener =>
      obtain ⟨-, hreports, hfinished, -⟩ := hI.listener.arrive hI.sender hs
      rw [begun, begun, hreports, hfinished]
  | recv h =>
    cases h with
    | sender => exact hreported (hI.sender.recvOneWithFollowup hI.listener hs).choose_spec.2
    | listener => exact hreported (hI.listener.recvOneWithFollowup hI.sender hs).choose_spec.2

theorem Inv.work_lt {a : ExchangeAct} {m q : ℕ} (hI : x.Inv n r m q) (ha : x.Quiet a) (hs : x.step a = some y) :
    y.work < x.work := by
  have hbegun := hI.begun_quiet ha hs
  obtain ⟨n', r', m', q', hI'⟩ := hI.step (undisturbed_quiet ha) hs
  obtain ⟨h, hpeer, hcase⟩ := quiet_cases ha hs
  obtain ⟨hsent, harrived⟩ := hI'.bounds.2 h
  have hless : y.hostWork h < x.hostWork h := by
    rw [hostWork, hostWork]
    rw [hbegun] at hsent harrived ⊢
    rcases hcase with ⟨hlength, harrivedAt, hqueue⟩ | ⟨hlength, harrivedAt, hqueue⟩ |
      ⟨hlength, harrivedAt, hqueue⟩
    · rw [harrivedAt, hqueue]
      omega
    · rw [hlength]
      omega
    · rw [hlength, harrivedAt]
      omega
  have hsame : y.hostWork h.peer = x.hostWork h.peer := by rw [hostWork, hostWork, hpeer, hbegun]
  rw [work, work]
  cases h with
  | sender => exact Nat.add_lt_add_of_lt_of_le hless (Nat.le_of_eq hsame)
  | listener => exact Nat.add_lt_add_of_le_of_lt (Nat.le_of_eq hsame) hless

theorem recv_isSome (hpc : (x.host h).pc = .recv ∨ ∃ hw, (x.host h).pc = .second hw)
    (hqueue : (x.host h).queue ≠ []) :
    (x.step (.recv h)).isSome := by
  obtain ⟨a, queue, hcons⟩ := List.exists_cons_of_ne_nil hqueue
  rw [step, recvOneWithFollowup]
  rcases hpc with hpc | ⟨hw, hpc⟩
  · simp only [hpc, hcons]
    split <;> rfl
  · simp only [hpc, hcons]
    cases h <;> rfl

theorem arrive_isSome (hwire : x.wire h ≠ []) (hw : Timespec) : (x.step (.arrive h hw)).isSome := by
  obtain ⟨f, rest, hcons⟩ := List.exists_cons_of_ne_nil hwire
  simp only [step, hcons]
  rfl

theorem send_isSome (hpc : (x.host h).pc = .send ∨ ∃ hw, (x.host h).pc = .followup hw) (hw : Timespec) :
    (x.step (.send h hw)).isSome := by
  rw [step, sendOneWithFollowup]
  rcases hpc with hpc | ⟨hw', hpc⟩ <;> simp only [hpc] <;> rfl

/-- A host that waits for a frame that was sent can go on, or the frame can arrive. -/
theorem HostInv.can_take (hi : x.HostInv h n r) (hpc : (x.host h).pc = .recv ∨ ∃ hw, (x.host h).pc = .second hw)
    (hlt : r < (x.host h.peer).sent.length) : ∃ a, x.Quiet a ∧ (x.step a).isSome := by
  by_cases hqueue : (x.host h).queue = []
  · refine ⟨.arrive h ⟨0, 0⟩, trivial, arrive_isSome ?_ _⟩
    have hqueued := hi.queued
    rw [hqueue] at hqueued
    cases hqueued
    rw [hi.wire]
    intro hnil
    exact absurd (List.drop_eq_nil_iff.mp hnil) (Nat.not_le.mpr hlt)
  · exact ⟨.recv h, trivial, recv_isSome hpc hqueue⟩

/-- The two hosts never wait for each other. -/
theorem Inv.can_step {m q : ℕ} (hI : x.Inv n r m q) (hpc : (x.host .sender).pc ≠ .exited) :
    ∃ a, x.Quiet a ∧ (x.step a).isSome := by
  have hstands := hI.sender.stands
  have hstands' := hI.listener.stands
  cases hsender : (x.host .sender).pc with
  | exited => exact absurd hsender hpc
  | send => exact ⟨.send .sender ⟨0, 0⟩, trivial, send_isSome (.inl hsender) _⟩
  | followup hw => exact ⟨.send .sender ⟨0, 0⟩, trivial, send_isSome (.inr ⟨hw, hsender⟩) _⟩
  | recv | second _ =>
    rw [hsender] at hstands
    obtain ⟨hsent, htaken⟩ := hstands
    by_cases hlt : r < (x.host .listener).sent.length
    · exact hI.sender.can_take (by simp [hsender]) hlt
    · have harrived := hI.sender.arrived_le
      have hle := hI.sender.queued.le
      have harrived' := hI.listener.arrived_le
      have hle' := hI.listener.queued.le
      simp only [Host.peer] at harrived harrived'
      cases hlistener : (x.host .listener).pc with
      | send => exact ⟨.send .listener ⟨0, 0⟩, trivial, send_isSome (.inl hlistener) _⟩
      | followup hw => exact ⟨.send .listener ⟨0, 0⟩, trivial, send_isSome (.inr ⟨hw, hlistener⟩) _⟩
      | recv | second _ =>
        rw [hlistener] at hstands'
        obtain ⟨hsent', htaken'⟩ := hstands'
        exact hI.listener.can_take (by simp [hlistener]) (show q < (x.host .sender).sent.length by omega)
      | exited =>
        rw [hlistener] at hstands'
        exact hstands'.elim

/-- Each report has the four times of its exchange, so that the delays it prints are right, whatever other frames
arrive between the pairs. Once the last run of the sender has begun, it ends with a report after at most as many steps
as are left. -/
theorem delays_reported {acts quiet : List ExchangeAct} (hobeys : Obeys step Undisturbed start acts)
    (hrun : run step start acts = some x) (hquiet : Obeys step Quiet x quiet) (hrest : run step x quiet = some y) :
    (∀ k ts, x.reports[k]? = some ts → (∀ i, x.time k i = some (ts i)) ∧
        ∀ normal : Fin 4 → NormalTimespec, (∀ i, ts i = (normal i).toTimespec) → ReportExact ts) ∧
      quiet.length + y.work ≤ x.work ∧
      ((∀ a, y.Quiet a → y.step a = none) → (y.host .sender).pc = .exited ∧ y.reports.length = x.begun) := by
  have hall : ∃ n r m q, x.Inv n r m q := by
    refine run_invariant (I := fun x => ∃ n r m q, x.Inv n r m q) ?_ ⟨_, _, _, _, start_inv⟩ hobeys hrun
    rintro u a v ⟨n, r, m, q, hI⟩ ha hs
    exact hI.step ha hs
  have hkeep : ∀ {u : Exchange} {a : ExchangeAct} {v : Exchange}, (∃ n r m q, u.Inv n r m q) ∧ u.begun = x.begun →
      u.Quiet a → u.step a = some v → ((∃ n r m q, v.Inv n r m q) ∧ v.begun = x.begun) ∧ v.work < u.work := by
    rintro u a v ⟨⟨n, r, m, q, hI⟩, hbegun⟩ ha hs
    exact ⟨⟨hI.step (undisturbed_quiet ha) hs, (hI.begun_quiet ha hs).trans hbegun⟩, hI.work_lt ha hs⟩
  refine ⟨fun k ts hk => ?_, run_measure hkeep ⟨hall, rfl⟩ hquiet hrest, fun hstuck => ?_⟩
  · obtain ⟨n, r, m, q, hI⟩ := hall
    refine ⟨fun i => hI.reports k ts hk i i.isLt, fun normal hnormal => ?_⟩
    rw [show ts = fun i => (normal i).toTimespec from funext hnormal]
    exact reportTimes_exact normal
  · obtain ⟨⟨n, r, m, q, hI⟩, hbegun⟩ :=
      run_invariant (fun hu ha hs => (hkeep hu ha hs).1) ⟨hall, rfl⟩ hquiet hrest
    have hexited : (y.host .sender).pc = .exited := by
      by_contra hpc
      obtain ⟨a, ha, hsome⟩ := hI.can_step hpc
      rw [hstuck a ha] at hsome
      cases hsome
    refine ⟨hexited, ?_⟩
    rw [← hbegun, begun, finished, hexited]
    rfl

theorem undisturbed_acts {acts : List ExchangeAct} (h : ∀ a ∈ acts, ∀ x : Exchange, x.Undisturbed a) (x : Exchange) :
    Obeys step Undisturbed x acts := by
  induction acts generalizing x with
  | nil => trivial
  | cons a acts ih =>
    exact ⟨h a List.mem_cons_self x, fun t _ => ih (fun b hb => h b (List.mem_cons_of_mem a hb)) t⟩

/-- A frame that is too short. -/
def shortFrame : Arrival := ⟨60, fun f => { f with etherType := 0x0800 }, ⟨0, 0⟩⟩

/-- The frames of an exchange in their order, with its four times. -/
def exchangeAt (ts : Fin 4 → Timespec) : List ExchangeAct :=
  [.send .sender (ts Host.sender.sendOffset), .arrive .listener (ts Host.listener.recvOffset), .send .sender ⟨0, 0⟩,
    .recv .listener, .arrive .listener ⟨0, 0⟩, .recv .listener, .send .listener (ts Host.listener.sendOffset),
    .arrive .sender (ts Host.sender.recvOffset), .recv .sender, .send .listener ⟨0, 0⟩, .arrive .sender ⟨0, 0⟩,
    .recv .sender]

def firstTimes : Fin 4 → NormalTimespec
  | 0 => ⟨⟨1, 10⟩, ⟨by decide, by decide, by decide, by decide⟩⟩
  | 1 => ⟨⟨1, 500⟩, ⟨by decide, by decide, by decide, by decide⟩⟩
  | 2 => ⟨⟨2, 10⟩, ⟨by decide, by decide, by decide, by decide⟩⟩
  | 3 => ⟨⟨2, 520⟩, ⟨by decide, by decide, by decide, by decide⟩⟩

/-- The listener takes a frame of someone else before the first exchange, and the sender runs again after it. -/
def firstActs : List ExchangeAct :=
  .other .listener shortFrame :: .recv .listener :: (exchangeAt (fun i => (firstTimes i).toTimespec) ++ [.restart])

def asking : Exchange := (run step start firstActs).getD start

def secondActs : List ExchangeAct := exchangeAt fun _ => ⟨3, 0⟩

def answered : Exchange := (run step asking secondActs).getD start

theorem delays_reported_two :
    ((∀ i, asking.time 0 i = some (firstTimes i).toTimespec) ∧ ReportExact fun i => (firstTimes i).toTimespec) ∧
      secondActs.length + answered.work ≤ asking.work ∧ answered.reports.length = 2 := by
  have hrun : run step start firstActs = some asking := rfl
  have hrest : run step asking secondActs = some answered := rfl
  have hother : start.Undisturbed (.other .listener shortFrame) := ⟨fun f hf => absurd hf.1 (by decide), rfl⟩
  have hobeys : Obeys step Undisturbed start firstActs := by
    refine ⟨hother, fun t _ => undisturbed_acts ?_ t⟩
    simp [exchangeAt, Undisturbed]
  obtain ⟨hreports, hwork, hends⟩ := delays_reported hobeys hrun (by decide) hrest
  have hfirst : ∃ ts, asking.reports[0]? = some ts ∧ ∀ i, ts i = (firstTimes i).toTimespec :=
    ⟨_, rfl, by decide⟩
  obtain ⟨ts, hts, hequal⟩ := hfirst
  obtain ⟨htimes, hexact⟩ := hreports 0 ts hts
  rw [funext hequal] at htimes hexact
  have hstuck : ∀ a, answered.Quiet a → answered.step a = none := by
    intro a ha
    cases a with
    | other h a => exact ha.elim
    | restart => exact ha.elim
    | send h hw | recv h | arrive h hw => cases h <;> rfl
  exact ⟨⟨htimes, hexact firstTimes fun _ => rfl⟩, hwork, (hends hstuck).2⟩

end Exchange

end WhiteRabbit.Dio
