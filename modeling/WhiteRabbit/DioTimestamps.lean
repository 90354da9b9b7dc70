import WhiteRabbit.RingArcs
import WhiteRabbit.StepRuns

/-!
# Time stamps of the digital I/O channels

The interrupt handler drains the hardware FIFO of a channel into a ring buffer of the
driver, where a user command collects the stamps. A full ring gives up its oldest stamp.
-/

namespace WhiteRabbit.Dio
open RingArcs StepRuns

def wrnDioBufferLen : ℕ := 512
def wrDioNStamp : ℕ := 16

def wrDioFMask : ℕ := 0x04
def wrDioFWait : ℕ := 0x10

structure Timespec where
  tvSec : ℤ
  tvNsec : ℤ
  deriving DecidableEq

/-- `set_normalized_timespec64`. -/
def setNormalizedTimespec (sec nsec : ℤ) : Timespec :=
  ⟨sec + nsec / 1000000000, nsec % 1000000000⟩

/-- One sample of the hardware FIFO: the registers of 32 bits. -/
structure Sample where
  taiH : ℕ
  taiL : ℕ
  cycle : ℕ

/-- Five cycles are lost in input sync circuits. -/
def Sample.stamp (s : Sample) : Timespec :=
  setNormalizedTimespec (s.taiH <<< 32 ||| s.taiL : ℕ) ((8 * s.cycle % 2 ^ 32 : ℕ) - 40)

structure DioChannel where
  tsbuf : ℕ → Timespec
  bhead : ℕ
  btail : ℕ

structure WrDioCmd where
  channel : ℕ
  flags : ℕ

/-- What a STAMP command returns: an error, nothing yet (it sleeps), or the stamps and the
channel it reports. -/
inductive StampReply where
  | einval
  | eagain
  | sleeps
  | stamps (channel : ℕ) (t : List Timespec)
  deriving DecidableEq

namespace DioChannel

/-- Pull one sample out of the FIFO. -/
def pull (c : DioChannel) (s : Sample) : DioChannel :=
  let h := c.bhead
  let bhead := (h + 1) % wrnDioBufferLen
  { tsbuf := Function.update c.tsbuf h s.stamp
    bhead := bhead
    btail := if bhead = c.btail then (c.btail + 1) % wrnDioBufferLen else c.btail }

/-- The loop that hands out stamps while there is room for them. -/
def collect : ℕ → DioChannel → DioChannel × List Timespec
  | 0, c => (c, [])
  | room + 1, c =>
    if c.bhead = c.btail then (c, [])
    else
      let (c', ts) := collect room { c with btail := (c.btail + 1) % wrnDioBufferLen }
      (c', c.tsbuf c.btail :: ts)

/-- The ring buffer of the channel. -/
def ring (c : DioChannel) : RingBuffer Timespec := ⟨c.tsbuf, c.bhead, c.btail⟩

def pending (c : DioChannel) : List Timespec := c.ring.contents wrnDioBufferLen

theorem pull_ring (c : DioChannel) (s : Sample) :
    (c.pull s).ring = c.ring.push wrnDioBufferLen s.stamp := rfl

theorem collect_cons {c : DioChannel} {room : ℕ} (h : c.bhead ≠ c.btail) :
    c.collect (room + 1) = (({ c with btail := next wrnDioBufferLen c.btail }.collect room).1,
      c.tsbuf c.btail :: ({ c with btail := next wrnDioBufferLen c.btail }.collect room).2) := by
  rw [collect, if_neg h]
  rfl

/-- The stamps handed out lead the buffer. -/
theorem collect_spec {c : DioChannel} (h : c.ring.InRange wrnDioBufferLen) (room : ℕ) :
    (c.collect room).1.ring.InRange wrnDioBufferLen ∧ (c.collect room).2.length ≤ room ∧
      c.pending = (c.collect room).2 ++ (c.collect room).1.pending := by
  induction room generalizing c with
  | zero => exact ⟨h, Nat.le_refl _, rfl⟩
  | succ room ih =>
    by_cases he : c.bhead = c.btail
    · rw [collect, if_pos he]
      exact ⟨h, Nat.zero_le _, rfl⟩
    · have hpop : c.ring.pop wrnDioBufferLen =
          some (c.tsbuf c.btail, ring { c with btail := next wrnDioBufferLen c.btail }) := if_neg he
      obtain ⟨hrange, hcontents⟩ := RingBuffer.pop_some h hpop
      obtain ⟨hrange', hlength, hrest⟩ := ih hrange
      rw [collect_cons he]
      refine ⟨hrange', Nat.succ_le_succ hlength, ?_⟩
      rw [pending, hcontents, List.cons_append, ← hrest]
      rfl

end DioChannel

/-- The channels of the device, with what was drained for each one and what was delivered
for it. -/
structure DioDevice where
  ch : ℕ → DioChannel
  drained : ℕ → List Timespec
  delivered : ℕ → List Timespec

namespace DioDevice

/-- Handle the 1-channel and mask case in the same loop: the first channel of the mask with
stamps is the one reported. -/
def scanChannels (ch : ℕ → DioChannel) (mask : ℕ) : List ℕ → Option (ℕ × DioChannel × List Timespec)
  | [] => none
  | k :: ks =>
    if mask.testBit k then
      match (ch k).collect wrDioNStamp with
      | (_, []) => scanChannels ch mask ks
      | (c, ts) => some (k, c, ts)
    else scanChannels ch mask ks

/-- The channels a command asks for. -/
def WrDioCmd.channels (cmd : WrDioCmd) : List ℕ :=
  if cmd.flags &&& wrDioFMask ≠ 0 then [0, 1, 2, 3, 4] else [cmd.channel]

def WrDioCmd.mask (cmd : WrDioCmd) : ℕ :=
  if cmd.flags &&& wrDioFMask ≠ 0 then cmd.channel else 1 <<< cmd.channel

/-- `wrn_dio_cmd_stamp`. The flags it refuses are those with the bit `WR_DIO_F_MASK ||
WR_DIO_F_WAIT`, which is one. -/
def wrnDioCmdStamp (ch : ℕ → DioChannel) (cmd : WrDioCmd) : (ℕ → DioChannel) × StampReply :=
  if cmd.flags &&& 1 = 1 then (ch, .einval)
  else
    match scanChannels ch (WrDioCmd.mask cmd) (WrDioCmd.channels cmd) with
    | some (k, c, ts) => (Function.update ch k c, .stamps k ts)
    | none => if cmd.flags &&& wrDioFWait ≠ 0 then (ch, .sleeps) else (ch, .eagain)

/-- The draining of `wrn_dio_interrupt`: `fifo` are the samples found for each channel whose
bit is set in the status register. -/
def wrnDioInterrupt (ch : ℕ → DioChannel) (mask : ℕ) (fifo : ℕ → List Sample) : ℕ → DioChannel :=
  fun k => if k < 5 ∧ mask.testBit k then (fifo k).foldl DioChannel.pull (ch k) else ch k

end DioDevice

inductive DioAct where
  | interrupt (mask : ℕ) (fifo : ℕ → List Sample)
  | stamp (cmd : WrDioCmd)

namespace DioDevice

/-- Commands that would sleep, or that name a channel the device does not have, are left out. -/
def step (d : DioDevice) : DioAct → Option DioDevice
  | .interrupt mask fifo =>
    some
      { d with
        ch := wrnDioInterrupt d.ch mask fifo
        drained := fun k =>
          d.drained k ++ if k < 5 ∧ mask.testBit k then (fifo k).map Sample.stamp else [] }
  | .stamp cmd =>
    if cmd.flags &&& wrDioFMask = 0 ∧ 5 ≤ cmd.channel then none
    else
      match wrnDioCmdStamp d.ch cmd with
      | (ch, .stamps k ts) =>
        some { d with ch := ch, delivered := Function.update d.delivered k (d.delivered k ++ ts) }
      | (_, .sleeps) => none
      | (ch, _) => some { d with ch := ch }

def start : DioDevice where
  ch := fun _ => ⟨fun _ => ⟨0, 0⟩, 0, 0⟩
  drained := fun _ => []
  delivered := fun _ => []

/-- The books of a channel are right: a stamp that was neither delivered nor kept has at
least 511 newer ones. -/
def Accounted (d : DioDevice) (k : ℕ) : Prop :=
  (d.ch k).ring.InRange wrnDioBufferLen ∧ ∃ positions base,
    Accounts (wrnDioBufferLen - 1) (d.drained k) (d.delivered k) (d.ch k).pending positions base

end DioDevice

/-- One sample arrives. -/
theorem pull_accounted {c : DioChannel} {arrived taken : List Timespec} {positions : List ℕ} {base : ℕ}
    (hr : c.ring.InRange wrnDioBufferLen)
    (h : Accounts (wrnDioBufferLen - 1) arrived taken c.pending positions base) (s : Sample) :
    (c.pull s).ring.InRange wrnDioBufferLen ∧ ∃ base, Accounts (wrnDioBufferLen - 1)
      (arrived ++ [s.stamp]) taken (c.pull s).pending positions base := by
  refine ⟨hr.push _, ?_⟩
  have hlen : 1 < wrnDioBufferLen := by decide
  have hpush := RingBuffer.push_contents hr hlen s.stamp
  rw [DioChannel.pending, DioChannel.pull_ring, hpush]
  by_cases hfull : next wrnDioBufferLen c.ring.head = c.ring.tail
  · rw [if_pos hfull]
    have hlength := RingBuffer.length_contents_full hr hfull hlen
    cases hc : c.ring.contents wrnDioBufferLen with
    | nil =>
      rw [hc] at hlength
      exact absurd hlength (by decide)
    | cons x rest =>
      rw [DioChannel.pending, hc] at h
      rw [hc, List.length_cons] at hlength
      have hrest : wrnDioBufferLen - 1 ≤ (rest ++ [s.stamp]).length := by
        rw [List.length_append, List.length_singleton]
        omega
      exact ⟨base + 1, (h.arrive s.stamp).lose hrest⟩
  · rw [if_neg hfull]
    exact ⟨base, h.arrive s.stamp⟩

theorem drain_accounted {c : DioChannel} {arrived taken : List Timespec} {positions : List ℕ} {base : ℕ}
    (hr : c.ring.InRange wrnDioBufferLen)
    (h : Accounts (wrnDioBufferLen - 1) arrived taken c.pending positions base) (fifo : List Sample) :
    (fifo.foldl DioChannel.pull c).ring.InRange wrnDioBufferLen ∧ ∃ base,
      Accounts (wrnDioBufferLen - 1) (arrived ++ fifo.map Sample.stamp) taken
        (fifo.foldl DioChannel.pull c).pending positions base := by
  induction fifo generalizing c arrived base with
  | nil => exact ⟨hr, base, by rwa [List.map_nil, List.append_nil]⟩
  | cons s fifo ih =>
    obtain ⟨hr', base', h'⟩ := pull_accounted hr h s
    rw [List.map_cons, List.append_cons, List.foldl_cons]
    exact ih hr' h'

/-- The stamps handed out are taken from the books. -/
theorem collect_accounted {arrived taken ts pending : List Timespec} {positions : List ℕ} {base : ℕ}
    (h : Accounts (wrnDioBufferLen - 1) arrived taken (ts ++ pending) positions base) :
    ∃ positions base, Accounts (wrnDioBufferLen - 1) arrived (taken ++ ts) pending positions base := by
  induction ts generalizing taken positions base with
  | nil => exact ⟨positions, base, by rwa [List.append_nil]⟩
  | cons t ts ih =>
    obtain ⟨positions, base, h'⟩ := ih (h.take)
    exact ⟨positions, base, by rwa [List.append_cons]⟩

namespace DioDevice

theorem scanChannels_some {ch : ℕ → DioChannel} {mask k : ℕ} {ks : List ℕ} {c : DioChannel}
    {ts : List Timespec} (h : scanChannels ch mask ks = some (k, c, ts)) :
    k ∈ ks ∧ (ch k).collect wrDioNStamp = (c, ts) ∧ ts ≠ [] := by
  induction ks with
  | nil => simp [scanChannels] at h
  | cons j ks ih =>
    rw [scanChannels] at h
    split at h
    · split at h
      · obtain ⟨hk, hc⟩ := ih h
        exact ⟨List.mem_cons_of_mem _ hk, hc⟩
      · rename_i c' ts' hne hc
        cases h
        exact ⟨List.mem_cons_self .., hc, hne⟩
    · obtain ⟨hk, hc⟩ := ih h
      exact ⟨List.mem_cons_of_mem _ hk, hc⟩

/-- What a command that delivers stamps does: it takes them from the front of one channel,
the one it reports. -/
theorem wrnDioCmdStamp_stamps {ch ch' : ℕ → DioChannel} {cmd : WrDioCmd} {k : ℕ} {ts : List Timespec}
    (h : wrnDioCmdStamp ch cmd = (ch', .stamps k ts)) :
    k ∈ WrDioCmd.channels cmd ∧ ch' = Function.update ch k ((ch k).collect wrDioNStamp).1 ∧
      ts = ((ch k).collect wrDioNStamp).2 ∧ ts ≠ [] := by
  rw [wrnDioCmdStamp] at h
  split at h
  · simp at h
  · split at h
    · rename_i hs
      cases h
      obtain ⟨hk, hc, hne⟩ := scanChannels_some hs
      rw [hc]
      exact ⟨hk, rfl, rfl, hne⟩
    · split at h <;> simp at h

theorem wrnDioCmdStamp_other {ch ch' : ℕ → DioChannel} {cmd : WrDioCmd} {reply : StampReply}
    (h : wrnDioCmdStamp ch cmd = (ch', reply)) (hr : ∀ k ts, reply ≠ .stamps k ts) : ch' = ch := by
  rw [wrnDioCmdStamp] at h
  split at h
  · cases h
    rfl
  · split at h
    · cases h
      exact absurd rfl (hr _ _)
    · split at h <;> cases h <;> rfl

/-- Delivering from the front of a channel keeps the books of all of them. -/
theorem Accounted.deliver {d : DioDevice} (h : ∀ k, d.Accounted k) (j k : ℕ) :
    Accounted { d with
      ch := Function.update d.ch j ((d.ch j).collect wrDioNStamp).1
      delivered := Function.update d.delivered j (d.delivered j ++ ((d.ch j).collect wrDioNStamp).2) } k := by
  by_cases hk : k = j
  · subst hk
    obtain ⟨hr, positions, base, hacc⟩ := h k
    obtain ⟨hr', -, hpending⟩ := DioChannel.collect_spec hr wrDioNStamp
    rw [hpending] at hacc
    rw [Accounted]
    simp only [Function.update_self]
    exact ⟨hr', collect_accounted hacc⟩
  · have hk' := h k
    rw [Accounted] at hk' ⊢
    simp only [Function.update_of_ne hk]
    exact hk'

theorem Accounted.step {d d' : DioDevice} {a : DioAct} (h : ∀ k, d.Accounted k)
    (hs : d.step a = some d') (k : ℕ) : d'.Accounted k := by
  cases a with
  | interrupt mask fifo =>
    cases hs
    obtain ⟨hr, positions, base, hacc⟩ := h k
    simp only [Accounted, wrnDioInterrupt]
    split
    · obtain ⟨hr', base', hacc'⟩ := drain_accounted hr hacc (fifo k)
      exact ⟨hr', positions, base', hacc'⟩
    · rw [List.append_nil]
      exact ⟨hr, positions, base, hacc⟩
  | stamp cmd =>
    rw [DioDevice.step] at hs
    split at hs
    · simp at hs
    · split at hs
      · rename_i ch j ts hcmd
        cases hs
        obtain ⟨-, rfl, rfl, -⟩ := wrnDioCmdStamp_stamps hcmd
        exact Accounted.deliver h j k
      · simp at hs
      · rename_i ch reply hstamps hsleeps hcmd
        cases hs
        cases wrnDioCmdStamp_other hcmd fun j ts he => hstamps j ts he
        exact h k

theorem start_accounted (k : ℕ) : start.Accounted k := by
  have hlen : 0 < wrnDioBufferLen := by decide
  have hr : (start.ch k).ring.InRange wrnDioBufferLen := ⟨hlen, hlen⟩
  refine ⟨hr, [], 0, ?_⟩
  have hempty : (start.ch k).pending = [] := by
    rw [DioChannel.pending, RingBuffer.contents, List.map_eq_nil_iff, arc_eq_nil_iff hr.tail_lt hr.head_lt]
    rfl
  rw [hempty]
  exact Accounts.nothing

/-- Every stamp drained for a channel is delivered for it in order, or still kept, or it is
older than 511 newer ones; and a command delivers a few stamps of the channel it reports. -/
structure StampsInOrder (d : DioDevice) : Prop where
  accounted : ∀ k < 5, d.Accounted k
  subsequence : ∀ k < 5, (d.delivered k).Sublist (d.drained k)
  inRange : ∀ k < 5, (d.ch k).bhead < wrnDioBufferLen ∧ (d.ch k).btail < wrnDioBufferLen
  command : ∀ cmd ch k ts, wrnDioCmdStamp d.ch cmd = (ch, .stamps k ts) →
    k ∈ WrDioCmd.channels cmd ∧ ts.length ≤ wrDioNStamp ∧ (d.ch k).pending = ts ++ (ch k).pending ∧
      ∀ j, j ≠ k → ch j = d.ch j

/-- It holds after any sequence of interrupts and commands. -/
theorem stampsInOrder {acts : List DioAct} {d : DioDevice} (hrun : run step start acts = some d) :
    d.StampsInOrder := by
  have h : ∀ k, d.Accounted k :=
    run_keeps (I := fun d => ∀ k, d.Accounted k) (fun hI hs => Accounted.step hI hs) start_accounted hrun
  refine ⟨fun k _ => h k, fun k _ => ?_, fun k _ => ?_, fun cmd ch k ts hcmd => ?_⟩
  · obtain ⟨-, positions, base, hacc⟩ := h k
    exact hacc.order.trans (List.take_sublist _ _)
  · obtain ⟨hr, -⟩ := h k
    exact ⟨hr.head_lt, hr.tail_lt⟩
  · obtain ⟨hk, rfl, rfl, -⟩ := wrnDioCmdStamp_stamps hcmd
    obtain ⟨hr, -⟩ := h k
    obtain ⟨-, hlength, hpending⟩ := DioChannel.collect_spec hr wrDioNStamp
    refine ⟨hk, hlength, ?_, fun j hj => Function.update_of_ne hj _ _⟩
    rw [Function.update_self]
    exact hpending

/-- Two samples arrive on channel 1, and a command collects them. -/
theorem stampsInOrder_two : ∃ d, run step start
    [.interrupt 2 (fun _ => [⟨0, 7, 100⟩, ⟨0, 7, 200⟩]), .stamp ⟨1, 0⟩] = some d ∧
      d.delivered 1 = [⟨7, 760⟩, ⟨7, 1560⟩] ∧ d.StampsInOrder := by
  obtain ⟨d, hrun, hdelivered⟩ : ∃ d, run step start
      [.interrupt 2 (fun _ => [⟨0, 7, 100⟩, ⟨0, 7, 200⟩]), .stamp ⟨1, 0⟩] = some d ∧
        d.delivered 1 = [⟨7, 760⟩, ⟨7, 1560⟩] := ⟨_, rfl, rfl⟩
  exact ⟨d, hrun, hdelivered, stampsInOrder hrun⟩

end DioDevice

end WhiteRabbit.Dio
