import WhiteRabbit.ClockReads

/-!
# The second of a frame

The hardware stamps a frame with the ticks of its second only. The driver reads the clock
later, and takes the second before where the ticks it reads are less than those of the stamp.
-/

namespace WhiteRabbit.Nic
open ClockReads
open Dio (Timespec)

def refclkFreq : ℕ := 125000000
def nsecPerTick : ℕ := 1000000000 / refclkFreq
def tsInvalid : ℕ := 2

/-- The PPS generator counts the ticks of each second in a register of 28 bits. -/
structure PpsGenerator (T : Type*) [LinearOrder T] extends PpsClock T where
  ticksPerSecond : ℕ
  width : ticksPerSecond ≤ 2 ^ 28
  ticks_lt : ∀ u, ticks u < ticksPerSecond
  elapsed_mono : Monotone fun u => seconds u * ticksPerSecond + ticks u

variable {T : Type*} [LinearOrder T]

/-- The ticks since the start of the clock. -/
def PpsGenerator.elapsed (gen : PpsGenerator T) (u : T) : ℕ := gen.seconds u * gen.ticksPerSecond + gen.ticks u

section

variable (clock : PpsClock T) (t : ℕ → T)

/-- `wrn_ppsg_read_time`: the fine counter and the seconds. -/
def wrnPpsgReadTime : Reader (ℕ × ℕ) := do
  let utc1 ← readl t clock.cntrUtclo
  let mut cnt ← readl t clock.cntrNsec
  let utc2 ← readl t clock.cntrUtclo
  if utc2 ≠ utc1 then
    cnt ← readl t clock.cntrNsec
  return (cnt, utc2)

/-- We may be at the beginning of the next second. -/
def stampUtc (counterPpsg utc stamp : ℕ) : ℕ := if counterPpsg < stamp then (utc + (2 ^ 32 - 1)) % 2 ^ 32 else utc

/-- The bit says the rising edge counter is one tick ahead. -/
def edgeAhead (tsR tsF : ℕ) : ℕ :=
  let cntrDiff : ℤ := (tsR &&& 0xf : ℕ) - (tsF : ℤ)
  if cntrDiff = 1 ∨ cntrDiff = -0xf then 0x80000000 else 0

/-- The time stamp part of `__wrn_rx_descriptor`, for the register with the counters of the rising
and the falling edge. -/
def wrnRxDescriptor (incorrect : Bool) (r2 : ℕ) : Reader (Option Timespec) := do
  let tsR : ℕ := r2 % 2 ^ 28
  let tsF : ℕ := r2 / 2 ^ 28 % 2 ^ 4
  let (counterPpsg, utc) ← wrnPpsgReadTime clock t
  let utc := stampUtc counterPpsg utc tsR
  let tvSec : ℕ := (utc &&& 0x7fffffff ||| edgeAhead tsR tsF) &&& 0x7fffffff
  let tvNsec : ℕ := tsR * nsecPerTick &&& 0x7fffffff
  return if incorrect then none else some ⟨tvSec, tvNsec⟩

/-- The time stamp of `wrn_tx_tstamp_skb`, if the hardware has reported it. -/
def wrnTxTstampSkb (valid cycles : ℕ) : Reader (Option Timespec) := do
  if valid = 0 then
    return none
  let (counterPpsg, utc) ← wrnPpsgReadTime clock t
  let utc := stampUtc counterPpsg utc cycles
  return if valid &&& tsInvalid = 0 then some ⟨(utc &&& 0x7fffffff : ℕ), (cycles * nsecPerTick : ℕ)⟩ else none

/-- The time stamp of `record_tstamp`. -/
def recordTstamp (tsIncorrect : Bool) (tsval : ℕ) : Reader (Option Timespec) := do
  let (counterPpsg, utc) ← wrnPpsgReadTime clock t
  let utc := stampUtc counterPpsg utc (tsval &&& 0xfffffff)
  return if tsIncorrect then none
    else some ⟨(utc &&& 0x7fffffff : ℕ), ((tsval &&& 0xfffffff) * nsecPerTick : ℕ)⟩

theorem wrnPpsgReadTime_run : (wrnPpsgReadTime clock t).run 0 =
    if clock.cntrUtclo (t 2) = clock.cntrUtclo (t 0) then ((clock.cntrNsec (t 1), clock.cntrUtclo (t 2)), 3)
    else ((clock.cntrNsec (t 3), clock.cntrUtclo (t 2)), 4) := by
  by_cases h : clock.cntrUtclo (t 2) = clock.cntrUtclo (t 0)
  · simp [wrnPpsgReadTime, readl, h]
    rfl
  · simp [wrnPpsgReadTime, readl, h]
    rfl

end

namespace PpsGenerator

variable {gen : PpsGenerator T}

/-- In less than a second the seconds advance at most once. -/
theorem secondsOnce {a b : T} (h : gen.elapsed b < gen.elapsed a + gen.ticksPerSecond) :
    SecondsOnce gen.toPpsClock a b := by
  have hticks := gen.ticks_lt a
  rw [elapsed, elapsed] at h
  rw [SecondsOnce]
  by_contra hlt
  have hle : gen.seconds a + 2 ≤ gen.seconds b := by omega
  have hmul := Nat.mul_le_mul_right gen.ticksPerSecond hle
  rw [Nat.add_mul] at hmul
  omega

end PpsGenerator

/-- The pair read is the time at an instant between the first read and the last. -/
theorem readTime_instant {gen : PpsGenerator T} {t : ℕ → T} (ht : Monotone t)
    (hspan : gen.elapsed (t (((wrnPpsgReadTime gen.toPpsClock t).run 0).2 - 1)) <
      gen.elapsed (t 0) + gen.ticksPerSecond) :
    ∃ u, t 0 ≤ u ∧ u ≤ t (((wrnPpsgReadTime gen.toPpsClock t).run 0).2 - 1) ∧
      ((wrnPpsgReadTime gen.toPpsClock t).run 0).1 = (gen.ticks u, gen.seconds u % 2 ^ 32) := by
  have hle : ∀ {i j : ℕ}, i ≤ j → t i ≤ t j := fun h => ht h
  have honce := PpsGenerator.secondsOnce hspan
  by_cases h : gen.cntrUtclo (t 2) = gen.cntrUtclo (t 0)
  · rw [wrnPpsgReadTime_run, if_pos h] at honce ⊢
    have h02 := seconds_eq_of_low (hle (show 0 ≤ 2 by decide)) honce h
    have h01 := gen.seconds_mono (hle (show 0 ≤ 1 by decide))
    have h12 := gen.seconds_mono (hle (show 1 ≤ 2 by decide))
    have hsec : gen.seconds (t 2) = gen.seconds (t 1) := by omega
    refine ⟨t 1, hle (show 0 ≤ 1 by decide), hle (show 1 ≤ 2 by decide), ?_⟩
    rw [PpsClock.cntrNsec, PpsClock.cntrUtclo, hsec]
  · rw [wrnPpsgReadTime_run, if_neg h] at honce ⊢
    have hne : gen.seconds (t 2) ≠ gen.seconds (t 0) := fun he =>
      h (by rw [PpsClock.cntrUtclo, PpsClock.cntrUtclo, he])
    have h02 := gen.seconds_mono (hle (show 0 ≤ 2 by decide))
    have h23 := gen.seconds_mono (hle (show 2 ≤ 3 by decide))
    have hsec : gen.seconds (t 2) = gen.seconds (t 3) := by
      have hlast : gen.seconds (t 3) ≤ gen.seconds (t 0) + 1 := honce
      omega
    refine ⟨t 3, hle (show 0 ≤ 3 by decide), le_rfl, ?_⟩
    rw [PpsClock.cntrNsec, PpsClock.cntrUtclo, hsec]

/-- Less than a second after an event the ticks tell its second. -/
theorem second_of_event {gen : PpsGenerator T} {s k : ℕ} {u : T} (hk : k < gen.ticksPerSecond)
    (hafter : s * gen.ticksPerSecond + k ≤ gen.elapsed u)
    (hbefore : gen.elapsed u < s * gen.ticksPerSecond + k + gen.ticksPerSecond) :
    gen.seconds u = if gen.ticks u < k then s + 1 else s := by
  have hticks := gen.ticks_lt u
  rw [PpsGenerator.elapsed] at hafter hbefore
  have hlow : s ≤ gen.seconds u := by
    by_contra hlt
    have hmul := Nat.mul_le_mul_right gen.ticksPerSecond (show gen.seconds u + 1 ≤ s by omega)
    rw [Nat.add_mul] at hmul
    omega
  have hhigh : gen.seconds u ≤ s + 1 := by
    by_contra hlt
    have hmul := Nat.mul_le_mul_right gen.ticksPerSecond (show s + 2 ≤ gen.seconds u by omega)
    rw [Nat.add_mul] at hmul
    omega
  rcases Nat.lt_or_ge s (gen.seconds u) with hs | hs
  · have hsec : gen.seconds u = s + 1 := by omega
    rw [hsec, Nat.add_mul] at hbefore
    rw [hsec, if_pos (by omega)]
  · have hsec : gen.seconds u = s := by omega
    rw [hsec] at hafter
    rw [hsec, if_neg (by omega)]

/-- The second of the stamp, in the 31 bits that are kept. -/
theorem stampUtc_eq {counterPpsg utc stamp s : ℕ}
    (h : utc % 2 ^ 32 = (if counterPpsg < stamp then s + 1 else s) % 2 ^ 32) :
    stampUtc counterPpsg (utc % 2 ^ 32) stamp &&& 0x7fffffff = s % 2 ^ 31 := by
  rw [show (0x7fffffff : ℕ) = 2 ^ 31 - 1 from rfl, Nat.and_two_pow_sub_one_eq_mod, stampUtc]
  split at h <;> rename_i hlt
  · rw [if_pos hlt]
    omega
  · rw [if_neg hlt]
    omega

/-- The bit does not stay in the seconds. -/
theorem edgeAhead_cleared (sec tsR tsF : ℕ) :
    (sec &&& 0x7fffffff ||| edgeAhead tsR tsF) &&& 0x7fffffff = sec &&& 0x7fffffff := by
  have hahead : edgeAhead tsR tsF &&& 0x7fffffff = 0 := by
    rw [edgeAhead]
    split <;> rfl
  rw [Nat.and_or_distrib_right, hahead, Nat.or_zero, Nat.and_assoc, Nat.and_self]

section

variable (clock : PpsClock T) (t : ℕ → T)

theorem wrnRxDescriptor_run (incorrect : Bool) (r2 : ℕ) : ((wrnRxDescriptor clock t incorrect r2).run 0).1 =
    if incorrect then none
    else some ⟨((stampUtc ((wrnPpsgReadTime clock t).run 0).1.1 ((wrnPpsgReadTime clock t).run 0).1.2
      (r2 % 2 ^ 28) &&& 0x7fffffff : ℕ) : ℤ), ((r2 % 2 ^ 28 * nsecPerTick &&& 0x7fffffff : ℕ) : ℤ)⟩ := by
  rw [← edgeAhead_cleared _ (r2 % 2 ^ 28) (r2 / 2 ^ 28 % 2 ^ 4)]
  rfl

theorem wrnTxTstampSkb_run {valid : ℕ} (h : valid ≠ 0) (cycles : ℕ) :
    ((wrnTxTstampSkb clock t valid cycles).run 0).1 =
      if valid &&& tsInvalid = 0 then
        some ⟨((stampUtc ((wrnPpsgReadTime clock t).run 0).1.1 ((wrnPpsgReadTime clock t).run 0).1.2
          cycles &&& 0x7fffffff : ℕ) : ℤ), ((cycles * nsecPerTick : ℕ) : ℤ)⟩
      else none := by
  rw [wrnTxTstampSkb, if_neg h]
  rfl

theorem recordTstamp_run (tsIncorrect : Bool) (tsval : ℕ) : ((recordTstamp clock t tsIncorrect tsval).run 0).1 =
    if tsIncorrect then none
    else some ⟨((stampUtc ((wrnPpsgReadTime clock t).run 0).1.1 ((wrnPpsgReadTime clock t).run 0).1.2
      (tsval &&& 0xfffffff) &&& 0x7fffffff : ℕ) : ℤ), (((tsval &&& 0xfffffff) * nsecPerTick : ℕ) : ℤ)⟩ := by
  rfl

end

/-- The pair read is the time at some instant of the reads, and it gives every frame that was stamped
less than a second before the last of them its second and its nanosecond. -/
theorem stamps_exact (gen : PpsGenerator T) {t : ℕ → T} (ht : Monotone t)
    (hspan : gen.elapsed (t (((wrnPpsgReadTime gen.toPpsClock t).run 0).2 - 1)) <
      gen.elapsed (t 0) + gen.ticksPerSecond) :
    (∃ u, t 0 ≤ u ∧ u ≤ t (((wrnPpsgReadTime gen.toPpsClock t).run 0).2 - 1) ∧
      ((wrnPpsgReadTime gen.toPpsClock t).run 0).1 = (gen.ticks u, gen.seconds u % 2 ^ 32)) ∧
    ∀ s k, k < gen.ticksPerSecond → s * gen.ticksPerSecond + k ≤ gen.elapsed (t 0) →
      gen.elapsed (t (((wrnPpsgReadTime gen.toPpsClock t).run 0).2 - 1)) <
        s * gen.ticksPerSecond + k + gen.ticksPerSecond →
      (∀ incorrect r2, r2 % 2 ^ 28 = k → ((wrnRxDescriptor gen.toPpsClock t incorrect r2).run 0).1 =
        if incorrect then none else some ⟨(s % 2 ^ 31 : ℕ), (k * nsecPerTick : ℕ)⟩) ∧
      (∀ valid, valid ≠ 0 → ((wrnTxTstampSkb gen.toPpsClock t valid k).run 0).1 =
        if valid &&& tsInvalid = 0 then some ⟨(s % 2 ^ 31 : ℕ), (k * nsecPerTick : ℕ)⟩ else none) ∧
      ∀ incorrect tsval, tsval % 2 ^ 28 = k → ((recordTstamp gen.toPpsClock t incorrect tsval).run 0).1 =
        if incorrect then none else some ⟨(s % 2 ^ 31 : ℕ), (k * nsecPerTick : ℕ)⟩ := by
  obtain ⟨u, hfirst, hlast, hpair⟩ := readTime_instant ht hspan
  refine ⟨⟨u, hfirst, hlast, hpair⟩, fun s k hk hafter hbefore => ?_⟩
  have hu := gen.elapsed_mono hfirst
  have hu' := gen.elapsed_mono hlast
  have hsecond := second_of_event hk (hafter.trans hu) (hu'.trans_lt hbefore)
  have hutc : stampUtc ((wrnPpsgReadTime gen.toPpsClock t).run 0).1.1
      ((wrnPpsgReadTime gen.toPpsClock t).run 0).1.2 k &&& 0x7fffffff = s % 2 ^ 31 := by
    rw [hpair]
    exact stampUtc_eq (by rw [hsecond])
  have hnsec : k * nsecPerTick &&& 0x7fffffff = k * nsecPerTick := by
    have hwidth := gen.width
    have htick : nsecPerTick = 8 := rfl
    rw [show (0x7fffffff : ℕ) = 2 ^ 31 - 1 from rfl, Nat.and_two_pow_sub_one_eq_mod, htick, Nat.mod_eq_of_lt]
    omega
  refine ⟨fun incorrect r2 hr2 => ?_, fun valid hvalid => ?_, fun incorrect tsval htsval => ?_⟩
  · rw [wrnRxDescriptor_run, hr2, hutc, hnsec]
  · rw [wrnTxTstampSkb_run _ _ hvalid, hutc]
  · rw [recordTstamp_run, show (0xfffffff : ℕ) = 2 ^ 28 - 1 from rfl, Nat.and_two_pow_sub_one_eq_mod, htsval, hutc]

/-- Ten ticks make a second; each instant is one tick. -/
def tenTicks : PpsGenerator ℕ where
  seconds := fun u => u / 10
  ticks := fun u => u % 10
  seconds_mono := fun _ _ huv => Nat.div_le_div_right huv
  ticksPerSecond := 10
  width := by decide
  ticks_lt := fun u => Nat.mod_lt u (by decide)
  elapsed_mono := by
    intro u v huv
    dsimp only
    omega

/-- A frame is stamped at 3 s and 7 ticks, and the clock is read between 3 s 9 and 4 s 2. -/
theorem stamps_exact_tenTicks :
    ((wrnPpsgReadTime tenTicks.toPpsClock fun i => 39 + i).run 0).1 = (2, 4) ∧
    ((wrnRxDescriptor tenTicks.toPpsClock (fun i => 39 + i) false 7).run 0).1 = some ⟨3, 56⟩ := by
  have ht : Monotone fun i : ℕ => 39 + i := fun i j h => Nat.add_le_add_left h 39
  obtain ⟨-, hstamps⟩ := stamps_exact tenTicks ht (by decide)
  obtain ⟨hrx, -⟩ := hstamps 3 7 (by decide) (by decide) (by decide)
  exact ⟨rfl, hrx false 7 rfl⟩

end WhiteRabbit.Nic
