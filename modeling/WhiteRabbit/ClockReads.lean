import Mathlib.Order.Lattice
import WhiteRabbit.DioTimestamps

/-!
# Reading a clock that runs

The PPS generator shows the time in three registers: the seconds in a low and a high word,
and the ticks of the second. Each register is read by itself while the clock runs on, so the
code reads again what may have changed, until what it has is the time at one instant.
-/

namespace WhiteRabbit.ClockReads
open Dio (Timespec)

/-- The counters of the PPS generator, over the instants. -/
structure PpsClock (T : Type*) [LinearOrder T] where
  seconds : T → ℕ
  ticks : T → ℕ
  seconds_mono : Monotone seconds

variable {T : Type*} [LinearOrder T]

namespace PpsClock

variable (clock : PpsClock T)

def cntrUtchi (u : T) : ℕ := clock.seconds u / 2 ^ 32 % 2 ^ 8
def cntrUtclo (u : T) : ℕ := clock.seconds u % 2 ^ 32
def cntrNsec (u : T) : ℕ := clock.ticks u

end PpsClock

/-- Code that reads registers, with the number of reads so far. The read number `i` is made at the
instant `t i`. -/
abbrev Reader := StateM ℕ

def readl (t : ℕ → T) (register : T → ℕ) : Reader ℕ := do
  let i ← get
  set (i + 1)
  return register (t i)

def setHi32 (var value : ℕ) : ℕ := var ||| value <<< 32

variable (clock : PpsClock T) (t : ℕ → T)

/-- The current second of 40 bits, as `wrn_dio_cmd_pulse` reads it. -/
def readSecond : Reader ℕ := do
  let h1 ← readl t clock.cntrUtchi
  let mut l ← readl t clock.cntrUtclo
  let h2 ← readl t clock.cntrUtchi
  if h2 ≠ h1 then
    l ← readl t clock.cntrUtclo
  return setHi32 l h2

/-- The current second and tick, as `__wrn_new_pulse` reads them. -/
def readNow : Reader (ℕ × ℕ) := do
  let h1 ← readl t clock.cntrUtchi
  let mut low ← readl t clock.cntrUtclo
  let mut h2 ← readl t clock.cntrUtchi
  if h2 ≠ h1 then
    low ← readl t clock.cntrUtclo
  let mut nowTicks ← readl t clock.cntrNsec
  let low2 ← readl t clock.cntrUtclo
  if low2 ≠ low then
    low := low2
    h2 ← readl t clock.cntrUtchi
    nowTicks ← readl t clock.cntrNsec
  return (setHi32 low h2, nowTicks)

theorem readSecond_run : (readSecond clock t).run 0 =
    if clock.cntrUtchi (t 2) = clock.cntrUtchi (t 0) then
      (setHi32 (clock.cntrUtclo (t 1)) (clock.cntrUtchi (t 2)), 3)
    else (setHi32 (clock.cntrUtclo (t 3)) (clock.cntrUtchi (t 2)), 4) := by
  by_cases h : clock.cntrUtchi (t 2) = clock.cntrUtchi (t 0)
  · simp [readSecond, readl, h]
    rfl
  · simp [readSecond, readl, h]
    rfl

/-- The second part of `readNow`, which looks whether the second has changed. -/
theorem readNow_run : (readNow clock t).run 0 =
    if clock.cntrUtchi (t 2) = clock.cntrUtchi (t 0) then
      if clock.cntrUtclo (t 4) = clock.cntrUtclo (t 1) then
        ((setHi32 (clock.cntrUtclo (t 1)) (clock.cntrUtchi (t 2)), clock.cntrNsec (t 3)), 5)
      else ((setHi32 (clock.cntrUtclo (t 4)) (clock.cntrUtchi (t 5)), clock.cntrNsec (t 6)), 7)
    else
      if clock.cntrUtclo (t 5) = clock.cntrUtclo (t 3) then
        ((setHi32 (clock.cntrUtclo (t 3)) (clock.cntrUtchi (t 2)), clock.cntrNsec (t 4)), 6)
      else ((setHi32 (clock.cntrUtclo (t 5)) (clock.cntrUtchi (t 6)), clock.cntrNsec (t 7)), 8) := by
  by_cases h : clock.cntrUtchi (t 2) = clock.cntrUtchi (t 0)
  · by_cases hlow : clock.cntrUtclo (t 4) = clock.cntrUtclo (t 1)
    · simp [readNow, readl, h, hlow]
      rfl
    · simp [readNow, readl, h, hlow]
      rfl
  · by_cases hlow : clock.cntrUtclo (t 5) = clock.cntrUtclo (t 3)
    · simp [readNow, readl, h, hlow]
      rfl
    · simp [readNow, readl, h, hlow]
      rfl

theorem setHi32_eq {low : ℕ} (hlow : low < 2 ^ 32) (high : ℕ) : setHi32 low high = high * 2 ^ 32 + low := by
  rw [setHi32, Nat.or_comm, ← Nat.shiftLeft_add_eq_or_of_lt hlow, Nat.shiftLeft_eq]

section

variable {clock} (hlt : ∀ u, clock.seconds u < 2 ^ 40)
include hlt

/-- The words of one second make the second. -/
theorem setHi32_words {u v : T} (h : clock.cntrUtchi v = clock.cntrUtchi u) :
    setHi32 (clock.cntrUtclo u) (clock.cntrUtchi v) = clock.seconds u := by
  have hu := hlt u
  have hlow : clock.cntrUtclo u < 2 ^ 32 := Nat.mod_lt _ (by decide)
  rw [setHi32_eq hlow, h, PpsClock.cntrUtchi, PpsClock.cntrUtclo]
  omega

theorem cntrUtchi_mono {u v : T} (h : u ≤ v) : clock.cntrUtchi u ≤ clock.cntrUtchi v := by
  have hu := hlt u
  have hv := hlt v
  have hle := clock.seconds_mono h
  rw [PpsClock.cntrUtchi, PpsClock.cntrUtchi]
  omega

end

/-- The upper word changes at most once between two instants. -/
def UpperOnce (clock : PpsClock T) (first last : T) : Prop :=
  ∀ u v w, first ≤ u → u ≤ v → v ≤ w → w ≤ last →
    clock.cntrUtchi u = clock.cntrUtchi v ∨ clock.cntrUtchi v = clock.cntrUtchi w

/-- The seconds advance at most once between two instants. -/
def SecondsOnce (clock : PpsClock T) (first last : T) : Prop :=
  clock.seconds last ≤ clock.seconds first + 1

variable {clock t}

/-- The second read is the one at an instant between the first read and the last. -/
theorem readSecond_instant (hlt : ∀ u, clock.seconds u < 2 ^ 40) (ht : Monotone t)
    (honce : UpperOnce clock (t 0) (t (((readSecond clock t).run 0).2 - 1))) :
    ∃ u, t 0 ≤ u ∧ u ≤ t (((readSecond clock t).run 0).2 - 1) ∧
      ((readSecond clock t).run 0).1 = clock.seconds u := by
  have hle : ∀ {i j : ℕ}, i ≤ j → t i ≤ t j := fun h => ht h
  by_cases h : clock.cntrUtchi (t 2) = clock.cntrUtchi (t 0)
  · have hup : clock.cntrUtchi (t 2) = clock.cntrUtchi (t 1) := by
      have h01 := cntrUtchi_mono hlt (hle (show 0 ≤ 1 by decide))
      have h12 := cntrUtchi_mono hlt (hle (show 1 ≤ 2 by decide))
      omega
    rw [readSecond_run, if_pos h]
    exact ⟨t 1, hle (show 0 ≤ 1 by decide), hle (show 1 ≤ 2 by decide), setHi32_words hlt hup⟩
  · rw [readSecond_run, if_neg h] at honce ⊢
    have hup : clock.cntrUtchi (t 2) = clock.cntrUtchi (t 3) := by
      rcases honce (t 0) (t 2) (t 3) le_rfl (hle (show 0 ≤ 2 by decide)) (hle (show 2 ≤ 3 by decide)) le_rfl with
        h' | h'
      · exact absurd h'.symm h
      · exact h'
    exact ⟨t 3, hle (show 0 ≤ 3 by decide), le_rfl, setHi32_words hlt hup⟩

/-- Where the seconds advance at most once, the low words of two instants tell whether they lie in
the same second. -/
theorem seconds_eq_of_low {u v : T} (huv : u ≤ v) (honce : SecondsOnce clock u v)
    (h : clock.cntrUtclo v = clock.cntrUtclo u) : clock.seconds v = clock.seconds u := by
  have hle := clock.seconds_mono huv
  rw [SecondsOnce] at honce
  rw [PpsClock.cntrUtclo, PpsClock.cntrUtclo] at h
  omega

theorem SecondsOnce.within {a b u v : T} (h : SecondsOnce clock a b) (ha : a ≤ u) (hb : v ≤ b) :
    SecondsOnce clock u v := by
  have hu := clock.seconds_mono ha
  have hv := clock.seconds_mono hb
  rw [SecondsOnce] at h ⊢
  omega

/-- The low word is the same before and after the ticks are read. -/
theorem now_same (hlt : ∀ u, clock.seconds u < 2 ^ 40) {p q c r : T} (hup : clock.cntrUtchi q = clock.cntrUtchi p)
    (hpc : p ≤ c) (hcr : c ≤ r) (honce : SecondsOnce clock p r) (hlow : clock.cntrUtclo r = clock.cntrUtclo p) :
    (setHi32 (clock.cntrUtclo p) (clock.cntrUtchi q), clock.cntrNsec c) = (clock.seconds c, clock.ticks c) := by
  have hpr := seconds_eq_of_low (hpc.trans hcr) honce hlow
  have hle := clock.seconds_mono hpc
  have hle' := clock.seconds_mono hcr
  have hc : clock.seconds p = clock.seconds c := by omega
  rw [setHi32_words hlt hup, hc]
  rfl

/-- The low word has changed, so the second changes no more. -/
theorem now_changed (hlt : ∀ u, clock.seconds u < 2 ^ 40) {p r x y : T} (hpr : p ≤ r) (hrx : r ≤ x) (hxy : x ≤ y)
    (honce : SecondsOnce clock p y) (hlow : clock.cntrUtclo r ≠ clock.cntrUtclo p) :
    (setHi32 (clock.cntrUtclo r) (clock.cntrUtchi x), clock.cntrNsec y) = (clock.seconds y, clock.ticks y) := by
  have hne : clock.seconds r ≠ clock.seconds p := fun h => hlow (by rw [PpsClock.cntrUtclo, PpsClock.cntrUtclo, h])
  have hle := clock.seconds_mono hpr
  have hle' := clock.seconds_mono hrx
  have hle'' := clock.seconds_mono hxy
  rw [SecondsOnce] at honce
  have hx : clock.seconds x = clock.seconds r := by omega
  have hy : clock.seconds r = clock.seconds y := by omega
  have hup : clock.cntrUtchi x = clock.cntrUtchi r := by rw [PpsClock.cntrUtchi, PpsClock.cntrUtchi, hx]
  rw [setHi32_words hlt hup, hy]
  rfl

/-- The pair read is the time at an instant between the first read and the last. -/
theorem readNow_instant (hlt : ∀ u, clock.seconds u < 2 ^ 40) (ht : Monotone t)
    (honce : SecondsOnce clock (t 0) (t (((readNow clock t).run 0).2 - 1))) :
    ∃ u, t 0 ≤ u ∧ u ≤ t (((readNow clock t).run 0).2 - 1) ∧
      ((readNow clock t).run 0).1 = (clock.seconds u, clock.ticks u) := by
  have hle : ∀ {i j : ℕ}, i ≤ j → t i ≤ t j := fun h => ht h
  by_cases h : clock.cntrUtchi (t 2) = clock.cntrUtchi (t 0)
  · have hup : clock.cntrUtchi (t 2) = clock.cntrUtchi (t 1) := by
      have h01 := cntrUtchi_mono hlt (hle (show 0 ≤ 1 by decide))
      have h12 := cntrUtchi_mono hlt (hle (show 1 ≤ 2 by decide))
      omega
    by_cases hlow : clock.cntrUtclo (t 4) = clock.cntrUtclo (t 1)
    · rw [readNow_run, if_pos h, if_pos hlow] at honce ⊢
      exact ⟨t 3, hle (show 0 ≤ 3 by decide), hle (show 3 ≤ 4 by decide),
        now_same hlt hup (hle (show 1 ≤ 3 by decide)) (hle (show 3 ≤ 4 by decide))
          (honce.within (hle (show 0 ≤ 1 by decide)) le_rfl) hlow⟩
    · rw [readNow_run, if_pos h, if_neg hlow] at honce ⊢
      exact ⟨t 6, hle (show 0 ≤ 6 by decide), le_rfl,
        now_changed hlt (hle (show 1 ≤ 4 by decide)) (hle (show 4 ≤ 5 by decide)) (hle (show 5 ≤ 6 by decide))
          (honce.within (hle (show 0 ≤ 1 by decide)) le_rfl) hlow⟩
  · -- the upper word has changed with the second, which changes no more
    have hthree : ∀ {i : ℕ}, 3 ≤ i → SecondsOnce clock (t 0) (t i) →
      clock.cntrUtchi (t 2) = clock.cntrUtchi (t 3) := by
      intro i hi hi'
      have h02 := clock.seconds_mono (hle (show 0 ≤ 2 by decide))
      have h23 := clock.seconds_mono (hle (show 2 ≤ 3 by decide))
      have h3i := clock.seconds_mono (hle hi)
      have hne : clock.seconds (t 2) ≠ clock.seconds (t 0) := fun he =>
        h (by rw [PpsClock.cntrUtchi, PpsClock.cntrUtchi, he])
      rw [SecondsOnce] at hi'
      have h32 : clock.seconds (t 2) = clock.seconds (t 3) := by omega
      rw [PpsClock.cntrUtchi, PpsClock.cntrUtchi, h32]
    by_cases hlow : clock.cntrUtclo (t 5) = clock.cntrUtclo (t 3)
    · rw [readNow_run, if_neg h, if_pos hlow] at honce ⊢
      exact ⟨t 4, hle (show 0 ≤ 4 by decide), hle (show 4 ≤ 5 by decide),
        now_same hlt (hthree (show 3 ≤ 5 by decide) honce) (hle (show 3 ≤ 4 by decide)) (hle (show 4 ≤ 5 by decide))
          (honce.within (hle (show 0 ≤ 3 by decide)) le_rfl) hlow⟩
    · rw [readNow_run, if_neg h, if_neg hlow] at honce ⊢
      exact ⟨t 7, hle (show 0 ≤ 7 by decide), le_rfl,
        now_changed hlt (hle (show 3 ≤ 5 by decide)) (hle (show 5 ≤ 6 by decide)) (hle (show 6 ≤ 7 by decide))
          (honce.within (hle (show 0 ≤ 3 by decide)) le_rfl) hlow⟩

/-- No second read of the 40 bits is torn: it lies between the first read and the last, and a second
read with its tick is the time at an instant. -/
theorem reads_untorn (clock : PpsClock T) (hlt : ∀ u, clock.seconds u < 2 ^ 40) {t : ℕ → T} (ht : Monotone t) :
    (UpperOnce clock (t 0) (t (((readSecond clock t).run 0).2 - 1)) →
      clock.seconds (t 0) ≤ ((readSecond clock t).run 0).1 ∧
        ((readSecond clock t).run 0).1 ≤ clock.seconds (t (((readSecond clock t).run 0).2 - 1))) ∧
    (SecondsOnce clock (t 0) (t (((readNow clock t).run 0).2 - 1)) →
      ∃ u, t 0 ≤ u ∧ u ≤ t (((readNow clock t).run 0).2 - 1) ∧
        ((readNow clock t).run 0).1 = (clock.seconds u, clock.ticks u)) := by
  refine ⟨fun honce => ?_, readNow_instant hlt ht⟩
  obtain ⟨u, hfirst, hlast, hu⟩ := readSecond_instant hlt ht honce
  rw [hu]
  exact ⟨clock.seconds_mono hfirst, clock.seconds_mono hlast⟩

/-- A clock whose upper word changes between two reads. -/
def rollingClock : PpsClock ℕ where
  seconds := fun u => if u < 2 then 2 ^ 32 - 1 else 2 ^ 32
  ticks := fun u => if u < 2 then 98 + u else u - 2
  seconds_mono := by
    intro u v huv
    dsimp only
    split <;> split <;> omega

theorem reads_untorn_rolling : ((readSecond rollingClock id).run 0).1 = 2 ^ 32 ∧
    ((readNow rollingClock id).run 0).1 = (2 ^ 32, 2) ∧
    (rollingClock.seconds 0 ≤ 2 ^ 32 ∧ 2 ^ 32 ≤ rollingClock.seconds 3) ∧
    ∃ u, 0 ≤ u ∧ u ≤ 5 ∧ (2 ^ 32, 2) = (rollingClock.seconds u, rollingClock.ticks u) := by
  have hlt : ∀ u, rollingClock.seconds u < 2 ^ 40 := by
    intro u
    rw [rollingClock]
    dsimp only
    split <;> omega
  have honce : UpperOnce rollingClock 0 3 := by
    intro u v w _ huv hvw _
    simp only [PpsClock.cntrUtchi, rollingClock]
    by_cases hv : v < 2
    · have hu : u < 2 := by omega
      simp [hu, hv]
    · have hw : ¬ w < 2 := by omega
      simp [hv, hw]
  have hsecond : SecondsOnce rollingClock 0 5 := Nat.le_refl (2 ^ 32)
  obtain ⟨hread, hnow⟩ := reads_untorn rollingClock hlt (monotone_id (α := ℕ))
  exact ⟨rfl, rfl, hread honce, hnow hsecond⟩

end WhiteRabbit.ClockReads
