import WhiteRabbit.LoopedPulses

/-!
# Sums of times in the tools

The tools add and subtract times of seconds and nanoseconds, carrying a second where the nanoseconds
leave their range. A sum of exactly one second of nanoseconds is not carried.
-/

namespace WhiteRabbit.Dio

/-- A value of type `long`. -/
def int64 (x : ℤ) : ℤ := (x + 2 ^ 63) % 2 ^ 64 - 2 ^ 63

/-- `ts_add`. -/
def tsAdd (t1 t2 : Timespec) : Timespec :=
  let t1 : Timespec := ⟨int64 (t1.tvSec + t2.tvSec), int64 (t1.tvNsec + t2.tvNsec)⟩
  if 1000 * 1000 * 1000 < t1.tvNsec then ⟨int64 (t1.tvSec + 1), int64 (t1.tvNsec - 1000 * 1000 * 1000)⟩
  else t1

/-- `ts_sub`. -/
def tsSub (t1 t2 : Timespec) : Timespec :=
  let t1 : Timespec := ⟨int64 (t1.tvSec - t2.tvSec), int64 (t1.tvNsec - t2.tvNsec)⟩
  if t1.tvNsec < 0 then ⟨int64 (t1.tvSec - 1), int64 (t1.tvNsec + 1000 * 1000 * 1000)⟩ else t1

/-- The time of an action in `ruler_run_actions`, the requested delay added with the same carry. -/
def actionTime (ts delay : Timespec) : Timespec := tsAdd ts delay

/-- What `report_times` prints after the stamps. -/
structure TimesReport where
  rtt : Timespec
  fw : Timespec
  bw : Timespec

/-- `report_times`. -/
def reportTimes (ts : Fin 4 → Timespec) : TimesReport where
  rtt := tsSub (tsSub (ts 3) (ts 0)) (tsSub (ts 2) (ts 1))
  fw := tsSub (ts 1) (ts 0)
  bw := tsSub (ts 3) (ts 2)

/-- The time stands for a number of nanoseconds, in normal form. -/
structure Timespec.Denotes (t : Timespec) (n : ℤ) : Prop where
  nanos : t.nanos = n
  nonneg : 0 ≤ t.tvNsec
  lt : t.tvNsec < 1000000000

/-- In normal form, with its seconds in some bounds. -/
structure Timespec.Within (bound : ℤ) (t : Timespec) : Prop where
  nonneg : 0 ≤ t.tvNsec
  lt : t.tvNsec < 1000000000
  lower : -bound ≤ t.tvSec
  upper : t.tvSec ≤ bound

/-- A time in normal form whose seconds are far from an overflow. -/
structure NormalTimespec extends Timespec where
  within : toTimespec.Within (2 ^ 60)

/-- The sums and the difference of two times are right. -/
structure SumsExact (s t : Timespec) : Prop where
  add : (tsAdd s t).Denotes (s.nanos + t.nanos)
  action : (actionTime s t).Denotes (s.nanos + t.nanos)
  sub : (tsSub s t).Denotes (s.nanos - t.nanos)

structure ReportExact (ts : Fin 4 → Timespec) : Prop where
  rtt : (reportTimes ts).rtt.Denotes (((ts 3).nanos - (ts 0).nanos) - ((ts 2).nanos - (ts 1).nanos))
  fw : (reportTimes ts).fw.Denotes ((ts 1).nanos - (ts 0).nanos)
  bw : (reportTimes ts).bw.Denotes ((ts 3).nanos - (ts 2).nanos)

theorem int64_eq {x : ℤ} (hlo : -2 ^ 63 ≤ x) (hhi : x < 2 ^ 63) : int64 x = x := by
  rw [int64, Int.emod_eq_of_lt (by omega) (by omega), Int.add_sub_cancel]

section Operations

variable {a b : ℤ} {s t : Timespec}

/-- A difference is exact, and its bound is the sum of the bounds and one for the borrow. -/
theorem tsSub_within (hs : s.Within a) (ht : t.Within b) (hfar : a + b + 1 < 2 ^ 63) :
    (tsSub s t).Within (a + b + 1) ∧ (tsSub s t).nanos = s.nanos - t.nanos := by
  obtain ⟨hs0, hs1, hslo, hshi⟩ := hs
  obtain ⟨ht0, ht1, htlo, hthi⟩ := ht
  have hsec : int64 (s.tvSec - t.tvSec) = s.tvSec - t.tvSec := int64_eq (by omega) (by omega)
  have hnsec : int64 (s.tvNsec - t.tvNsec) = s.tvNsec - t.tvNsec := int64_eq (by omega) (by omega)
  rw [tsSub, hsec, hnsec]
  dsimp only
  split_ifs with hborrow
  · have hless : int64 (s.tvSec - t.tvSec - 1) = s.tvSec - t.tvSec - 1 := int64_eq (by omega) (by omega)
    have hmore : int64 (s.tvNsec - t.tvNsec + 1000 * 1000 * 1000) = s.tvNsec - t.tvNsec + 1000 * 1000 * 1000 :=
      int64_eq (by omega) (by omega)
    rw [hless, hmore]
    refine ⟨⟨?_, ?_, ?_, ?_⟩, ?_⟩
    all_goals simp only [Timespec.nanos]; omega
  · refine ⟨⟨?_, ?_, ?_, ?_⟩, ?_⟩
    all_goals simp only [Timespec.nanos]; omega

theorem tsSub_denotes (hs : s.Within a) (ht : t.Within b) (hfar : a + b + 1 < 2 ^ 63) :
    (tsSub s t).Denotes (s.nanos - t.nanos) := by
  obtain ⟨hwithin, hnanos⟩ := tsSub_within hs ht hfar
  exact ⟨hnanos, hwithin.nonneg, hwithin.lt⟩

/-- A sum always stands for the right number; its nanoseconds are one second too many where they add up
to exactly that. -/
theorem tsAdd_eq (hs : s.Within a) (ht : t.Within b) (hfar : a + b + 1 < 2 ^ 63) :
    (tsAdd s t).nanos = s.nanos + t.nanos ∧ (tsAdd s t).tvNsec =
      if 1000000000 < s.tvNsec + t.tvNsec then s.tvNsec + t.tvNsec - 1000000000 else s.tvNsec + t.tvNsec := by
  obtain ⟨hs0, hs1, hslo, hshi⟩ := hs
  obtain ⟨ht0, ht1, htlo, hthi⟩ := ht
  have hsec : int64 (s.tvSec + t.tvSec) = s.tvSec + t.tvSec := int64_eq (by omega) (by omega)
  have hnsec : int64 (s.tvNsec + t.tvNsec) = s.tvNsec + t.tvNsec := int64_eq (by omega) (by omega)
  rw [tsAdd, hsec, hnsec]
  simp only [show (1000 * 1000 * 1000 : ℤ) = 1000000000 from rfl]
  split_ifs with hcarry
  · have hmore : int64 (s.tvSec + t.tvSec + 1) = s.tvSec + t.tvSec + 1 := int64_eq (by omega) (by omega)
    have hless : int64 (s.tvNsec + t.tvNsec - 1000000000) = s.tvNsec + t.tvNsec - 1000000000 :=
      int64_eq (by omega) (by omega)
    rw [hmore, hless]
    refine ⟨?_, rfl⟩
    simp only [Timespec.nanos]
    omega
  · refine ⟨?_, rfl⟩
    simp only [Timespec.nanos]
    omega

theorem tsAdd_denotes_iff (hs : s.Within a) (ht : t.Within b) (hfar : a + b + 1 < 2 ^ 63) :
    (tsAdd s t).Denotes (s.nanos + t.nanos) ↔ s.tvNsec + t.tvNsec ≠ 1000000000 := by
  obtain ⟨hnanos, hnsec⟩ := tsAdd_eq hs ht hfar
  have hs0 := hs.nonneg
  have hs1 := hs.lt
  have ht0 := ht.nonneg
  have ht1 := ht.lt
  constructor
  · intro h hsum
    have hlt := h.lt
    rw [hnsec, if_neg (by omega)] at hlt
    omega
  · intro hsum
    refine ⟨hnanos, ?_, ?_⟩
    all_goals rw [hnsec]; split_ifs <;> omega

end Operations

/-- All that is reported of four stamps is right. -/
theorem reportTimes_exact (ts : Fin 4 → NormalTimespec) : ReportExact fun i => (ts i).toTimespec := by
  obtain ⟨houter, houterNanos⟩ := tsSub_within (ts 3).within (ts 0).within (by decide)
  obtain ⟨hinner, hinnerNanos⟩ := tsSub_within (ts 2).within (ts 1).within (by decide)
  have hrtt := tsSub_denotes houter hinner (by decide)
  rw [houterNanos, hinnerNanos] at hrtt
  exact ⟨hrtt, tsSub_denotes (ts 1).within (ts 0).within (by decide),
    tsSub_denotes (ts 3).within (ts 2).within (by decide)⟩

/-- Sums are right exactly where the nanoseconds do not add up to one second; differences, and all that is
reported of four stamps, always are. -/
theorem timespecs_exact_iff (s t : NormalTimespec) (ts : Fin 4 → NormalTimespec) :
    SumsExact s.toTimespec t.toTimespec ∧ (ReportExact fun i => (ts i).toTimespec) ↔
      s.tvNsec + t.tvNsec ≠ 1000000000 := by
  have hadd := tsAdd_denotes_iff s.within t.within (by decide)
  constructor
  · rintro ⟨h, -⟩
    exact hadd.mp h.add
  · intro h
    exact ⟨⟨hadd.mpr h, hadd.mpr h, tsSub_denotes s.within t.within (by decide)⟩, reportTimes_exact ts⟩

/-- Two halves of a second. -/
theorem half_seconds : (tsAdd ⟨1, 500000000⟩ ⟨0, 500000000⟩) = ⟨1, 1000000000⟩ ∧
    ¬ SumsExact ⟨1, 500000000⟩ ⟨0, 500000000⟩ :=
  ⟨by decide, fun h => absurd h.add.lt (by decide)⟩

end WhiteRabbit.Dio
