import WhiteRabbit.LoopedPulses

/-!
# The load of the interrupt handler

Each run of the interrupt handler compares the time the run before it took with the time since then,
and averages the ratio over the runs. When the average gets too high the interrupt is disabled. The
times are 64-bit nanoseconds; the ratio and its average are 32-bit integers.
-/

namespace WhiteRabbit.Dio

open StepRuns

/-- A value of type `int`. -/
def int32 (x : ℤ) : ℤ := toInt32 (u32 x)

def u64 (x : ℤ) : ℕ := (x % 2 ^ 64).toNat

/-- The static variables of `wrn_dio_interrupt`, and whether the interrupt was disabled in the controller. -/
structure LoadState where
  tIni : ℤ
  tEnd : ℤ
  rateAvg : ℤ
  disabled : Bool
  deriving DecidableEq

/-- The readings of the clock in one run: at its beginning and at its end. -/
structure LoadRun where
  ini : ℤ
  fin : ℤ

/-- The load in percent; nothing stands for a divide error. -/
def loadRate (ontime offtime : ℕ) : Option ℤ :=
  if u64 (100 * ontime) < offtime then some 0
  else
    let num := int32 (int32 ontime * 100)
    let den := int32 offtime
    if den = 0 ∨ num = -2 ^ 31 ∧ den = -1 then none else some (num.tdiv den)

/-- The results of the operations above, each with what it is in its type. -/
def loadConversions (ontime offtime : ℕ) : List (ℤ × ℤ) :=
  (100 * ontime, u64 (100 * ontime)) ::
    if u64 (100 * ontime) < offtime then []
    else [(ontime, int32 ontime), (offtime, int32 offtime), (int32 ontime * 100, int32 (int32 ontime * 100))]

namespace LoadState

/-- The average of the load, and the guard. -/
def average (s : LoadState) (rate : ℤ) : LoadState :=
  let rateAvg := (int32 (int32 (s.rateAvg * 1023) + rate)).tdiv 1024
  { s with rateAvg := rateAvg, disabled := s.disabled || 80 < rateAvg }

/-- One run of `wrn_dio_interrupt`, as far as the load is concerned. -/
def step (s : LoadState) (r : LoadRun) : Option LoadState :=
  if s.tEnd ≠ 0 then
    let ontime := u64 (s.tEnd - s.tIni)
    let offtime := u64 (r.ini - s.tEnd)
    (loadRate ontime offtime).map fun rate => { s.average rate with tIni := r.ini, tEnd := r.fin }
  else some { s with tEnd := r.fin }

def start : LoadState := ⟨0, 0, 0, false⟩

end LoadState

theorem int32_eq {x : ℤ} (hlo : -2 ^ 31 ≤ x) (hhi : x < 2 ^ 31) : int32 x = x := by
  rw [int32, u32, toInt32]
  split <;> omega

theorem int32_bounds (x : ℤ) : -2 ^ 31 ≤ int32 x ∧ int32 x < 2 ^ 31 := by
  rw [int32, u32, toInt32]
  split <;> omega

theorem u64_eq {x : ℤ} (hlo : 0 ≤ x) (hhi : x < 2 ^ 64) : u64 x = x.toNat := by
  rw [u64, Int.emod_eq_of_lt hlo hhi]

/-- The load as it should be. -/
def exactRate (ontime offtime : ℕ) : ℤ := if 100 * ontime < offtime then 0 else 100 * ontime / offtime

/-- A run is exact where it computes the load, and loses nothing on the way. -/
structure RateExact (ontime offtime : ℕ) : Prop where
  rate : loadRate ontime offtime = some (exactRate ontime offtime)
  lossless : ∀ p ∈ loadConversions ontime offtime, p.2 = p.1

/-- The product fits 64 bits, and where the guard lets the division happen it fits 31 and the divisor is not
zero. -/
def RateFits (ontime offtime : ℕ) : Prop :=
  100 * ontime < 2 ^ 64 ∧ (100 * ontime < offtime ∨ 0 < offtime ∧ 100 * ontime < 2 ^ 31)

instance (ontime offtime : ℕ) : Decidable (RateFits ontime offtime) := inferInstanceAs (Decidable (_ ∧ _))

theorem u64_product {ontime : ℕ} (h : 100 * ontime < 2 ^ 64) : u64 (100 * ontime) = 100 * ontime := by
  have hbound : (100 * ontime : ℤ) < 2 ^ 64 := by exact_mod_cast h
  rw [u64_eq (by omega) hbound]
  omega

/-- Where everything fits, the types do not matter. -/
theorem RateFits.exact {ontime offtime : ℕ} (h : RateFits ontime offtime) : RateExact ontime offtime := by
  have hproduct := u64_product h.1
  by_cases hguard : 100 * ontime < offtime
  · constructor
    · rw [loadRate, exactRate, hproduct, if_pos hguard, if_pos hguard]
    · intro p hp
      rw [loadConversions, hproduct, if_pos hguard, List.mem_singleton] at hp
      rw [hp]
      push_cast
      rfl
  · obtain ⟨hpos, hsmall⟩ := h.2.resolve_left hguard
    have hle : offtime ≤ 100 * ontime := Nat.not_lt.mp hguard
    have hon : int32 ontime = ontime := int32_eq (by omega) (by omega)
    have hoff : int32 offtime = offtime := int32_eq (by omega) (by omega)
    have hnum : int32 (ontime * 100) = ontime * 100 := int32_eq (by omega) (by omega)
    constructor
    · have hdefined : ¬((offtime : ℤ) = 0 ∨ (ontime : ℤ) * 100 = -2 ^ 31 ∧ (offtime : ℤ) = -1) := by omega
      rw [loadRate, exactRate, hproduct, if_neg hguard, if_neg hguard]
      dsimp only
      rw [hon, hoff, hnum, if_neg hdefined, Int.tdiv_eq_ediv_of_nonneg (by omega), mul_comm]
    · intro p hp
      rw [loadConversions, hproduct, if_neg hguard, hon, hoff, hnum] at hp
      simp only [List.mem_cons, List.not_mem_nil, or_false] at hp
      obtain rfl | rfl | rfl | rfl := hp <;> push_cast <;> rfl

/-- A value that is not changed by its conversion to `int` fits. -/
theorem lt_of_int32_eq {x : ℤ} (h : int32 x = x) : x < 2 ^ 31 := h ▸ (int32_bounds x).2

theorem RateExact.fits {ontime offtime : ℕ} (h : RateExact ontime offtime) : RateFits ontime offtime := by
  have hfits : 100 * ontime < 2 ^ 64 := by
    have hlossless : (u64 (100 * ontime) : ℤ) = 100 * ontime := h.lossless (_, _) List.mem_cons_self
    rw [u64] at hlossless
    omega
  refine ⟨hfits, ?_⟩
  have hproduct := u64_product hfits
  by_cases hguard : 100 * ontime < offtime
  · exact .inl hguard
  · have hlossless := h.lossless
    rw [loadConversions, hproduct, if_neg hguard] at hlossless
    have hon : int32 ontime = ontime := hlossless ((ontime : ℤ), int32 ontime) (by simp)
    have hnum : int32 (int32 ontime * 100) = int32 ontime * 100 :=
      hlossless (int32 ontime * 100, int32 (int32 ontime * 100)) (by simp)
    rw [hon] at hnum
    have hsmall := lt_of_int32_eq hnum
    refine .inr ⟨Nat.pos_of_ne_zero fun hzero => ?_, by omega⟩
    have hrate := h.rate
    have hden : int32 ((0 : ℕ) : ℤ) = 0 := int32_eq (by decide) (by decide)
    rw [loadRate, hproduct, if_neg hguard, hzero] at hrate
    dsimp only at hrate
    rw [if_pos (.inl hden)] at hrate
    cases hrate

theorem rateExact_iff (ontime offtime : ℕ) : RateExact ontime offtime ↔ RateFits ontime offtime :=
  ⟨RateExact.fits, RateFits.exact⟩

/-- The readings of a clock that does not go back, from a time on, in 64-bit nanoseconds. -/
def Clock (now : ℤ) : List LoadRun → Prop
  | [] => True
  | r :: rs => now ≤ r.ini ∧ r.ini ≤ r.fin ∧ r.fin < 2 ^ 63 ∧ Clock r.fin rs

theorem Clock.append {now : ℤ} {runs more : List LoadRun} (h : Clock now (runs ++ more)) : Clock now runs := by
  induction runs generalizing now with
  | nil => trivial
  | cons r runs ih => exact ⟨h.1, h.2.1, h.2.2.1, ih h.2.2.2⟩

namespace LoadState

variable {s t : LoadState} {r : LoadRun}

/-- A run that computes the load does it exactly. -/
structure RunExact (s : LoadState) (r : LoadRun) : Prop where
  ontime : (u64 (s.tEnd - s.tIni) : ℤ) = s.tEnd - s.tIni
  offtime : (u64 (r.ini - s.tEnd) : ℤ) = r.ini - s.tEnd
  rate : RateExact (s.tEnd - s.tIni).toNat (r.ini - s.tEnd).toNat
  average : s.step r = some { s.average (exactRate (s.tEnd - s.tIni).toNat (r.ini - s.tEnd).toNat) with
    tIni := r.ini, tEnd := r.fin }

/-- The times of a run that computes the load fit. -/
def RunFits (s : LoadState) (r : LoadRun) : Prop :=
  s.tEnd ≠ 0 → RateFits (s.tEnd - s.tIni).toNat (r.ini - s.tEnd).toNat

instance (s : LoadState) (r : LoadRun) : Decidable (s.RunFits r) := inferInstanceAs (Decidable (_ → _))

/-- The times of a run are in order. -/
structure Ordered (s : LoadState) (r : LoadRun) : Prop where
  nonneg : 0 ≤ s.tIni
  on : s.tIni ≤ s.tEnd
  off : s.tEnd ≤ r.ini
  lt : r.ini < 2 ^ 63

theorem step_times (hs : s.step r = some t) : (t.tIni = s.tIni ∨ t.tIni = r.ini) ∧ t.tEnd = r.fin := by
  rw [step] at hs
  split at hs
  · obtain ⟨rate, -, rfl⟩ := Option.map_eq_some_iff.mp hs
    exact ⟨.inr rfl, rfl⟩
  · cases hs
    exact ⟨.inl rfl, rfl⟩

theorem ordered_run {pre : List LoadRun} (hnonneg : 0 ≤ s.tIni) (hon : s.tIni ≤ s.tEnd)
    (hclock : Clock s.tEnd (pre ++ [r])) (hrun : run step s pre = some t) : t.Ordered r := by
  induction pre generalizing s with
  | nil =>
    cases hrun
    exact ⟨hnonneg, hon, hclock.1, hclock.2.1.trans_lt hclock.2.2.1⟩
  | cons first pre ih =>
    rw [run_cons] at hrun
    obtain ⟨u, hu, hrun⟩ := Option.bind_eq_some_iff.mp hrun
    obtain ⟨hini, hfin⟩ := step_times hu
    obtain ⟨hoff, hle, -, hrest⟩ := hclock
    refine ih ?_ ?_ (hfin ▸ hrest) hrun
    · omega
    · omega

theorem runExact_iff (h : s.Ordered r) (hs : s.tEnd ≠ 0) :
    s.RunExact r ↔ RateFits (s.tEnd - s.tIni).toNat (r.ini - s.tEnd).toNat := by
  have hon : u64 (s.tEnd - s.tIni) = (s.tEnd - s.tIni).toNat := by
    obtain ⟨hnonneg, hon, hoff, hlt⟩ := h
    exact u64_eq (by omega) (by omega)
  have hoff : u64 (r.ini - s.tEnd) = (r.ini - s.tEnd).toNat := by
    obtain ⟨hnonneg, hon, hoff, hlt⟩ := h
    exact u64_eq (by omega) (by omega)
  refine ⟨fun h => (rateExact_iff _ _).mp h.rate, fun hfits => ?_⟩
  have hrate := (rateExact_iff _ _).mpr hfits
  refine ⟨?_, ?_, hrate, ?_⟩
  · rw [hon, Int.toNat_of_nonneg (Int.sub_nonneg_of_le h.on)]
  · rw [hoff, Int.toNat_of_nonneg (Int.sub_nonneg_of_le h.off)]
  · rw [step, if_pos hs]
    dsimp only
    rw [hon, hoff, hrate.rate, Option.map_some]

/-- Along any readings of the clock the load is computed exactly in every run exactly where the times fit in
every run. -/
theorem loads_exact_iff {runs : List LoadRun} (hclock : Clock 0 runs) :
    (∀ pre r s, pre ++ [r] <+: runs → run step start pre = some s → s.tEnd ≠ 0 → s.RunExact r) ↔
      Obeys step RunFits start runs := by
  rw [obeys_iff]
  have hordered : ∀ pre r s, pre ++ [r] <+: runs → run step start pre = some s → s.Ordered r := by
    rintro pre r s ⟨post, rfl⟩ hrun
    exact ordered_run le_rfl le_rfl (hclock.append) hrun
  constructor
  · intro h pre r s hpre hrun hs
    exact (runExact_iff (hordered pre r s hpre hrun) hs).mp (h pre r s hpre hrun hs)
  · intro h pre r s hpre hrun hs
    exact (runExact_iff (hordered pre r s hpre hrun) hs).mpr (h pre r s hpre hrun hs)

/-- The first run ends 100 us after the clock was zero; two more take 1 ms each, the last 50 ms after the one
before. -/
def threeRuns : List LoadRun :=
  [⟨0, 100000⟩, ⟨400000000, 401000000⟩, ⟨451000000, 452000000⟩]

theorem loads_exact_three : Clock 0 threeRuns ∧ ∀ pre r s,
    pre ++ [r] <+: threeRuns → run step start pre = some s → s.tEnd ≠ 0 → s.RunExact r := by
  have hclock : Clock 0 threeRuns := by simp [threeRuns, Clock]
  exact ⟨hclock, (loads_exact_iff hclock).mpr (by decide)⟩

/-- The second run begins at the reading at which the first one ended. -/
theorem equal_readings_fault :
    (¬ ∀ pre r s, pre ++ [r] <+: [⟨10, 10⟩, ⟨10, 10⟩] → run step start pre = some s → s.tEnd ≠ 0 →
      s.RunExact r) ∧
      Clock 0 [⟨10, 10⟩, ⟨10, 10⟩] ∧ run step start [⟨10, 10⟩, ⟨10, 10⟩] = none := by
  refine ⟨fun h => ?_, by simp [Clock], by decide⟩
  have hexact := h [⟨10, 10⟩] ⟨10, 10⟩ ⟨0, 10, 0, false⟩ (List.prefix_refl _) (by decide) (by decide)
  exact absurd hexact.average (by decide)

/-- The guard has tripped. -/
def Tripped (s : LoadState) : Prop := 80 < s.rateAvg ∧ s.disabled = true

instance (s : LoadState) : Decidable s.Tripped := inferInstanceAs (Decidable (_ ∧ _))

theorem average_eq (hlo : 0 ≤ s.rateAvg) (hhi : s.rateAvg ≤ 80) {rate : ℤ} (hrate : 0 ≤ rate)
    (hsum : s.rateAvg * 1023 + rate < 2 ^ 31) : (s.average rate).rateAvg = (s.rateAvg * 1023 + rate) / 1024 := by
  have hproduct : int32 (s.rateAvg * 1023) = s.rateAvg * 1023 := int32_eq (by omega) (by omega)
  rw [average]
  dsimp only
  rw [hproduct, int32_eq (by omega) hsum, Int.tdiv_eq_ediv_of_nonneg (by omega)]

theorem average_disabled (s : LoadState) (rate : ℤ) (h : 80 < (s.average rate).rateAvg) : (s.average rate).Tripped := by
  refine ⟨h, ?_⟩
  rw [average] at h ⊢
  simp only [decide_eq_true h, Bool.or_true]

/-- Up to a rate of 1103 the average stays where it may be. -/
theorem average_le (hlo : 0 ≤ s.rateAvg) (hhi : s.rateAvg ≤ 80) {rate : ℤ} (hrate : 0 ≤ rate) (hle : rate < 1104) :
    0 ≤ (s.average rate).rateAvg ∧ (s.average rate).rateAvg ≤ 80 := by
  rw [average_eq hlo hhi hrate (by omega)]
  omega

theorem averages_le {rates : List ℤ} (hlo : 0 ≤ s.rateAvg) (hhi : s.rateAvg ≤ 80)
    (hrates : ∀ rate ∈ rates, 0 ≤ rate ∧ rate < 1104) : (rates.foldl average s).rateAvg ≤ 80 := by
  induction rates generalizing s with
  | nil => exact hhi
  | cons rate rates ih =>
    obtain ⟨hrate, hle⟩ := hrates rate List.mem_cons_self
    obtain ⟨hlo', hhi'⟩ := average_le hlo hhi hrate hle
    exact ih hlo' hhi' fun other hother => hrates other (List.mem_cons_of_mem rate hother)

/-- A sum that overflows makes the average negative, and the next one large. -/
theorem overflow_trips {rate : ℤ} (hlo : 0 ≤ s.rateAvg) (hhi : s.rateAvg ≤ 80) (hlt : rate < 2 ^ 31)
    (hsum : 2 ^ 31 ≤ s.rateAvg * 1023 + rate) : 80 < ((s.average rate).average rate).rateAvg := by
  have hwrap : int32 (s.rateAvg * 1023 + rate) = s.rateAvg * 1023 + rate - 2 ^ 32 := by
    rw [int32, u32, toInt32]
    split <;> omega
  have hfirst : (s.average rate).rateAvg = -((2 ^ 32 - (s.rateAvg * 1023 + rate)) / 1024) := by
    rw [average]
    dsimp only
    rw [int32_eq (x := s.rateAvg * 1023) (by omega) (by omega), hwrap, ← Int.neg_sub, Int.neg_tdiv,
      Int.tdiv_eq_ediv_of_nonneg (by omega)]
  have hsecond : ((s.average rate).average rate).rateAvg = ((s.average rate).rateAvg * 1023 + rate) / 1024 := by
    rw [average]
    dsimp only
    rw [int32_eq (x := (s.average rate).rateAvg * 1023) (by omega) (by omega), int32_eq (by omega) (by omega),
      Int.tdiv_eq_ediv_of_nonneg (by omega)]
  rw [hsecond, hfirst]
  omega

/-- From a rate of 1104 on each run adds at least one, and a sum that overflows makes up for it in the next
run. -/
theorem average_trips {rate : ℤ} (hrate : 1104 ≤ rate) (hlt : rate < 2 ^ 31) {room : ℕ} (hlo : 0 ≤ s.rateAvg)
    (hhi : s.rateAvg ≤ 80) (hroom : 80 < s.rateAvg + room) :
    ∃ n, ((List.replicate n rate).foldl average s).Tripped := by
  induction room generalizing s with
  | zero => omega
  | succ room ih =>
    by_cases hsum : s.rateAvg * 1023 + rate < 2 ^ 31
    · have hnext := average_eq hlo hhi (by omega) hsum
      by_cases hover : 80 < (s.average rate).rateAvg
      · exact ⟨1, average_disabled s rate hover⟩
      · obtain ⟨n, hn⟩ := ih (s := s.average rate) (by omega) (by omega) (by omega)
        exact ⟨n + 1, hn⟩
    · exact ⟨2, average_disabled _ rate (overflow_trips hlo hhi hlt (Int.not_lt.mp hsum))⟩

/-- A constant rate above 80 trips the guard exactly from 1104 on; rates up to 80 never do. -/
theorem guard_trips_iff (hlo : 0 ≤ s.rateAvg) (hhi : s.rateAvg ≤ 80) :
    (∀ rate, 80 < rate → rate < 2 ^ 31 →
      ((∃ n, ((List.replicate n rate).foldl average s).Tripped) ↔ 1104 ≤ rate)) ∧
    ∀ rates : List ℤ, (∀ rate ∈ rates, 0 ≤ rate ∧ rate ≤ 80) → (rates.foldl average s).rateAvg ≤ 80 := by
  refine ⟨fun rate hrate hlt => ⟨fun htrips => ?_, fun hle => ?_⟩, fun rates hrates => ?_⟩
  · obtain ⟨n, hn⟩ := htrips
    by_contra hsmall
    refine absurd hn.1 (Int.not_lt.mpr (averages_le hlo hhi fun other hother => ?_))
    rw [List.eq_of_mem_replicate hother]
    omega
  · exact average_trips hle hlt hlo hhi (show 80 < s.rateAvg + (81 : ℕ) by omega)
  · exact averages_le hlo hhi fun rate hrate => ⟨(hrates rate hrate).1, by have := (hrates rate hrate).2; omega⟩

/-- Each run takes eleven times as long as the time before it. -/
theorem guard_trips_1104 : ∃ n, ((List.replicate n 1104).foldl average start).Tripped :=
  ((guard_trips_iff le_rfl (by decide)).1 1104 (by decide) (by decide)).mpr le_rfl

/-- At a load of 200 percent the average never leaves zero. -/
theorem overload_unnoticed : ¬ ∃ n, ((List.replicate n 200).foldl average start).Tripped := by
  have hstays : ∀ n, (List.replicate n 200).foldl average start = start := by
    intro n
    induction n with
    | zero => rfl
    | succ n ih =>
      rw [List.replicate_succ, List.foldl_cons]
      exact ih
  rintro ⟨n, hn⟩
  rw [hstays n] at hn
  exact absurd hn (by decide)

end LoadState

end WhiteRabbit.Dio
