import WhiteRabbit.CStrings
import WhiteRabbit.TimespecSums

/-!
# Times on the command line

The tools for the digital outputs take times as arguments: seconds, with a fraction or without one. The
fraction is scanned as a number, and its characters are counted for the leading zeros.
-/

namespace WhiteRabbit.Dio

open BigEndian CStrings

/-- What `parse_ts` does with an argument. Where it looks for a point that is not there, it goes on at an
invalid address. -/
inductive ParsedTime where
  | time (ts : Timespec)
  | refused
  | crash
  deriving DecidableEq

def padNano : ℕ → ℕ → ℕ
  | 0, nano => nano
  | n + 1, nano => padNano n (nano * 10 % 2 ^ 64)

/-- `parse_ts` from the point on; `nano` is of type `unsigned long`. -/
def decimals (s : Bytes) (sec nano : ℤ) : ParsedTime :=
  match strchr s 0x2e with
  | none => .crash
  | some s =>
    let n := s.tail.length
    -- too many decimals
    if 9 < n then .refused
    else .time ⟨sec, int64 (padNano (9 - n) (nano % 2 ^ 64).toNat)⟩

/-- `parse_ts` of `wr-dio-cmd` and of `wr-dio-ruler`, which have the same code. -/
def parseTs (s : CString) : ParsedTime :=
  let (i, items) := sscanf [] [.long, .lit 0x2e, .long, .char] s.chars
  -- seconds only
  if i = 1 then .time ⟨items.getD 0 0, 0⟩
  -- trailing crap
  else if i = 3 then .refused
  else if i = 0 then
    let (j, more) := sscanf [] [.lit 0x2e, .long, .char] s.chars
    -- leading or trailing crap
    if j ≠ 1 then .refused else decimals s.chars 0 (more.getD 0 0)
  else decimals s.chars (items.getD 0 0) (items.getD 1 0)

/-- The time that a string stands for: seconds, a point and one to nine digits, or only one of the two parts. -/
def timeOf (s : Bytes) : Option Timespec :=
  let whole := s.takeWhile isDigit
  match s.dropWhile isDigit with
  | [] => if whole = [] then none else some ⟨decimal whole, 0⟩
  | c :: frac =>
    if c = 0x2e ∧ 1 ≤ frac.length ∧ frac.length ≤ 9 ∧ frac.all isDigit then
      some ⟨decimal whole, decimal frac * 10 ^ (9 - frac.length)⟩
    else none

/-- The times are read as they are, in normal form, and every other string is refused. -/
structure TimeExact (s : CString) : Prop where
  result : parseTs s = (timeOf s.chars).elim .refused .time
  normal : ∀ ts, parseTs s = .time ts → 0 ≤ ts.tvNsec ∧ ts.tvNsec < 1000000000

/-- The strings that are no times and lead to a refusal: more text behind the second number, a fraction that is
too long, or no number where one has to be. -/
inductive RightlyRefused : Bytes → Prop where
  | trailing {w f rest : Bytes} {v u : ℤ} (hw : Numeral w v) (hf : Numeral f u) (hne : rest ≠ [])
      (hrest : EndsNumeral rest) : RightlyRefused (w ++ 0x2e :: (f ++ rest))
  | long {w f : Bytes} {v u : ℤ} (hw : Numeral w v) (hf : Numeral f u) (hlong : 9 < f.length) :
      RightlyRefused (w ++ 0x2e :: f)
  | longFraction {f : Bytes} {u : ℤ} (hf : Numeral f u) (hlong : 9 < f.length) : RightlyRefused (0x2e :: f)
  | noNumber {s : Bytes} (hblank : ∃ c ∈ s, isSpace c = false) (hnone : ∀ w v rest, Numeral w v → s ≠ w ++ rest)
      (hfrac : ∀ f u, Numeral f u → s ≠ 0x2e :: f) : RightlyRefused s

section Scans

variable {s : CString} {f rest : Bytes} {sec nano : ℤ}

/-- A blank string. -/
theorem parseTs_input (h : scanLong s.chars = .error .input) : parseTs s = .crash := by
  have hpoint : (0x2e : UInt8) ∉ s.chars := fun hc => absurd (scanLong_input_iff.mp h _ hc) (by decide)
  have hscan : sscanf [] [.long, .lit 0x2e, .long, .char] s.chars = (-1, []) :=
    sscanf_error (scan_long_error h) _ _
  simp [parseTs, hscan, decimals, strchr_eq_none hpoint]

/-- Seconds and a fraction. -/
theorem parseTs_both (h : scanLong s.chars = .ok (sec, 0x2e :: f)) (hf : scanLong f = .ok (nano, [])) :
    parseTs s = decimals s.chars sec nano := by
  have hscan : sscanf [] [.long, .lit 0x2e, .long, .char] s.chars = (2, [sec, nano]) := by
    rw [sscanf_ok (scan_long h), sscanf_ok (scan_lit _ _), sscanf_ok (scan_long hf)]
    rfl
  simp [parseTs, hscan]

/-- More text behind the fraction. -/
theorem parseTs_trailing (h : scanLong s.chars = .ok (sec, 0x2e :: f)) (hf : scanLong f = .ok (nano, rest))
    (hne : rest ≠ []) : parseTs s = .refused := by
  obtain ⟨c, more, rfl⟩ := List.exists_cons_of_ne_nil hne
  have hscan : sscanf [] [.long, .lit 0x2e, .long, .char] s.chars = (3, [sec, nano, c.toNat]) := by
    rw [sscanf_ok (scan_long h), sscanf_ok (scan_lit _ _), sscanf_ok (scan_long hf)]
    rfl
  simp [parseTs, hscan]

/-- Seconds that no point and number follow, whatever else does. -/
theorem parseTs_seconds (h : scanLong s.chars = .ok (sec, rest))
    (hrest : ∀ f, rest = 0x2e :: f → ∃ e, scanLong f = .error e) : parseTs s = .time ⟨sec, 0⟩ := by
  have hscan : sscanf [] [.long, .lit 0x2e, .long, .char] s.chars = (1, [sec]) := by
    rw [sscanf_ok (scan_long h)]
    by_cases hpoint : ∃ f, rest = 0x2e :: f
    · obtain ⟨f, rfl⟩ := hpoint
      obtain ⟨e, he⟩ := hrest f rfl
      rw [sscanf_ok (scan_lit _ _), sscanf_error (scan_long_error he)]
      rfl
    · obtain ⟨e, he⟩ := scan_lit_error (c := 0x2e) (not_exists.mp hpoint)
      rw [sscanf_error he]
      rfl
  simp [parseTs, hscan]

/-- A fraction alone. -/
theorem parseTs_fraction (h : scanLong s.chars = .error .matching) (hs : s.chars = 0x2e :: f)
    (hf : scanLong f = .ok (nano, [])) : parseTs s = decimals s.chars 0 nano := by
  have hscan : sscanf [] [.long, .lit 0x2e, .long, .char] s.chars = (0, []) :=
    sscanf_error (scan_long_error h) _ _
  have hfrac : sscanf [] [.lit 0x2e, .long, .char] s.chars = (1, [nano]) := by
    rw [hs, sscanf_ok (scan_lit _ _), sscanf_ok (scan_long hf)]
    rfl
  simp [parseTs, hscan, hfrac]

/-- No number at the front, and no fraction. -/
theorem parseTs_noNumber (h : scanLong s.chars = .error .matching)
    (hfrac : ∀ f nano, s.chars = 0x2e :: f → scanLong f ≠ .ok (nano, [])) : parseTs s = .refused := by
  have hscan : sscanf [] [.long, .lit 0x2e, .long, .char] s.chars = (0, []) :=
    sscanf_error (scan_long_error h) _ _
  have hcount : (sscanf [] [.lit 0x2e, .long, .char] s.chars).1 ≠ 1 := by
    by_cases hpoint : ∃ f, s.chars = 0x2e :: f
    · obtain ⟨f, hs⟩ := hpoint
      rw [hs, sscanf_ok (scan_lit _ _)]
      cases hlong : scanLong f with
      | error e =>
        rw [sscanf_error (scan_long_error hlong)]
        split_ifs <;> decide
      | ok r =>
        obtain ⟨c, more, hmore⟩ := List.exists_cons_of_ne_nil fun hnil => hfrac f r.1 hs (by rw [hlong, ← hnil])
        rw [sscanf_ok (scan_long hlong), hmore]
        change (2 : ℤ) ≠ 1
        decide
    · obtain ⟨e, he⟩ := scan_lit_error (c := 0x2e) (not_exists.mp hpoint)
      rw [sscanf_error he]
      split_ifs <;> decide
  simp [parseTs, hscan, hcount]

end Scans

section Values

variable {s : CString} {before f : Bytes}

theorem decimals_eq (h : 0x2e ∉ before) (sec nano : ℤ) (f : Bytes) : decimals (before ++ 0x2e :: f) sec nano =
    if 9 < f.length then .refused else .time ⟨sec, int64 (padNano (9 - f.length) (nano % 2 ^ 64).toNat)⟩ := by
  rw [decimals, strchr_append h]
  rfl

theorem padNano_eq {n nano : ℕ} (h : nano * 10 ^ n < 2 ^ 64) : padNano n nano = nano * 10 ^ n := by
  induction n generalizing nano with
  | zero => rw [padNano, Nat.pow_zero, Nat.mul_one]
  | succ n ih =>
    have hmul : nano * 10 * 10 ^ n = nano * 10 ^ (n + 1) := by rw [Nat.mul_assoc, ← Nat.pow_succ']
    have hle : nano * 10 ≤ nano * 10 * 10 ^ n := Nat.le_mul_of_pos_right _ (Nat.pow_pos (by decide))
    have hlt : nano * 10 < 2 ^ 64 := by omega
    rw [padNano, Nat.mod_eq_of_lt hlt, ih (by rw [hmul]; exact h), hmul]

/-- A fraction, with the zeros that its length leaves, is less than a second. -/
theorem nanos_lt (hlength : f.length ≤ 9) (hdigits : ∀ c ∈ f, isDigit c = true) :
    decimal f * 10 ^ (9 - f.length) < 1000000000 := by
  have hpow : 10 ^ f.length * 10 ^ (9 - f.length) = 1000000000 := by
    rw [← Nat.pow_add, Nat.add_sub_cancel' hlength]
  calc decimal f * 10 ^ (9 - f.length) < 10 ^ f.length * 10 ^ (9 - f.length) :=
        Nat.mul_lt_mul_of_pos_right (decimal_lt hdigits) (Nat.pow_pos (by decide))
    _ = 1000000000 := hpow

/-- A fraction of one to nine digits. -/
theorem decimals_digits (sec : ℤ) (hbefore : 0x2e ∉ before) (hlength : f.length ≤ 9)
    (hdigits : ∀ c ∈ f, isDigit c = true) :
    decimals (before ++ 0x2e :: f) sec (clampLong (decimal f)) =
      .time ⟨sec, decimal f * 10 ^ (9 - f.length)⟩ := by
  have hlt := nanos_lt hlength hdigits
  have hle : decimal f ≤ decimal f * 10 ^ (9 - f.length) := Nat.le_mul_of_pos_right _ (Nat.pow_pos (by decide))
  have hclamp : (clampLong (decimal f) % 2 ^ 64).toNat = decimal f := by
    rw [clampLong]
    omega
  rw [decimals_eq hbefore, if_neg (by omega), hclamp, padNano_eq (by omega), int64_eq (by omega) (by omega)]
  norm_cast

end Values

section Results

variable {s : CString}

theorem point_not_part : isSpace 0x2e = false ∧ (0x2e : UInt8) ≠ 0x2b ∧ (0x2e : UInt8) ≠ 0x2d ∧
    isDigit 0x2e = false := by
  decide

theorem endsNumeral_point (f : Bytes) : EndsNumeral (0x2e :: f) := by
  intro c t h
  cases h
  exact point_not_part.2.2.2

/-- There is no number in front of a point. -/
theorem scanLong_point (f : Bytes) : scanLong (0x2e :: f) = .error .matching := by
  refine scanLong_matching_iff.mpr ⟨⟨0x2e, by simp, point_not_part.1⟩, fun w v rest hw h => ?_⟩
  cases w with
  | nil => cases hw.scan
  | cons c w =>
    obtain ⟨rfl, -⟩ := List.cons.inj h
    exact hw.not_mem point_not_part (by simp)

/-- A time is read, but for seconds that do not fit. -/
theorem parseTs_timeOf {ts : Timespec} (h : timeOf s.chars = some ts) :
    parseTs s = .time ⟨clampLong ts.tvSec, ts.tvNsec⟩ := by
  have hs := List.takeWhile_append_dropWhile (p := isDigit) (l := s.chars)
  have hdigits : ∀ c ∈ s.chars.takeWhile isDigit, isDigit c = true := fun c => List.mem_takeWhile_imp
  have hends := endsNumeral_dropWhile s.chars
  rw [timeOf] at h
  generalize s.chars.takeWhile isDigit = whole at h hs hdigits
  generalize s.chars.dropWhile isDigit = rest at h hs hends
  have hscan : whole ≠ [] → scanLong s.chars = .ok (clampLong (decimal whole), rest) := by
    intro hne
    rw [← hs]
    exact (numeral_of_digits hne hdigits).scanLong hends
  cases rest with
  | nil =>
    dsimp only at h
    split_ifs at h with hne
    cases h
    exact parseTs_seconds (hscan hne) fun f hf => by cases hf
  | cons c frac =>
    dsimp only at h
    split_ifs at h with hfraction
    cases h
    obtain ⟨rfl, hone, hnine, hall⟩ := hfraction
    rw [List.all_eq_true] at hall
    have hfrac : scanLong frac = .ok (clampLong (decimal frac), []) :=
      (numeral_of_digits (List.ne_nil_of_length_pos hone) hall).scan
    have hpoint : (0x2e : UInt8) ∉ whole := fun hc => absurd (hdigits _ hc) (by decide)
    have hvalue := decimals_digits (clampLong (decimal whole)) hpoint hnine hall
    rw [hs] at hvalue
    by_cases hne : whole = []
    · subst hne
      have hmatching : scanLong s.chars = .error .matching := by
        rw [← hs]
        exact scanLong_point frac
      rw [parseTs_fraction hmatching hs.symm hfrac]
      exact hvalue
    · rw [parseTs_both (hscan hne) hfrac, hvalue]

theorem parseTs_rightlyRefused (h : RightlyRefused s.chars) : parseTs s = .refused := by
  generalize hs : s.chars = cs at h
  cases h with
  | trailing hw hf hne hrest =>
    exact parseTs_trailing (by rw [hs]; exact hw.scanLong (endsNumeral_point _)) (hf.scanLong hrest) hne
  | long hw hf hlong =>
    rw [parseTs_both (by rw [hs]; exact hw.scanLong (endsNumeral_point _)) hf.scan, hs,
      decimals_eq (hw.not_mem point_not_part), if_pos hlong]
  | @longFraction f u hf hlong =>
    have hvalue := decimals_eq (List.not_mem_nil (a := (0x2e : UInt8))) 0 u f
    rw [List.nil_append, if_pos hlong] at hvalue
    rw [parseTs_fraction (by rw [hs]; exact scanLong_point f) hs hf.scan, hs, hvalue]
  | noNumber hblank hnone hfrac =>
    subst hs
    refine parseTs_noNumber (scanLong_matching_iff.mpr ⟨hblank, hnone⟩) fun f nano hpoint hscan => ?_
    obtain ⟨w, hw, hnumeral, -⟩ := scanLong_ok hscan
    rw [List.append_nil] at hw
    subst hw
    exact hfrac f nano hnumeral hpoint

theorem rightlyRefused_of_refused (h : parseTs s = .refused) : RightlyRefused s.chars := by
  have hlength : ∀ (before : Bytes) {f : Bytes} {sec nano : ℤ}, 0x2e ∉ before →
      decimals (before ++ 0x2e :: f) sec nano = .refused → 9 < f.length := by
    intro before f sec nano hbefore hrefused
    rw [decimals_eq hbefore] at hrefused
    by_contra hshort
    rw [if_neg hshort] at hrefused
    cases hrefused
  cases hscan : scanLong s.chars with
  | error e =>
    cases e with
    | input =>
      rw [parseTs_input hscan] at h
      cases h
    | matching =>
      by_cases hfrac : ∃ f u, s.chars = 0x2e :: f ∧ Numeral f u
      · obtain ⟨f, u, hs, hf⟩ := hfrac
        rw [parseTs_fraction hscan hs hf.scan, hs] at h
        rw [hs]
        exact .longFraction hf (hlength [] List.not_mem_nil h)
      · obtain ⟨hblank, hnone⟩ := scanLong_matching_iff.mp hscan
        exact .noNumber hblank hnone fun f u hf hs => hfrac ⟨f, u, hs, hf⟩
  | ok r =>
    obtain ⟨sec, rest⟩ := r
    obtain ⟨w, hs, hw, hends⟩ := scanLong_ok hscan
    by_cases hboth : ∃ f r, rest = 0x2e :: f ∧ scanLong f = .ok r
    · obtain ⟨f, ⟨nano, more⟩, rfl, hf⟩ := hboth
      obtain ⟨w', rfl, hw', hends'⟩ := scanLong_ok hf
      by_cases hmore : more = []
      · subst hmore
        rw [List.append_nil] at hs hscan hf
        rw [parseTs_both hscan hf, hs] at h
        rw [hs]
        exact .long hw hw' (hlength w (hw.not_mem point_not_part) h)
      · rw [hs]
        exact .trailing hw hw' hmore hends'
    · have hseconds := parseTs_seconds hscan fun f hf => by
        cases hlong : scanLong f with
        | error e => exact ⟨e, rfl⟩
        | ok r => exact absurd ⟨f, r, hf, hlong⟩ hboth
      rw [hseconds] at h
      cases h

/-- A time has less than a second of nanoseconds. -/
theorem timeOf_normal {bs : Bytes} {ts : Timespec} (h : timeOf bs = some ts) :
    0 ≤ ts.tvSec ∧ 0 ≤ ts.tvNsec ∧ ts.tvNsec < 1000000000 := by
  rw [timeOf] at h
  generalize bs.takeWhile isDigit = whole at h
  generalize bs.dropWhile isDigit = rest at h
  cases rest with
  | nil =>
    dsimp only at h
    split_ifs at h with hne
    cases h
    exact ⟨Int.natCast_nonneg _, le_rfl, (by decide : (0 : ℤ) < 1000000000)⟩
  | cons c frac =>
    dsimp only at h
    split_ifs at h with hfraction
    cases h
    obtain ⟨-, -, hnine, hall⟩ := hfraction
    have hlt := nanos_lt hnine (List.all_eq_true.mp hall)
    have hcast : (decimal frac : ℤ) * 10 ^ (9 - frac.length) = (decimal frac * 10 ^ (9 - frac.length) : ℕ) := by
      norm_cast
    dsimp only
    rw [hcast]
    exact ⟨Int.natCast_nonneg _, Int.natCast_nonneg _, Int.ofNat_lt.mpr hlt⟩

/-- An argument is parsed exactly where it is a time whose seconds fit, or one of the strings that lead to a
refusal. -/
theorem timeExact_iff (s : CString) : TimeExact s ↔
    (∃ ts, timeOf s.chars = some ts ∧ ts.tvSec < 2 ^ 63) ∨ RightlyRefused s.chars := by
  constructor
  · intro h
    have hresult := h.result
    cases htime : timeOf s.chars with
    | none =>
      rw [htime] at hresult
      exact .inr (rightlyRefused_of_refused hresult)
    | some ts =>
      rw [htime, parseTs_timeOf htime] at hresult
      have hclamp : clampLong ts.tvSec = ts.tvSec := congrArg Timespec.tvSec (ParsedTime.time.inj hresult)
      rw [clampLong] at hclamp
      exact .inl ⟨ts, rfl, by omega⟩
  · rintro (⟨ts, htime, hfits⟩ | hrefused)
    · obtain ⟨hsec, hnsec, hlt⟩ := timeOf_normal htime
      have hclamp : clampLong ts.tvSec = ts.tvSec := by
        rw [clampLong]
        omega
      have hparsed := parseTs_timeOf htime
      rw [hclamp] at hparsed
      refine ⟨by rw [hparsed, htime]; rfl, fun ts' h => ?_⟩
      rw [hparsed] at h
      cases h
      exact ⟨hnsec, hlt⟩
    · have hparsed := parseTs_rightlyRefused hrefused
      have htime : timeOf s.chars = none := by
        cases htime : timeOf s.chars with
        | none => rfl
        | some ts =>
          rw [parseTs_timeOf htime] at hparsed
          cases hparsed
      refine ⟨by rw [hparsed, htime]; rfl, fun ts' h => ?_⟩
      rw [hparsed] at h
      cases h

end Results

/-- Text behind the seconds is ignored, and a blank argument has no point to look for. -/
theorem one_x : parseTs ⟨[0x31, 0x78], by decide, by decide⟩ = .time ⟨1, 0⟩ ∧
    parseTs ⟨[], by decide, by decide⟩ = .crash ∧ ¬ TimeExact ⟨[0x31, 0x78], by decide, by decide⟩ :=
  ⟨by decide, by decide, fun h => absurd h.result (by decide)⟩

end WhiteRabbit.Dio
