import Mathlib.Data.List.Basic
import Mathlib.Data.List.Infix
import Mathlib.Data.List.TakeWhile
import WhiteRabbit.BigEndianWords

/-!
# Strings of C

A string is its bytes up to the one that ends it. Numbers are scanned from its front the way `sscanf` does:
blanks are skipped before a number, and a conversion that finds no number stops the scan.
-/

namespace WhiteRabbit.CStrings

open BigEndian

/-- A string, without its end, that an `int` can count. -/
structure CString where
  chars : Bytes
  noNul : 0 ∉ chars
  length_lt : chars.length < 2 ^ 31

def strncmp : ℕ → Bytes → Bytes → ℤ
  | 0, _, _ => 0
  | n + 1, s1, s2 =>
    if s1.headD 0 ≠ s2.headD 0 then (s1.headD 0).toNat - (s2.headD 0).toNat
    else if s1.headD 0 = 0 then 0
    else strncmp n s1.tail s2.tail

/-- What a string is from the first place of a character on. -/
def strchr : Bytes → UInt8 → Option Bytes
  | [], _ => none
  | b :: s, c => if b = c then some (b :: s) else strchr s c

def isSpace (c : UInt8) : Bool := c = 0x20 || (0x09 ≤ c && c ≤ 0x0d)

def isDigit (c : UInt8) : Bool := 0x30 ≤ c && c ≤ 0x39

def decimal (digits : Bytes) : ℕ := digits.foldl (fun n c => 10 * n + (c.toNat - 0x30)) 0

/-- A value that does not fit is replaced by the nearest one. -/
def clampLong (v : ℤ) : ℤ := max (-2 ^ 63) (min v (2 ^ 63 - 1))

/-- The end of the string is reached, or a character does not match. -/
inductive ScanFailure where
  | input
  | matching
  deriving DecidableEq

/-- `%ld`, a character of the format, `%c`. -/
inductive Directive where
  | long
  | lit (c : UInt8)
  | char

def splitSign : Bytes → Bytes × Bytes
  | [] => ([], [])
  | c :: s => if c = 0x2b || c = 0x2d then ([c], s) else ([], c :: s)

def signed (sign : Bytes) (n : ℕ) : ℤ := if sign = [0x2d] then -n else n

def scanLong (s : Bytes) : Except ScanFailure (ℤ × Bytes) :=
  let s := s.dropWhile isSpace
  if s = [] then .error .input
  else
    let (sign, s) := splitSign s
    let digits := s.takeWhile isDigit
    if digits = [] then .error .matching
    else .ok (clampLong (signed sign (decimal digits)), s.dropWhile isDigit)

def Directive.scan : Directive → Bytes → Except ScanFailure (List ℤ × Bytes)
  | .long, s => (scanLong s).map fun r => ([r.1], r.2)
  | .lit _, [] => .error .input
  | .lit c, b :: s => if b = c then .ok ([], s) else .error .matching
  | .char, [] => .error .input
  | .char, b :: s => .ok ([b.toNat], s)

/-- The value returned and the items that were converted, `items` by the directives before. -/
def sscanf (items : List ℤ) : List Directive → Bytes → ℤ × List ℤ
  | [], _ => (items.length, items)
  | d :: ds, s =>
    match d.scan s with
    | .ok r => sscanf (items ++ r.1) ds r.2
    | .error f => if items = [] ∧ f = .input then (-1, []) else (items.length, items)

/-- A text that `%ld` takes as a whole, and its value. -/
structure Numeral (w : Bytes) (v : ℤ) : Prop where
  exists_parts : ∃ blanks sign digits, w = blanks ++ (sign ++ digits) ∧ (∀ c ∈ blanks, isSpace c = true) ∧
    (sign = [] ∨ sign = [0x2b] ∨ sign = [0x2d]) ∧ digits ≠ [] ∧ (∀ c ∈ digits, isDigit c = true) ∧
    v = clampLong (signed sign (decimal digits))

/-- A number ends before the text. -/
def EndsNumeral (rest : Bytes) : Prop := ∀ c s, rest = c :: s → isDigit c = false

section Scan

variable {d : Directive} {s rest : Bytes} {v : ℤ} {e : ScanFailure} {new : List ℤ}

theorem sscanf_ok (h : d.scan s = .ok (new, rest)) (items : List ℤ) (ds : List Directive) :
    sscanf items (d :: ds) s = sscanf (items ++ new) ds rest := by
  rw [sscanf, h]

theorem sscanf_error (h : d.scan s = .error e) (items : List ℤ) (ds : List Directive) :
    sscanf items (d :: ds) s = if items = [] ∧ e = .input then (-1, []) else (↑items.length, items) := by
  rw [sscanf, h]

theorem scan_long (h : scanLong s = .ok (v, rest)) : Directive.scan .long s = .ok ([v], rest) := by
  rw [Directive.scan, h]
  rfl

theorem scan_long_error (h : scanLong s = .error e) : Directive.scan .long s = .error e := by
  rw [Directive.scan, h]
  rfl

theorem scan_lit (c : UInt8) (s : Bytes) : Directive.scan (.lit c) (c :: s) = .ok ([], s) := if_pos rfl

theorem scan_lit_error {c : UInt8} (h : ∀ t, s ≠ c :: t) : ∃ e, Directive.scan (.lit c) s = .error e := by
  cases s with
  | nil => exact ⟨.input, rfl⟩
  | cons b s => exact ⟨.matching, if_neg fun hb => h s (by rw [hb])⟩

end Scan

section Comparison

/-- A string is a beginning of the bytes that it is compared with over its whole length. -/
theorem strncmp_eq_zero_iff {name bs : Bytes} (hname : 0 ∉ name) (hlength : name.length ≤ bs.length) :
    strncmp name.length name bs = 0 ↔ name <+: bs := by
  induction name generalizing bs with
  | nil => simp [strncmp]
  | cons c name ih =>
    cases bs with
    | nil => simp at hlength
    | cons b bs =>
      have hc : c ≠ 0 := fun h => hname (by simp [h])
      rw [List.length_cons, strncmp, List.headD_cons, List.headD_cons, List.cons_prefix_cons]
      by_cases hcb : c = b
      · subst hcb
        rw [if_neg (by simp), if_neg hc, List.tail_cons, List.tail_cons,
          ih (fun h => hname (by simp [h])) (by simpa using hlength)]
        simp
      · have hdiff : (c.toNat : ℤ) - b.toNat ≠ 0 := by
          intro h
          exact hcb (UInt8.toNat_inj.mp (by omega))
        rw [if_pos hcb]
        exact iff_of_false hdiff fun h => hcb h.1

/-- The text before the first place of a character does not have it. -/
theorem strchr_append {c : UInt8} {before : Bytes} (h : c ∉ before) (rest : Bytes) :
    strchr (before ++ c :: rest) c = some (c :: rest) := by
  induction before with
  | nil => simp [strchr]
  | cons b before ih =>
    have hb : b ≠ c := fun hbc => h (by simp [hbc])
    rw [List.cons_append, strchr, if_neg hb]
    exact ih fun hc => h (by simp [hc])

theorem strchr_eq_none {c : UInt8} {s : Bytes} (h : c ∉ s) : strchr s c = none := by
  induction s with
  | nil => rfl
  | cons b s ih =>
    have hb : b ≠ c := fun hbc => h (by simp [hbc])
    rw [strchr, if_neg hb]
    exact ih fun hc => h (by simp [hc])

end Comparison

section Numerals

variable {s w rest digits : Bytes} {v : ℤ}

theorem isDigit_iff {c : UInt8} : isDigit c = true ↔ 0x30 ≤ c.toNat ∧ c.toNat ≤ 0x39 := by
  rw [isDigit, Bool.and_eq_true, decide_eq_true_iff, decide_eq_true_iff, UInt8.le_iff_toNat_le,
    UInt8.le_iff_toNat_le]
  rfl

theorem isSpace_iff {c : UInt8} : isSpace c = true ↔ c.toNat = 0x20 ∨ 0x09 ≤ c.toNat ∧ c.toNat ≤ 0x0d := by
  rw [isSpace, Bool.or_eq_true, Bool.and_eq_true, decide_eq_true_iff, decide_eq_true_iff, decide_eq_true_iff,
    UInt8.le_iff_toNat_le, UInt8.le_iff_toNat_le, ← UInt8.toNat_inj]
  rfl

theorem not_isSpace_of_isDigit {c : UInt8} (h : isDigit c = true) : isSpace c = false := by
  rw [isDigit_iff] at h
  rw [← Bool.not_eq_true, isSpace_iff]
  omega

theorem endsNumeral_nil : EndsNumeral [] := fun c s h => by cases h

theorem endsNumeral_dropWhile (s : Bytes) : EndsNumeral (s.dropWhile isDigit) := by
  intro c t h
  have hhead := List.head_dropWhile_not isDigit (l := s) (by simp [h])
  simpa only [h, List.head_cons] using hhead

theorem EndsNumeral.takeWhile_append (h : EndsNumeral rest) (hdigits : ∀ c ∈ digits, isDigit c = true) :
    (digits ++ rest).takeWhile isDigit = digits ∧ (digits ++ rest).dropWhile isDigit = rest := by
  rw [List.takeWhile_append_of_pos hdigits, List.dropWhile_append_of_pos hdigits]
  cases rest with
  | nil => simp
  | cons c s => simp [h c s rfl]

/-- The front of a text that is no blank, and of one that is no sign. -/
theorem dropWhile_isSpace_append {blanks : Bytes} (hblanks : ∀ c ∈ blanks, isSpace c = true) {c : UInt8}
    (hc : isSpace c = false) (s : Bytes) : (blanks ++ c :: s).dropWhile isSpace = c :: s := by
  rw [List.dropWhile_append_of_pos hblanks, List.dropWhile_cons_of_neg (by simp [hc])]

theorem splitSign_digits {d : UInt8} (hd : isDigit d = true) (s : Bytes) : splitSign (d :: s) = ([], d :: s) := by
  have h2b : ¬ (d = 0x2b || d = 0x2d) = true := by
    rw [isDigit_iff] at hd
    rw [Bool.or_eq_true, decide_eq_true_iff, decide_eq_true_iff]
    rintro (rfl | rfl) <;> exact absurd hd (by decide)
  rw [splitSign, if_neg h2b]

/-- A number is scanned up to where it ends. -/
theorem Numeral.scanLong (h : Numeral w v) (hrest : EndsNumeral rest) : scanLong (w ++ rest) = .ok (v, rest) := by
  obtain ⟨blanks, sign, digits, rfl, hblanks, hsign, hne, hdigits, rfl⟩ := h.exists_parts
  obtain ⟨d, more, rfl⟩ := List.exists_cons_of_ne_nil hne
  have hd : isDigit d = true := hdigits d (by simp)
  obtain ⟨htake, hdrop⟩ := hrest.takeWhile_append hdigits
  have hfront : ∃ c t, sign ++ (d :: more) ++ rest = c :: t ∧ isSpace c = false ∧
      splitSign (c :: t) = (sign, (d :: more) ++ rest) := by
    rcases hsign with rfl | rfl | rfl
    · exact ⟨d, more ++ rest, rfl, not_isSpace_of_isDigit hd, splitSign_digits hd _⟩
    · exact ⟨0x2b, (d :: more) ++ rest, rfl, by decide, rfl⟩
    · exact ⟨0x2d, (d :: more) ++ rest, rfl, by decide, rfl⟩
  obtain ⟨c, t, hct, hc, hsplit⟩ := hfront
  rw [CStrings.scanLong, List.append_assoc, hct, dropWhile_isSpace_append hblanks hc]
  simp only [hsplit, htake, hdrop]
  simp

theorem decimal_lt (h : ∀ c ∈ digits, isDigit c = true) : decimal digits < 10 ^ digits.length := by
  induction digits using List.reverseRecOn with
  | nil => decide
  | append_singleton digits c ih =>
    have hc := isDigit_iff.mp (h c (by simp))
    have hdigits := ih fun d hd => h d (by simp [hd])
    have hconcat : decimal (digits ++ [c]) = 10 * decimal digits + (c.toNat - 0x30) := by simp [decimal]
    rw [hconcat, List.length_append, List.length_singleton, Nat.pow_succ]
    omega

theorem numeral_of_digits (hne : digits ≠ []) (h : ∀ c ∈ digits, isDigit c = true) :
    Numeral digits (clampLong (decimal digits)) :=
  ⟨[], [], digits, rfl, by simp, .inl rfl, hne, h, rfl⟩

/-- A number has no other characters. -/
theorem Numeral.not_mem {c : UInt8} (hw : Numeral w v)
    (hc : isSpace c = false ∧ c ≠ 0x2b ∧ c ≠ 0x2d ∧ isDigit c = false) : c ∉ w := by
  obtain ⟨blanks, sign, digits, rfl, hblanks, hsign, -, hdigits, -⟩ := hw.exists_parts
  intro hmem
  rcases List.mem_append.mp hmem with hmem | hmem
  · exact absurd (hblanks c hmem) (by simp [hc.1])
  rcases List.mem_append.mp hmem with hmem | hmem
  · rcases hsign with rfl | rfl | rfl
    · cases hmem
    · exact hc.2.1 (List.mem_singleton.mp hmem)
    · exact hc.2.2.1 (List.mem_singleton.mp hmem)
  · exact absurd (hdigits c hmem) (by simp [hc.2.2.2])

/-- A number takes its text as a whole. -/
theorem Numeral.scan (h : Numeral w v) : CStrings.scanLong w = .ok (v, []) := by
  have hscan := h.scanLong endsNumeral_nil
  rwa [List.append_nil] at hscan

/-- The digits that follow a number make a longer one. -/
theorem Numeral.extend (h : Numeral w v) (rest : Bytes) :
    ∃ w' v', Numeral w' v' ∧ w ++ rest = w' ++ rest.dropWhile isDigit := by
  obtain ⟨blanks, sign, digits, rfl, hblanks, hsign, hne, hdigits, -⟩ := h.exists_parts
  refine ⟨blanks ++ (sign ++ (digits ++ rest.takeWhile isDigit)), _, ⟨blanks, sign, digits ++ rest.takeWhile isDigit,
    rfl, hblanks, hsign, by simp [hne], fun c hc => ?_, rfl⟩, ?_⟩
  · exact (List.mem_append.mp hc).elim (hdigits c) List.mem_takeWhile_imp
  · simp only [List.append_assoc, List.takeWhile_append_dropWhile]

theorem splitSign_spec (s : Bytes) : s = (splitSign s).1 ++ (splitSign s).2 ∧
    ((splitSign s).1 = [] ∨ (splitSign s).1 = [0x2b] ∨ (splitSign s).1 = [0x2d]) := by
  cases s with
  | nil => exact ⟨rfl, .inl rfl⟩
  | cons c s =>
    rw [splitSign]
    split_ifs with hc
    · rw [Bool.or_eq_true, decide_eq_true_iff, decide_eq_true_iff] at hc
      exact ⟨rfl, .inr (hc.imp (fun h => by rw [h]) fun h => by rw [h])⟩
    · exact ⟨rfl, .inl rfl⟩

/-- What is scanned as a number is one, and it ends there. -/
theorem scanLong_ok (h : scanLong s = .ok (v, rest)) : ∃ w, s = w ++ rest ∧ Numeral w v ∧ EndsNumeral rest := by
  obtain ⟨hsplit, hsign⟩ := splitSign_spec (s.dropWhile isSpace)
  rw [scanLong] at h
  simp only at h
  split_ifs at h with hempty hdigits
  cases h
  refine ⟨s.takeWhile isSpace ++ ((splitSign (s.dropWhile isSpace)).1 ++
    (splitSign (s.dropWhile isSpace)).2.takeWhile isDigit), ?_, ⟨_, _, _, rfl, fun c => List.mem_takeWhile_imp, hsign,
      hdigits, fun c => List.mem_takeWhile_imp, rfl⟩, endsNumeral_dropWhile _⟩
  rw [List.append_assoc, List.append_assoc, List.takeWhile_append_dropWhile, ← hsplit,
    List.takeWhile_append_dropWhile]

theorem scanLong_input_iff : scanLong s = .error .input ↔ ∀ c ∈ s, isSpace c = true := by
  rw [← List.dropWhile_eq_nil_iff, scanLong]
  simp only
  split_ifs with hempty hdigits
  · exact iff_of_true rfl hempty
  · exact iff_of_false (fun h => by cases h) hempty
  · exact iff_of_false (fun h => by cases h) hempty

/-- There is no number at the front of a text that does not match one. -/
theorem scanLong_matching_iff : scanLong s = .error .matching ↔
    (∃ c ∈ s, isSpace c = false) ∧ ∀ w v rest, Numeral w v → s ≠ w ++ rest := by
  have hblank : (∃ c ∈ s, isSpace c = false) ↔ scanLong s ≠ .error .input := by
    rw [Ne, scanLong_input_iff]
    simp
  rw [hblank]
  constructor
  · intro h
    refine ⟨by rw [h]; simp, ?_⟩
    rintro w v rest hw rfl
    -- the digits that come right behind the number belong to it
    obtain ⟨w', v', hw', hsame⟩ := hw.extend rest
    rw [hsame, hw'.scanLong (endsNumeral_dropWhile rest)] at h
    cases h
  · rintro ⟨hinput, hnone⟩
    cases hscan : scanLong s with
    | ok r =>
      obtain ⟨w, hs, hw, -⟩ := scanLong_ok hscan
      exact absurd hs (hnone w r.1 r.2 hw)
    | error f =>
      cases f with
      | input => exact absurd hscan hinput
      | matching => rfl

end Numerals

end WhiteRabbit.CStrings
