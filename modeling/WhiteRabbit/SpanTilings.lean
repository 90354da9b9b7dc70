import Mathlib.Algebra.Order.Ring.Nat
import Mathlib.Data.List.Count

/-!
# Spans that tile an interval

A span is a start with a length. Spans that follow each other from `a` to `b` cover every point
between them once, and no other point. Dividing the spans of a tiling further gives a tiling again.
-/

namespace WhiteRabbit.SpanTilings

abbrev Span := ℕ × ℕ

def OnSpan (x : ℕ) (s : Span) : Prop := s.1 ≤ x ∧ x < s.1 + s.2

instance (x : ℕ) (s : Span) : Decidable (OnSpan x s) := inferInstanceAs (Decidable (_ ∧ _))

/-- How many of the spans cover a point. -/
def coverage (x : ℕ) (ss : List Span) : ℕ := ss.countP fun s => decide (OnSpan x s)

/-- The spans lead from `a` to `b` without a gap. -/
def Tiles : ℕ → List Span → ℕ → Prop
  | a, [], b => a = b
  | a, s :: ss, b => s.1 = a ∧ Tiles (a + s.2) ss b

variable {a b c limit x : ℕ} {s : Span} {ss ss' : List Span}

theorem coverage_pos_iff : 0 < coverage x ss ↔ ∃ s ∈ ss, OnSpan x s := by
  simp [coverage, List.countP_pos_iff]

@[simp] theorem tiles_nil : Tiles a [] b ↔ a = b := Iff.rfl

@[simp] theorem tiles_cons : Tiles a (s :: ss) b ↔ s.1 = a ∧ Tiles (a + s.2) ss b := Iff.rfl

namespace Tiles

theorem le (h : Tiles a ss b) : a ≤ b := by
  induction ss generalizing a with
  | nil => exact h.le
  | cons s ss ih => exact (Nat.le_add_right a s.2).trans (ih h.2)

theorem append (h : Tiles a ss b) (h' : Tiles b ss' c) : Tiles a (ss ++ ss') c := by
  induction ss generalizing a with
  | nil =>
    obtain rfl : a = b := h
    exact h'
  | cons s ss ih => exact ⟨h.1, ih h.2⟩

/-- Part of a tiling leads to where the rest starts. -/
theorem split (h : Tiles a (ss ++ ss') b) : ∃ c, Tiles a ss c ∧ Tiles c ss' b := by
  induction ss generalizing a with
  | nil => exact ⟨a, rfl, h⟩
  | cons s ss ih =>
    obtain ⟨c, hc, hrest⟩ := ih h.2
    exact ⟨c, ⟨h.1, hc⟩, hrest⟩

/-- Every point between the ends is covered once. -/
theorem coverage_eq (h : Tiles a ss b) (x : ℕ) : coverage x ss = if a ≤ x ∧ x < b then 1 else 0 := by
  induction ss generalizing a with
  | nil =>
    obtain rfl : a = b := h
    rw [if_neg (by omega)]
    rfl
  | cons s ss ih =>
    obtain ⟨rfl, htail⟩ := h
    have hle := htail.le
    have hcons : coverage x (s :: ss) = coverage x ss + if OnSpan x s then 1 else 0 := by
      simp [coverage, List.countP_cons]
    rw [hcons, ih htail]
    by_cases hs : OnSpan x s
    · have hx : s.1 ≤ x ∧ x < s.1 + s.2 := hs
      rw [if_pos hs, if_neg (by omega), if_pos (by omega)]
    · have hx : ¬ (s.1 ≤ x ∧ x < s.1 + s.2) := hs
      rw [if_neg hs, Nat.add_zero]
      congr 1
      apply propext
      omega

/-- Spans that stay below a limit lead no further. -/
theorem le_limit (h : Tiles a ss b) (ha : a ≤ limit) (hss : ∀ s ∈ ss, s.1 + s.2 ≤ limit) : b ≤ limit := by
  induction ss generalizing a with
  | nil =>
    obtain rfl : a = b := h
    exact ha
  | cons s ss ih =>
    have hs := hss s (by simp)
    rw [h.1] at hs
    exact ih h.2 hs fun t ht => hss t (List.mem_cons_of_mem s ht)

/-- Spans of whole multiples lead a whole multiple further. -/
theorem dvd_sub {d : ℕ} (h : Tiles a ss b) (hss : ∀ s ∈ ss, d ∣ s.2) : d ∣ b - a := by
  induction ss generalizing a with
  | nil =>
    obtain rfl : a = b := h
    simp
  | cons s ss ih =>
    have hle := h.2.le
    have htail := ih h.2 fun t ht => hss t (List.mem_cons_of_mem s ht)
    have hsub : b - a = s.2 + (b - (a + s.2)) := by omega
    rw [hsub]
    exact Nat.dvd_add (hss s (by simp)) htail

theorem sum_eq (h : Tiles a ss b) : a + (ss.map Prod.snd).sum = b := by
  induction ss generalizing a with
  | nil => exact h
  | cons s ss ih =>
    rw [List.map_cons, List.sum_cons, ← Nat.add_assoc]
    exact ih h.2

end Tiles

end WhiteRabbit.SpanTilings
