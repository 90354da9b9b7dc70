import Mathlib.Data.List.Basic

/-!
# Streams that come in chunks

A stream is delivered in chunks, and a read takes what it asks for from the first of them, or
all of it if that is less. The places where chunks end decide how much a read gets.
-/

namespace WhiteRabbit.ChunkedStreams

variable {α : Type*}

/-- What a read of at most `n` elements takes, and what is left. -/
def recv (n : ℕ) : List (List α) → List α × List (List α)
  | [] => ([], [])
  | c :: cs => if c.length ≤ n then (c, cs) else (c.take n, c.drop n :: cs)

/-- A chunk ends at this place of the stream. -/
def Cut (chunks : List (List α)) (place : ℕ) : Prop := ∃ k, place = (chunks.take k).flatten.length

variable {chunks : List (List α)} {n : ℕ}

theorem recv_append (n : ℕ) (chunks : List (List α)) :
    (recv n chunks).1 ++ (recv n chunks).2.flatten = chunks.flatten := by
  cases chunks with
  | nil => rfl
  | cons c cs =>
    rw [recv]
    split
    · rfl
    · rw [List.flatten_cons, List.flatten_cons, ← List.append_assoc, List.take_append_drop]

theorem recv_length_le (n : ℕ) (chunks : List (List α)) : (recv n chunks).1.length ≤ n := by
  cases chunks with
  | nil => exact Nat.zero_le n
  | cons c cs =>
    rw [recv]
    split
    · rename_i h
      exact h
    · rw [List.length_take]
      exact Nat.min_le_left _ _

theorem recv_ne_nil (hn : 0 < n) (hchunks : chunks ≠ []) (hne : ∀ c ∈ chunks, c ≠ []) :
    (recv n chunks).1 ≠ [] := by
  cases chunks with
  | nil => exact absurd rfl hchunks
  | cons c cs =>
    have hc : c ≠ [] := hne c (List.mem_cons_self ..)
    rw [recv]
    split
    · exact hc
    · have hpos : 0 < c.length := List.length_pos_iff.mpr hc
      rw [← List.length_pos_iff, List.length_take]
      omega

theorem recv_rest (n : ℕ) (hne : ∀ c ∈ chunks, c ≠ []) : ∀ c ∈ (recv n chunks).2, c ≠ [] := by
  cases chunks with
  | nil => exact fun c hc => absurd hc List.not_mem_nil
  | cons c cs =>
    rw [recv]
    split
    · exact fun d hd => hne d (List.mem_cons_of_mem _ hd)
    · rename_i h
      intro d hd
      rcases List.mem_cons.mp hd with rfl | hd
      · rw [← List.length_pos_iff, List.length_drop]
        omega
      · exact hne d (List.mem_cons_of_mem _ hd)

/-- The places where chunks end stay, as seen behind the read. -/
theorem recv_cut (n : ℕ) (chunks : List (List α)) {b : ℕ} (hb : 0 < b) :
    Cut (recv n chunks).2 b ↔ Cut chunks (b + (recv n chunks).1.length) := by
  cases chunks with
  | nil => rfl
  | cons c cs =>
    rw [recv]
    split
    · dsimp only
      constructor
      · rintro ⟨k, rfl⟩
        refine ⟨k + 1, ?_⟩
        rw [List.take_succ_cons, List.flatten_cons, List.length_append, Nat.add_comm]
      · rintro ⟨k, hk⟩
        cases k with
        | zero =>
          rw [List.take_zero, List.flatten_nil, List.length_nil] at hk
          omega
        | succ k =>
          rw [List.take_succ_cons, List.flatten_cons, List.length_append] at hk
          exact ⟨k, by omega⟩
    · rename_i h
      dsimp only
      have htake : (c.take n).length + (c.drop n).length = c.length := by
        rw [← List.length_append, List.take_append_drop]
      constructor
      · rintro ⟨k, rfl⟩
        cases k with
        | zero => exact absurd hb (by simp)
        | succ k =>
          refine ⟨k + 1, ?_⟩
          rw [List.take_succ_cons, List.take_succ_cons, List.flatten_cons, List.flatten_cons, List.length_append,
            List.length_append]
          omega
      · rintro ⟨k, hk⟩
        cases k with
        | zero =>
          rw [List.take_zero, List.flatten_nil, List.length_nil] at hk
          omega
        | succ k =>
          refine ⟨k + 1, ?_⟩
          rw [List.take_succ_cons, List.flatten_cons, List.length_append] at hk ⊢
          omega

/-- A read gets all it asks for exactly when no chunk ends inside. -/
theorem recv_full_iff (hn : 0 < n) (hne : ∀ c ∈ chunks, c ≠ []) (hlen : n ≤ chunks.flatten.length) :
    (recv n chunks).1.length = n ↔ ∀ b, 0 < b → b < n → ¬ Cut chunks b := by
  cases chunks with
  | nil =>
    rw [List.flatten_nil, List.length_nil] at hlen
    omega
  | cons c cs =>
    have hc : 0 < c.length := List.length_pos_iff.mpr (hne c (List.mem_cons_self ..))
    rw [recv]
    split
    · rename_i hle
      constructor
      · rintro hfull b hb hbn ⟨k, rfl⟩
        cases k with
        | zero => exact absurd hb (by simp)
        | succ k =>
          rw [List.take_succ_cons, List.flatten_cons, List.length_append] at hbn
          dsimp only at hfull
          omega
      · intro hcut
        have hfirst : Cut (c :: cs) c.length := ⟨1, by simp⟩
        have hnot : ¬ c.length < n := fun hlt => hcut c.length hc hlt hfirst
        dsimp only
        omega
    · rename_i hlt
      constructor
      · rintro - b hb hbn ⟨k, rfl⟩
        cases k with
        | zero => exact absurd hb (by simp)
        | succ k =>
          rw [List.take_succ_cons, List.flatten_cons, List.length_append] at hbn
          omega
      · intro _
        rw [List.length_take]
        omega

end WhiteRabbit.ChunkedStreams
