import Mathlib.Algebra.Ring.Int.Defs
import Mathlib.Algebra.Ring.Nat
import Mathlib.Data.List.Nodup
import Mathlib.Data.List.Range
import Mathlib.Logic.Function.Basic
import Mathlib.Tactic.SplitIfs

/-!
# Arcs of a ring of slots

The slots of a ring are numbered from zero. A ring buffer is in use from its tail up to, but
not including, its head; when both are equal nothing is in use, so that one slot of a full
ring stays free.
-/

namespace WhiteRabbit.RingArcs

variable {α : Type*} {n tail head : ℕ}

/-- The slot behind a slot. -/
def next (n i : ℕ) : ℕ := (i + 1) % n

/-- The number of slots from the tail to the head. -/
def span (n tail head : ℕ) : ℕ := (head + n - tail) % n

/-- The slots from the tail to the head. -/
def arc (n tail head : ℕ) : List ℕ := (List.range (span n tail head)).map fun k => (tail + k) % n

@[simp] theorem length_arc : (arc n tail head).length = span n tail head := by
  rw [arc, List.length_map, List.length_range]

theorem next_lt (hn : 0 < n) (i : ℕ) : next n i < n := Nat.mod_lt _ hn

theorem next_eq (h : tail < n) : next n tail = if tail + 1 = n then 0 else tail + 1 := by
  rw [next]
  split
  · rename_i he
    rw [he, Nat.mod_self]
  · exact Nat.mod_eq_of_lt (by omega)

theorem span_lt (hn : 0 < n) : span n tail head < n := Nat.mod_lt _ hn

theorem span_eq (ht : tail < n) (hh : head < n) :
    span n tail head = if tail ≤ head then head - tail else head + n - tail := by
  rw [span]
  split
  · rename_i hle
    rw [show head + n - tail = head - tail + n by omega, Nat.add_mod_right]
    exact Nat.mod_eq_of_lt (by omega)
  · exact Nat.mod_eq_of_lt (by omega)

theorem slot_eq (ht : tail < n) {k : ℕ} (hk : k < n) :
    (tail + k) % n = if tail + k < n then tail + k else tail + k - n := by
  split
  · rename_i hlt
    exact Nat.mod_eq_of_lt hlt
  · rename_i hge
    rw [show tail + k = tail + k - n + n by omega, Nat.add_mod_right, Nat.add_sub_cancel]
    exact Nat.mod_eq_of_lt (by omega)

/-- An empty arc starts where it ends. -/
@[simp] theorem arc_self (h : tail < n) : arc n tail tail = [] := by
  rw [arc, span_eq h h, if_pos (Nat.le_refl _), Nat.sub_self]
  rfl

theorem arc_eq_nil_iff (ht : tail < n) (hh : head < n) : arc n tail head = [] ↔ tail = head := by
  rw [← List.length_eq_zero_iff, length_arc, span_eq ht hh]
  split <;> omega

/-- The first slot of an arc is its tail. -/
theorem arc_eq_cons (ht : tail < n) (hh : head < n) (hne : tail ≠ head) :
    arc n tail head = tail :: arc n (next n tail) head := by
  have hspan : span n tail head = span n (next n tail) head + 1 := by
    rw [span_eq ht hh, span_eq (next_lt (by omega) _) hh, next_eq ht]
    split <;> split <;> split <;> omega
  have hlt : span n tail head < n := span_lt (by omega)
  rw [arc, arc, hspan, List.range_succ_eq_map, List.map_cons, List.map_map, Nat.add_zero,
    Nat.mod_eq_of_lt ht]
  congr 1
  apply List.map_congr_left
  intro k hk
  have hk := List.mem_range.mp hk
  rw [Function.comp_apply, slot_eq ht (by omega), slot_eq (next_lt (by omega) _) (by omega), next_eq ht]
  split <;> split <;> split <;> omega

/-- Moving the head on adds the slot it leaves. -/
theorem arc_next (ht : tail < n) (hh : head < n) (hne : next n head ≠ tail) :
    arc n tail (next n head) = arc n tail head ++ [head] := by
  have hnext := next_eq hh
  have hspan : span n tail (next n head) = span n tail head + 1 := by
    rw [span_eq ht (next_lt (by omega) _), span_eq ht hh]
    rw [hnext] at hne ⊢
    split_ifs at hne ⊢ <;> omega
  have hlast : (tail + span n tail head) % n = head := by
    rw [slot_eq ht (span_lt (by omega)), span_eq ht hh]
    split <;> split <;> omega
  rw [arc, arc, hspan, List.range_succ, List.map_append, List.map_singleton, hlast]

/-- The head is not in use. -/
theorem head_not_mem_arc (ht : tail < n) (hh : head < n) : head ∉ arc n tail head := by
  intro h
  obtain ⟨k, hk, he⟩ := List.mem_map.mp h
  have hk := List.mem_range.mp hk
  have hspan : span n tail head < n := span_lt (by omega)
  rw [slot_eq ht (by omega)] at he
  rw [span_eq ht hh] at hk
  split at he <;> split at hk <;> omega

/-- A ring buffer. Only the cells from the tail to the head are in use. -/
structure RingBuffer (α : Type*) where
  cells : ℕ → α
  head : ℕ
  tail : ℕ

namespace RingBuffer

structure InRange (n : ℕ) (r : RingBuffer α) : Prop where
  head_lt : r.head < n
  tail_lt : r.tail < n

/-- What is in the buffer, oldest first. -/
def contents (n : ℕ) (r : RingBuffer α) : List α := (arc n r.tail r.head).map r.cells

/-- Put an element in; a full ring gives up its oldest one. -/
def push (n : ℕ) (r : RingBuffer α) (x : α) : RingBuffer α where
  cells := Function.update r.cells r.head x
  head := next n r.head
  tail := if next n r.head = r.tail then next n r.tail else r.tail

/-- Take the oldest element out. -/
def pop (n : ℕ) (r : RingBuffer α) : Option (α × RingBuffer α) :=
  if r.head = r.tail then none else some (r.cells r.tail, { r with tail := next n r.tail })

variable {r : RingBuffer α}

theorem InRange.push (h : r.InRange n) (x : α) : (r.push n x).InRange n := by
  have hn : 0 < n := Nat.lt_of_le_of_lt (Nat.zero_le _) h.head_lt
  refine ⟨next_lt hn _, ?_⟩
  rw [RingBuffer.push]
  dsimp only
  split
  · exact next_lt hn _
  · exact h.tail_lt

/-- A push appends, and drops the oldest element of a full ring. -/
theorem push_contents (h : r.InRange n) (hn : 1 < n) (x : α) :
    (r.push n x).contents n =
      if next n r.head = r.tail then (r.contents n).tail ++ [x] else r.contents n ++ [x] := by
  have hcells : ∀ l : List ℕ, r.head ∉ l → l.map (Function.update r.cells r.head x) = l.map r.cells := by
    intro l hl
    apply List.map_congr_left
    intro i hi
    rw [Function.update_of_ne]
    rintro rfl
    exact hl hi
  have hfree := head_not_mem_arc h.tail_lt h.head_lt
  have hne : next n r.head ≠ r.head := by
    rw [next_eq h.head_lt]
    split <;> omega
  rw [contents, contents, push]
  dsimp only
  split
  · rename_i hfull
    have htail : r.tail ≠ r.head := hfull ▸ hne
    rw [arc_eq_cons h.tail_lt h.head_lt htail] at hfree ⊢
    have hnext : next n r.head ≠ next n r.tail := by
      rw [hfull, next_eq h.tail_lt]
      have := h.tail_lt
      split <;> omega
    rw [arc_next (next_lt (by omega) _) h.head_lt hnext, List.map_append, hcells _ fun hm =>
      hfree (List.mem_cons_of_mem _ hm), List.map_singleton, Function.update_self]
    rfl
  · rename_i hfull
    rw [arc_next h.tail_lt h.head_lt hfull, List.map_append, hcells _ hfree, List.map_singleton,
      Function.update_self]

/-- A full ring holds one element less than it has slots. -/
theorem length_contents_full (h : r.InRange n) (hfull : next n r.head = r.tail) (hn : 1 < n) :
    (r.contents n).length = n - 1 := by
  rw [contents, List.length_map, length_arc, span_eq h.tail_lt h.head_lt]
  rw [next_eq h.head_lt] at hfull
  have := h.head_lt
  split at hfull <;> split <;> omega

theorem pop_some (h : r.InRange n) {x : α} {r' : RingBuffer α} (hp : r.pop n = some (x, r')) :
    r'.InRange n ∧ r.contents n = x :: r'.contents n := by
  rw [pop] at hp
  split at hp
  · simp at hp
  · rename_i hne
    cases hp
    refine ⟨⟨h.head_lt, next_lt (Nat.lt_of_le_of_lt (Nat.zero_le _) h.head_lt) _⟩, ?_⟩
    rw [contents, arc_eq_cons h.tail_lt h.head_lt (Ne.symm hne)]
    rfl

end RingBuffer

/-- The books of a queue that loses its oldest elements: of what `arrived`, the elements at
`positions` were `taken`, those from `base` on are `pending`, and a position before `base`
that was not taken has at least `limit` newer arrivals. -/
structure Accounts (limit : ℕ) (arrived taken pending : List α) (positions : List ℕ) (base : ℕ) :
    Prop where
  increasing : positions.Pairwise (· < ·)
  below : ∀ i ∈ positions, i < base
  elements : taken.map some = positions.map fun i => arrived[i]?
  order : taken.Sublist (arrived.take base)
  base_le : base ≤ arrived.length
  pending_eq : pending = arrived.drop base
  missing : ∀ i < base, i ∉ positions → i + limit < arrived.length

namespace Accounts

variable {limit base : ℕ} {arrived taken pending : List α} {positions : List ℕ}

theorem nothing : Accounts limit ([] : List α) [] [] [] 0 :=
  ⟨.nil, by simp, rfl, by simp, Nat.le_refl _, rfl, by simp⟩

theorem arrive (h : Accounts limit arrived taken pending positions base) (x : α) :
    Accounts limit (arrived ++ [x]) taken (pending ++ [x]) positions base := by
  refine ⟨h.increasing, h.below, ?_, ?_, ?_, ?_, fun i hi hm => ?_⟩
  · rw [h.elements]
    apply List.map_congr_left
    intro i hi
    rw [List.getElem?_append_left (Nat.lt_of_lt_of_le (h.below i hi) h.base_le)]
  · rw [List.take_append_of_le_length h.base_le]
    exact h.order
  · rw [List.length_append]
    exact Nat.le_add_right_of_le h.base_le
  · rw [h.pending_eq, List.drop_append_of_le_length h.base_le]
  · rw [List.length_append]
    exact Nat.lt_add_right _ (h.missing i hi hm)

private theorem pending_cons {x : α} (h : Accounts limit arrived taken (x :: pending) positions base) :
    arrived[base]? = some x ∧ arrived.drop (base + 1) = pending ∧ base < arrived.length := by
  have hp := h.pending_eq.symm
  have hlt : base < arrived.length := by
    have := congrArg List.length hp
    rw [List.length_drop, List.length_cons] at this
    omega
  rw [List.drop_eq_getElem_cons hlt, List.cons.injEq] at hp
  exact ⟨by rw [List.getElem?_eq_getElem hlt, hp.1], hp.2, hlt⟩

/-- The oldest pending element is taken. -/
theorem take {x : α} (h : Accounts limit arrived taken (x :: pending) positions base) :
    Accounts limit arrived (taken ++ [x]) pending (positions ++ [base]) (base + 1) := by
  obtain ⟨hx, hrest, hlt⟩ := h.pending_cons
  refine ⟨?_, fun i hi => ?_, ?_, ?_, hlt, hrest.symm, fun i hi hm => ?_⟩
  · rw [List.pairwise_append]
    refine ⟨h.increasing, List.pairwise_singleton _ _, fun i hi j hj => ?_⟩
    rw [List.mem_singleton.mp hj]
    exact h.below i hi
  · rcases List.mem_append.mp hi with hi | hi
    · exact Nat.lt_succ_of_lt (h.below i hi)
    · rw [List.mem_singleton.mp hi]
      exact Nat.lt_succ_self _
  · rw [List.map_append, List.map_append, h.elements, List.map_singleton, List.map_singleton, hx]
  · rw [List.take_add_one, hx]
    exact h.order.append_right _
  · rw [List.mem_append, List.mem_singleton, not_or] at hm
    exact h.missing i (by omega) hm.1

/-- The oldest of more than `limit` pending elements is lost. -/
theorem lose {x : α} (h : Accounts limit arrived taken (x :: pending) positions base)
    (hfull : limit ≤ pending.length) : Accounts limit arrived taken pending positions (base + 1) := by
  obtain ⟨-, hrest, hlt⟩ := h.pending_cons
  refine ⟨h.increasing, fun i hi => Nat.lt_succ_of_lt (h.below i hi), h.elements, ?_, hlt, hrest.symm,
    fun i hi hm => ?_⟩
  · exact h.order.trans (List.take_sublist_take_left (Nat.le_succ _))
  · have hlength := congrArg List.length hrest
    rw [List.length_drop] at hlength
    omega

end Accounts

end WhiteRabbit.RingArcs
