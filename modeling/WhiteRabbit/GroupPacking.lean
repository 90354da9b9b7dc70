import Mathlib.Algebra.Ring.Nat
import Mathlib.Data.List.Basic

/-!
# Packing groups of items into packets

Items come in groups that must not be split over packets. Items are placed one at a time;
when one does not fit, the packet with the groups completed so far is closed and the items
of the group in progress move to the next packet. A group that does not even fit an empty
packet is dropped. Besides its groups a packet remembers which items were placed since the
previous one was closed: items of dropped groups and of the group in progress are among
them.
-/

namespace WhiteRabbit.GroupPacking

variable {α β : Type*}

structure Packet (α : Type*) where
  groups : List (List α)
  visited : List α

/-- The packets closed so far and the one being filled. `peak` is its largest fill. -/
structure Packing (α : Type*) where
  packets : List (Packet α)
  closed : List (List α)
  current : List α
  visited : List α
  peak : ℕ

def Packing.empty : Packing α := ⟨[], [], [], [], 0⟩

def load (size : α → ℕ) (xs : List α) : ℕ := (xs.map size).sum

@[simp] theorem load_nil (size : α → ℕ) : load size [] = 0 := rfl

@[simp] theorem load_append (size : α → ℕ) (xs ys : List α) :
    load size (xs ++ ys) = load size xs + load size ys := by simp [load]

@[simp] theorem load_singleton (size : α → ℕ) (x : α) : load size [x] = size x := by simp [load]

section Pack

variable (size : α → ℕ) (cap : ℕ)

def Packing.fill (s : Packing α) : ℕ := load size s.closed.flatten + load size s.current

def Packing.put (s : Packing α) (x : α) : Packing α :=
  { s with
    current := s.current ++ [x]
    visited := s.visited ++ [x]
    peak := max s.peak (s.fill size + size x) }

def Packing.close (s : Packing α) : Packing α :=
  if s.closed = [] then s
  else { s with packets := s.packets ++ [⟨s.closed, s.visited⟩], closed := [], visited := [] }

/-- Place one item; the result says whether there was room. -/
def place (s : Packing α) (x : α) : Packing α × Bool :=
  if s.fill size + size x ≤ cap then (s.put size x, true)
  else
    let s := s.close
    if s.fill size + size x ≤ cap then (s.put size x, true) else (s, false)

def placeAll : Packing α → List α → Packing α × Bool
  | s, [] => (s, true)
  | s, x :: xs =>
    match place size cap s x with
    | (s, true) => placeAll s xs
    | (s, false) => (s, false)

def placeGroup (s : Packing α) (xs : List α) : Packing α × Bool :=
  match placeAll size cap s xs with
  | (s, true) => ({ s with closed := s.closed ++ [s.current], current := [] }, true)
  | (s, false) => ({ s with current := [] }, false)

/-- Pack all groups; the list says which ones were kept. -/
def packGroups : Packing α → List (List α) → Packing α × List Bool
  | s, [] => (s, [])
  | s, xs :: groups =>
    let (s, kept) := placeGroup size cap s xs
    let (s, rest) := packGroups s groups
    (s, kept :: rest)

def pack (groups : List (List α)) : List (Packet α) :=
  (packGroups size cap Packing.empty groups).1.close.packets

/-- All groups of a packing, in order. -/
def Packing.groups (s : Packing α) : List (List α) := s.packets.flatMap Packet.groups ++ s.closed

@[simp] theorem Packing.close_groups (s : Packing α) : s.close.groups = s.groups := by
  rw [close]
  split
  · rfl
  · simp [groups]

@[simp] theorem Packing.put_groups (s : Packing α) (x : α) : (s.put size x).groups = s.groups := rfl

@[simp] theorem Packing.close_current (s : Packing α) : s.close.current = s.current := by
  rw [close]
  split <;> rfl

@[simp] theorem Packing.close_peak (s : Packing α) : s.close.peak = s.peak := by
  rw [close]
  split <;> rfl

theorem place_groups (s : Packing α) (x : α) : (place size cap s x).1.groups = s.groups ∧
    ((place size cap s x).2 = true → (place size cap s x).1.current = s.current ++ [x]) := by
  rw [place]
  split
  · exact ⟨rfl, fun _ => rfl⟩
  · dsimp only
    split
    · exact ⟨by simp, fun _ => by simp [Packing.put]⟩
    · exact ⟨by simp, fun h => absurd h Bool.false_ne_true⟩

theorem placeAll_groups (s : Packing α) (xs : List α) : (placeAll size cap s xs).1.groups = s.groups ∧
    ((placeAll size cap s xs).2 = true → (placeAll size cap s xs).1.current = s.current ++ xs) := by
  induction xs generalizing s with
  | nil => exact ⟨rfl, fun _ => by simp [placeAll]⟩
  | cons x xs ih =>
    obtain ⟨hg, hc⟩ := place_groups size cap s x
    rw [placeAll]
    split
    · rename_i s' hs
      rw [hs] at hg hc
      obtain ⟨hg', hc'⟩ := ih s'
      exact ⟨hg'.trans hg, fun h => by rw [hc' h, hc rfl]; simp⟩
    · rename_i s' hs
      rw [hs] at hg
      exact ⟨hg, fun h => absurd h Bool.false_ne_true⟩

theorem placeGroup_groups {s : Packing α} (h : s.current = []) (xs : List α) :
    (placeGroup size cap s xs).1.groups =
        s.groups ++ (if (placeGroup size cap s xs).2 then [xs] else []) ∧
      (placeGroup size cap s xs).1.current = [] := by
  obtain ⟨hg, hc⟩ := placeAll_groups size cap s xs
  rw [placeGroup]
  split
  · rename_i s' hs
    rw [hs] at hg hc
    have hxs : s'.current = xs := by rw [hc rfl, h, List.nil_append]
    refine ⟨?_, rfl⟩
    rw [← hg, ← hxs]
    simp [Packing.groups]
  · rename_i s' hs
    rw [hs] at hg
    refine ⟨?_, rfl⟩
    rw [← hg]
    simp [Packing.groups]

/-- The groups that the flags select. -/
def select : List (List α) → List Bool → List (List α)
  | g :: gs, kept :: rest => (if kept then [g] else []) ++ select gs rest
  | _, _ => []

/-- Selecting keeps related lists related. -/
theorem forall₂_select {R : List α → List β → Prop} {xs : List (List α)} {ys : List (List β)}
    (h : List.Forall₂ R xs ys) (kept : List Bool) : List.Forall₂ R (select xs kept) (select ys kept) := by
  induction h generalizing kept with
  | nil => cases kept <;> exact .nil
  | cons hr _ ih =>
    cases kept with
    | nil => exact .nil
    | cons k kept =>
      cases k with
      | true => exact .cons hr (ih kept)
      | false => exact ih kept

theorem select_map (f : List α → Bool) (gs : List (List α)) : select gs (gs.map f) = gs.filter f := by
  induction gs with
  | nil => rfl
  | cons g gs ih =>
    rw [List.map_cons, select, ih, List.filter_cons]
    cases f g <;> rfl

/-- The kept groups are packed in order. -/
theorem packGroups_groups {s : Packing α} (h : s.current = []) (gs : List (List α)) :
    (packGroups size cap s gs).1.groups = s.groups ++ select gs (packGroups size cap s gs).2 ∧
      (packGroups size cap s gs).1.current = [] := by
  induction gs generalizing s with
  | nil => exact ⟨by simp [packGroups, select], h⟩
  | cons g gs ih =>
    obtain ⟨hg, hc⟩ := placeGroup_groups size cap h g
    obtain ⟨hg', hc'⟩ := ih hc
    exact ⟨by simp only [packGroups, select, hg', hg, List.append_assoc], hc'⟩

theorem pack_groups (gs : List (List α)) : (pack size cap gs).flatMap Packet.groups =
    select gs (packGroups size cap Packing.empty gs).2 := by
  obtain ⟨hg, -⟩ := packGroups_groups size cap (s := Packing.empty) rfl gs
  have hclosed : (packGroups size cap Packing.empty gs).1.close.closed = [] := by
    rw [Packing.close]
    split
    · assumption
    · rfl
  have hclose := Packing.close_groups (packGroups size cap Packing.empty gs).1
  rw [Packing.groups, hclosed, List.append_nil, hg] at hclose
  simpa [pack, Packing.groups, Packing.empty] using hclose

variable {size}

/-- No fill exceeds the peak. -/
def Packing.Peaked (size : α → ℕ) (s : Packing α) : Prop :=
  s.fill size ≤ s.peak ∧ ∀ q ∈ s.packets, load size q.groups.flatten ≤ s.peak

theorem Packing.peaked_empty : (Packing.empty : Packing α).Peaked size := by
  simp [Peaked, empty, fill]

theorem Packing.Peaked.close {s : Packing α} (h : s.Peaked size) : s.close.Peaked size := by
  obtain ⟨hfill, hall⟩ := h
  rw [Packing.close]
  split
  · exact ⟨hfill, hall⟩
  · simp only [fill] at hfill
    refine ⟨by simp only [fill, List.flatten_nil, load_nil]; omega, ?_⟩
    intro q hq
    rcases List.mem_append.mp hq with hq | hq
    · exact hall q hq
    · rw [List.mem_singleton.mp hq]
      dsimp only
      omega

theorem Packing.Peaked.put {s : Packing α} (h : s.Peaked size) (x : α) : (s.put size x).Peaked size := by
  obtain ⟨-, hall⟩ := h
  refine ⟨?_, fun q hq => Nat.le_trans (hall q hq) (Nat.le_max_left _ _)⟩
  simp only [fill, Packing.put, load_append, load_singleton]
  omega

section Keeps

variable {cap : ℕ} {I : Packing α → Prop}
  (hput : ∀ s x, I s → s.fill size + size x ≤ cap → I (s.put size x)) (hclose : ∀ s, I s → I s.close)
include hput hclose

theorem place_keeps {s : Packing α} (h : I s) (x : α) : I (place size cap s x).1 := by
  rw [place]
  split
  · exact hput s x h ‹_›
  · dsimp only
    split
    · exact hput _ x (hclose s h) ‹_›
    · exact hclose s h

theorem placeAll_keeps {s : Packing α} (h : I s) (xs : List α) : I (placeAll size cap s xs).1 := by
  induction xs generalizing s with
  | nil => exact h
  | cons x xs ih =>
    have hx := place_keeps hput hclose h x
    rw [placeAll]
    split
    · rename_i s' hs
      rw [hs] at hx
      exact ih hx
    · rename_i s' hs
      rw [hs] at hx
      exact hx

/-- What putting an item, closing a packet and ending a group keep, packing keeps. -/
theorem packGroups_keeps (hend : ∀ s, I s → I { s with closed := s.closed ++ [s.current], current := [] })
    (hdrop : ∀ s, I s → I { s with current := [] }) {s : Packing α} (h : I s) (gs : List (List α)) :
    I (packGroups size cap s gs).1 := by
  induction gs generalizing s with
  | nil => exact h
  | cons g gs ih =>
    have hg := placeAll_keeps hput hclose h g
    have hgroup : I (placeGroup size cap s g).1 := by
      rw [placeGroup]
      split
      · rename_i s' hs
        rw [hs] at hg
        exact hend s' hg
      · rename_i s' hs
        rw [hs] at hg
        exact hdrop s' hg
    exact ih hgroup

end Keeps

/-- The peak bounds every packet, and the capacity bounds the peak. -/
theorem packGroups_peaked {s : Packing α} (h : s.Peaked size) (gs : List (List α)) :
    (packGroups size cap s gs).1.Peaked size ∧
      (s.peak ≤ cap → (packGroups size cap s gs).1.peak ≤ cap) := by
  constructor
  · apply packGroups_keeps (I := Packing.Peaked size) ?_ ?_ ?_ ?_ h
    · exact fun s x hs _ => hs.put x
    · exact fun s hs => hs.close
    · exact fun s hs => ⟨by simpa [Packing.fill] using hs.1, hs.2⟩
    · intro s hs
      refine ⟨Nat.le_trans ?_ hs.1, hs.2⟩
      rw [Packing.fill, Packing.fill, load_nil, Nat.add_zero]
      exact Nat.le_add_right _ _
  · intro hpeak
    apply packGroups_keeps (I := fun s => s.peak ≤ cap) ?_ ?_ ?_ ?_ hpeak
    · exact fun s x hs hx => Nat.max_le.mpr ⟨hs, hx⟩
    · exact fun s hs => Nat.le_trans (Nat.le_of_eq s.close_peak) hs
    · exact fun s hs => hs
    · exact fun s hs => hs

/-- No packet is empty. -/
theorem groups_ne_nil (gs : List (List α)) : ∀ q ∈ pack size cap gs, q.groups ≠ [] := by
  have hclose : ∀ s : Packing α, (∀ q ∈ s.packets, q.groups ≠ []) → ∀ q ∈ s.close.packets, q.groups ≠ [] := by
    intro s hs q hq
    rw [Packing.close] at hq
    split at hq
    · exact hs q hq
    · cases List.mem_append.mp hq with
      | inl hq => exact hs q hq
      | inr hq =>
        rw [List.mem_singleton.mp hq]
        assumption
  apply hclose
  apply packGroups_keeps (I := fun s => ∀ q ∈ s.packets, q.groups ≠ []) ?_ hclose ?_ ?_ (by simp [Packing.empty])
  · exact fun s x hs _ => hs
  · exact fun s hs => hs
  · exact fun s hs => hs

@[simp] theorem Packing.close_fill (s : Packing α) : s.close.fill size = load size s.current := by
  rw [close]
  split
  · rename_i h
    rw [fill, h, List.flatten_nil, load_nil, Nat.zero_add]
  · rw [fill, List.flatten_nil, load_nil, Nat.zero_add]

variable (size)

/-- There is room for an item when it fits behind the items of its own group. -/
theorem place_kept (s : Packing α) (x : α) :
    (place size cap s x).2 = true ↔ load size s.current + size x ≤ cap := by
  rw [place]
  dsimp only
  split
  · rename_i h
    refine iff_of_true rfl (Nat.le_trans (Nat.add_le_add_right ?_ _) h)
    exact Nat.le_add_left _ _
  · split
    · rename_i h
      rw [Packing.close_fill] at h
      exact iff_of_true rfl h
    · rename_i h
      rw [Packing.close_fill] at h
      exact iff_of_false Bool.false_ne_true h

theorem placeAll_kept {s : Packing α} (h : load size s.current ≤ cap) (xs : List α) :
    (placeAll size cap s xs).2 = true ↔ load size s.current + load size xs ≤ cap := by
  induction xs generalizing s with
  | nil => exact iff_of_true rfl h
  | cons x xs ih =>
    have hkept := place_kept size cap s x
    have hcurrent := (place_groups size cap s x).2
    have hcons : load size (x :: xs) = size x + load size xs := List.sum_cons
    rw [placeAll, hcons, ← Nat.add_assoc]
    split
    · rename_i s' hs
      rw [hs] at hkept hcurrent
      have hload : load size s'.current = load size s.current + size x := by
        rw [hcurrent rfl, load_append, load_singleton]
      rw [← hload]
      apply ih
      rw [hload]
      exact hkept.mp rfl
    · rename_i s' hs
      rw [hs] at hkept
      refine iff_of_false Bool.false_ne_true fun hle => Bool.false_ne_true (hkept.mpr ?_)
      exact Nat.le_trans (Nat.le_add_right _ _) hle

/-- A group is kept when it fits an empty packet. -/
theorem placeGroup_kept {s : Packing α} (h : s.current = []) (xs : List α) :
    (placeGroup size cap s xs).2 = decide (load size xs ≤ cap) := by
  have hkept := placeAll_kept size cap (s := s) (by rw [h]; exact Nat.zero_le _) xs
  rw [h, load_nil, Nat.zero_add] at hkept
  rw [placeGroup]
  split
  · rename_i s' hs
    rw [hs] at hkept
    exact (decide_eq_true (hkept.mp rfl)).symm
  · rename_i s' hs
    rw [hs] at hkept
    exact (decide_eq_false fun hle => Bool.false_ne_true (hkept.mpr hle)).symm

theorem packGroups_kept {s : Packing α} (h : s.current = []) (gs : List (List α)) :
    (packGroups size cap s gs).2 = gs.map fun g => decide (load size g ≤ cap) := by
  induction gs generalizing s with
  | nil => rfl
  | cons g gs ih =>
    rw [packGroups, List.map_cons, ← ih (placeGroup_groups size cap h g).2, ← placeGroup_kept size cap h]

variable {size}

end Pack

section Map

variable {size : α → ℕ} {size' : β → ℕ} {cap : ℕ} (f : α → β)

def Packet.map (q : Packet α) : Packet β := ⟨q.groups.map (List.map f), q.visited.map f⟩

def Packing.map (s : Packing α) : Packing β :=
  ⟨s.packets.map (Packet.map f), s.closed.map (List.map f), s.current.map f, s.visited.map f, s.peak⟩

variable (hf : ∀ x, size' (f x) = size x)
include hf

theorem load_map (xs : List α) : load size' (xs.map f) = load size xs := by
  simp [load, Function.comp_def, hf]

theorem Packing.fill_map (s : Packing α) : (s.map f).fill size' = s.fill size := by
  simp only [fill, map, ← List.map_flatten, load_map f hf]

theorem Packing.put_map (s : Packing α) (x : α) : (s.map f).put size' (f x) = (s.put size x).map f := by
  simp only [put, fill_map f hf, hf]
  simp [map]

omit hf in
theorem Packing.close_map (s : Packing α) : (s.map f).close = s.close.map f := by
  by_cases h : s.closed = []
  · simp [close, map, h]
  · simp [close, map, h, Packet.map]

theorem place_map (s : Packing α) (x : α) : place size' cap (s.map f) (f x) =
    ((place size cap s x).1.map f, (place size cap s x).2) := by
  simp only [place, Packing.close_map, Packing.fill_map f hf, hf, Packing.put_map f hf]
  split
  · rfl
  · split <;> rfl

theorem placeAll_map (s : Packing α) (xs : List α) : placeAll size' cap (s.map f) (xs.map f) =
    ((placeAll size cap s xs).1.map f, (placeAll size cap s xs).2) := by
  induction xs generalizing s with
  | nil => rfl
  | cons x xs ih =>
    rw [List.map_cons, placeAll, placeAll, place_map f hf]
    rcases place size cap s x with ⟨s', kept⟩
    cases kept with
    | true => exact ih s'
    | false => rfl

theorem placeGroup_map (s : Packing α) (xs : List α) : placeGroup size' cap (s.map f) (xs.map f) =
    ((placeGroup size cap s xs).1.map f, (placeGroup size cap s xs).2) := by
  rw [placeGroup, placeGroup, placeAll_map f hf]
  rcases placeAll size cap s xs with ⟨s', kept⟩
  cases kept <;> simp [Packing.map]

/-- Only the sizes of the items matter. -/
theorem packGroups_map (s : Packing α) (gs : List (List α)) :
    packGroups size' cap (s.map f) (gs.map (List.map f)) =
      ((packGroups size cap s gs).1.map f, (packGroups size cap s gs).2) := by
  induction gs generalizing s with
  | nil => rfl
  | cons g gs ih => simp only [List.map_cons, packGroups, placeGroup_map f hf, ih]

end Map

end WhiteRabbit.GroupPacking
