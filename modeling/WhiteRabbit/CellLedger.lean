import Mathlib.Data.List.Basic
import Mathlib.Data.List.Nodup

/-!
# Ledgers of cells

An allocator hands out cells that are not in use and takes them back. Cells are used again, so a
cell is returned exactly once for each time it was allocated when the two alternate in the history.
-/

namespace WhiteRabbit.CellLedger

/-- What the allocator saw. A return is noted with whatever still links to the cell. -/
inductive CellEvent (α L : Type*) where
  | allocated (cell : α)
  | returned (cell : α) (links : L)
  deriving DecidableEq

structure Ledger (α L : Type*) where
  live : List α := []
  history : List (CellEvent α L) := []

variable {α L : Type*} [DecidableEq α]

def allocations (history : List (CellEvent α L)) (cell : α) : ℕ :=
  history.countP fun e => match e with | .allocated other => other == cell | _ => false

def returns (history : List (CellEvent α L)) (cell : α) : ℕ :=
  history.countP fun e => match e with | .returned other _ => other == cell | _ => false

/-- In every part of the history that starts at its beginning, a cell was returned as often as it
was allocated, or once less. -/
def Alternates (history : List (CellEvent α L)) : Prop :=
  ∀ past, past <+: history → ∀ cell,
    returns past cell ≤ allocations past cell ∧ allocations past cell ≤ returns past cell + 1

namespace Ledger

def allocate (p : Ledger α L) (cell : α) : Ledger α L :=
  { live := cell :: p.live, history := p.history ++ [.allocated cell] }

def release (p : Ledger α L) (cell : α) (links : L) : Ledger α L :=
  { live := p.live.erase cell, history := p.history ++ [.returned cell links] }

/-- The cells in use are the given ones, each once. -/
structure Holds (p : Ledger α L) (cells : List α) : Prop where
  perm : p.live.Perm cells
  nodup : cells.Nodup
  balance : ∀ cell, allocations p.history cell = returns p.history cell + p.live.count cell
  alternates : Alternates p.history

variable {p : Ledger α L} {cells others : List α} {cell : α} {links : L}

theorem holds_empty : Holds ({} : Ledger α L) [] where
  perm := List.Perm.nil
  nodup := List.nodup_nil
  balance _ := rfl
  alternates past hpast cell := by simp [List.prefix_nil.mp hpast, returns, allocations]

theorem Holds.of_perm (h : p.Holds cells) (hperm : cells.Perm others) : p.Holds others where
  perm := h.perm.trans hperm
  nodup := hperm.nodup_iff.mp h.nodup
  balance := h.balance
  alternates := h.alternates

theorem Holds.notMem (h : p.Holds (cell :: cells)) : cell ∉ cells := (List.nodup_cons.mp h.nodup).1

theorem Holds.mem_live (h : p.Holds cells) : cell ∈ p.live ↔ cell ∈ cells := h.perm.mem_iff

/-- An event is added that keeps the balance of every cell. -/
theorem holds_concat {live : List α} {history : List (CellEvent α L)} {e : CellEvent α L} (hperm : live.Perm cells)
    (hnodup : cells.Nodup)
    (hbalance : ∀ cell, allocations (history ++ [e]) cell = returns (history ++ [e]) cell + live.count cell)
    (halternates : Alternates history) : Ledger.Holds ⟨live, history ++ [e]⟩ cells := by
  refine ⟨hperm, hnodup, hbalance, fun past hpast cell => ?_⟩
  cases List.prefix_concat_iff.mp hpast with
  | inl hall =>
    have hcell := hbalance cell
    have hcount : live.count cell ≤ 1 := by
      rw [hperm.count_eq]
      exact List.nodup_iff_count_le_one.mp hnodup cell
    subst hall
    omega
  | inr hpast => exact halternates past hpast cell

theorem Holds.allocate (h : p.Holds cells) (hcell : cell ∉ p.live) : (p.allocate cell).Holds (cell :: cells) := by
  have hnew : cell ∉ cells := fun hmem => hcell (h.mem_live.mpr hmem)
  apply holds_concat (h.perm.cons cell) (List.nodup_cons.mpr ⟨hnew, h.nodup⟩) _ h.alternates
  intro other
  have hother := h.balance other
  simp only [allocations, returns] at hother
  simp [allocations, returns, List.count_cons, hother]
  omega

theorem Holds.release (h : p.Holds (cell :: cells)) (links : L) : (p.release cell links).Holds cells := by
  have hperm : (p.live.erase cell).Perm cells := by
    have herase := h.perm.erase cell
    rwa [List.erase_cons_head] at herase
  apply holds_concat hperm (List.nodup_cons.mp h.nodup).2 _ h.alternates
  intro other
  have hother := h.balance other
  rw [h.perm.count_eq, List.count_cons] at hother
  rw [hperm.count_eq]
  simp only [allocations, returns] at hother
  simp [allocations, returns, hother]
  omega

/-- What is not held was returned as often as it was allocated. -/
theorem Holds.returned (h : p.Holds cells) (hcell : cell ∉ cells) :
    returns p.history cell = allocations p.history cell := by
  have hbalance := h.balance cell
  rw [h.perm.count_eq, List.count_eq_zero_of_not_mem hcell] at hbalance
  omega

end Ledger

section Lists

variable {β : Type*} {q : β → Bool} {l : List β} {b : β}

/-- What is found is taken out. -/
theorem perm_cons_eraseP (h : l.find? q = some b) : l.Perm (b :: l.eraseP q) := by
  obtain ⟨hq, as, bs, rfl, has⟩ := List.find?_eq_some_iff_append.mp h
  have hnone : ∀ a ∈ as, ¬ q a = true := fun a ha => by simpa using has a ha
  rw [List.eraseP_append_right _ hnone, List.eraseP_cons_of_pos hq]
  exact List.perm_middle

end Lists

end WhiteRabbit.CellLedger
