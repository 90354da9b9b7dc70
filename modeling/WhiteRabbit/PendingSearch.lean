import Mathlib.Algebra.Order.BigOperators.Group.List
import Mathlib.Algebra.Order.Group.Nat
import Mathlib.Algebra.Ring.Nat
import Mathlib.Data.Fintype.Pigeonhole
import Mathlib.Order.WellFounded
import WhiteRabbit.StepRuns

/-!
# Searches with pending nodes

A search asks for nodes and works on them in any order in which the answers come. Every answer may
ask for children of the node; there is no memory of the nodes seen before. On finitely many nodes
the search ends in every order exactly when no node that it reaches leads back to itself.
-/

namespace WhiteRabbit.PendingSearch
open Relation StepRuns

variable {N S A : Type*} (children : N → List N)

/-- The node at position `i` is answered, and some of its children are asked for. -/
def Step (pending pending' : List N) : Prop :=
  ∃ i node new, pending[i]? = some node ∧ new.Sublist (children node) ∧ pending' = pending.eraseIdx i ++ new

/-- One node asks for another one. -/
def Asks (a b : N) : Prop := b ∈ children a

/-- No node that can be reached leads back to itself. -/
def Acyclic (root : N) : Prop :=
  ∀ node, ReflTransGen (Asks children) root node → ¬ TransGen (Asks children) node node

/-- A machine whose steps answer nodes, and that can ask for all children of an answered node. -/
structure Implements (step : S → A → Option S) (pending : S → List N) (Inv : S → Prop) : Prop where
  sound : ∀ {s a t}, Inv s → step s a = some t → Inv t ∧ Step children (pending s) (pending t)
  complete : ∀ {s i node}, Inv s → (pending s)[i]? = some node →
    ∃ a t, step s a = some t ∧ pending t = (pending s).eraseIdx i ++ children node

variable {children}

section Sizes

/-- How often a search from an accessible node is answered at most. -/
noncomputable def size {node : N} (h : Acc (Function.swap (Asks children)) node) : ℕ :=
  h.rec fun node _ ih => 1 + ((children node).attach.map fun child => ih child.1 child.2).sum

open Classical in
/-- The size of any node. -/
noncomputable def weight (children : N → List N) (node : N) : ℕ :=
  if h : Acc (Function.swap (Asks children)) node then size h else 0

theorem weight_eq {node : N} (h : Acc (Function.swap (Asks children)) node) :
    weight children node = 1 + ((children node).map (weight children)).sum := by
  have hattach : ((children node).map (weight children)).sum =
      ((children node).attach.map fun child => weight children child.1).sum := by
    rw [List.attach_map_val]
  rw [weight, dif_pos h, hattach]
  cases h with
  | intro _ hacc =>
    change 1 + ((children node).attach.map fun child => size (hacc child.1 child.2)).sum = _
    congr 2
    apply List.map_congr_left
    intro child _
    exact (dif_pos (hacc child.1 child.2)).symm

/-- Accessible nodes are pending, and their weights bound what is still to come. -/
theorem step_weight {pending pending' : List N} (hstep : Step children pending pending')
    (hacc : ∀ node ∈ pending, Acc (Function.swap (Asks children)) node) :
    (∀ node ∈ pending', Acc (Function.swap (Asks children)) node) ∧
      (pending'.map (weight children)).sum + 1 ≤ (pending.map (weight children)).sum := by
  obtain ⟨i, node, new, hget, hsub, rfl⟩ := hstep
  obtain ⟨hi, rfl⟩ := List.getElem?_eq_some_iff.mp hget
  have hnode := hacc _ (List.getElem_mem hi)
  constructor
  · intro other hother
    cases List.mem_append.mp hother with
    | inl hold => exact hacc other (List.mem_of_mem_eraseIdx hold)
    | inr hnew => exact hnode.inv (hsub.subset hnew)
  · have hperm := (List.getElem_cons_eraseIdx_perm hi).map (weight children)
    have hsum := hperm.sum_eq
    have hnew : (new.map (weight children)).sum ≤ ((children pending[i]).map (weight children)).sum :=
      (hsub.map _).sum_le_sum fun _ _ => Nat.zero_le _
    have hweight := weight_eq hnode
    rw [List.map_cons, List.sum_cons] at hsum
    rw [List.map_append, List.sum_append]
    omega

end Sizes

section Chains

/-- A chain of questions of a given length. -/
def Chain (children : N → List N) : ℕ → N → Prop
  | 0, _ => True
  | n + 1, node => ∃ child ∈ children node, Chain children n child

/-- Whatever leads to a node that leads back to itself starts chains of all lengths. -/
theorem chain_of_loop {node loop : N} (hloop : TransGen (Asks children) loop loop)
    (h : TransGen (Asks children) node loop) (n : ℕ) : Chain children n node := by
  induction n generalizing node with
  | zero => trivial
  | succ n ih =>
    obtain ⟨child, hchild, hrest⟩ := TransGen.head'_iff.mp h
    refine ⟨child, hchild, ih ?_⟩
    cases ReflTransGen.cases_head hrest with
    | inl heq => exact heq ▸ hloop
    | inr hnext => exact TransGen.head'_iff.mpr hnext

/-- On finitely many nodes, a search without loops is accessible. -/
theorem acc_of_acyclic [Finite N] {root : N} (h : Acyclic children root) :
    Acc (Function.swap (Asks children)) root := by
  by_contra hacc
  obtain ⟨f, hroot, hdescends⟩ := not_acc_iff_exists_descending_chain.mp hacc
  have hasks : ∀ i, Asks children (f i) (f (i + 1)) := hdescends
  have hpath : ∀ i k, ReflTransGen (Asks children) (f i) (f (i + k)) := by
    intro i k
    induction k with
    | zero => exact .refl
    | succ k ih => exact ih.tail (hasks (i + k))
  obtain ⟨i, j, hne, heq⟩ := Finite.exists_ne_map_eq_of_infinite f
  have hloop : ∀ i k, f i = f (i + 1 + k) → TransGen (Asks children) (f i) (f i) := by
    intro i k hback
    have hcycle := TransGen.head' (hasks i) (hpath (i + 1) k)
    rwa [← hback] at hcycle
  have hreach : ∀ i, ReflTransGen (Asks children) root (f i) := by
    intro i
    have hfrom := hpath 0 i
    rwa [hroot, Nat.zero_add] at hfrom
  cases Nat.lt_or_gt_of_ne hne with
  | inl hlt =>
    obtain ⟨k, hk⟩ := Nat.exists_eq_add_of_le hlt
    exact h (f i) (hreach i) (hloop i k (hk ▸ heq))
  | inr hgt =>
    obtain ⟨k, hk⟩ := Nat.exists_eq_add_of_le hgt
    exact h (f j) (hreach j) (hloop j k (hk ▸ heq.symm))

end Chains

namespace Implements

variable {step : S → A → Option S} {pending : S → List N} {Inv : S → Prop}
  (h : Implements children step pending Inv)
include h

/-- The weights of the pending nodes bound the answers to come. -/
theorem run_weight {s t : S} {acts : List A} (hs : Inv s)
    (hacc : ∀ node ∈ pending s, Acc (Function.swap (Asks children)) node) (hrun : run step s acts = some t) :
    (∀ node ∈ pending t, Acc (Function.swap (Asks children)) node) ∧
      acts.length + ((pending t).map (weight children)).sum ≤ ((pending s).map (weight children)).sum := by
  induction acts generalizing s with
  | nil =>
    cases hrun
    exact ⟨hacc, by simp⟩
  | cons a acts ih =>
    rw [run_cons] at hrun
    obtain ⟨u, hu, hrest⟩ := Option.bind_eq_some_iff.mp hrun
    obtain ⟨hinv, hstep⟩ := h.sound hs hu
    obtain ⟨hacc', hle⟩ := step_weight hstep hacc
    obtain ⟨hlast, hweight⟩ := ih hinv hacc' hrest
    refine ⟨hlast, ?_⟩
    rw [List.length_cons]
    omega

/-- From an accessible node only finitely many nodes are asked for. -/
theorem run_bounded {s t : S} {root : N} {acts : List A} (hs : Inv s) (hroot : pending s = [root])
    (hacc : Acc (Function.swap (Asks children)) root) (hrun : run step s acts = some t) :
    acts.length + (pending t).length ≤ weight children root := by
  obtain ⟨hpending, hle⟩ := h.run_weight hs (by simpa [hroot] using hacc) hrun
  have hone : ∀ k ∈ (pending t).map (weight children), 1 ≤ k := by
    intro k hk
    obtain ⟨node, hnode, rfl⟩ := List.mem_map.mp hk
    have hweight := weight_eq (hpending node hnode)
    omega
  have hlength := List.length_le_sum_of_one_le _ hone
  rw [List.length_map] at hlength
  rw [hroot, List.map_cons, List.map_nil, List.sum_singleton] at hle
  omega

/-- Along a chain of questions the search can be answered. -/
theorem run_chain {n : ℕ} {node : N} (hchain : Chain children n node) {s : S} (hs : Inv s)
    (hmem : node ∈ pending s) : ∃ acts t, acts.length = n ∧ run step s acts = some t := by
  induction n generalizing node s with
  | zero => exact ⟨[], s, rfl, rfl⟩
  | succ n ih =>
    obtain ⟨child, hchild, hrest⟩ := hchain
    obtain ⟨i, hi, rfl⟩ := List.mem_iff_getElem.mp hmem
    obtain ⟨a, t, ht, hpending⟩ := h.complete hs (List.getElem?_eq_getElem hi)
    obtain ⟨hinv, -⟩ := h.sound hs ht
    obtain ⟨acts, last, hlength, hrun⟩ := ih hrest hinv (by
      rw [hpending]
      exact List.mem_append_right _ hchild)
    refine ⟨a :: acts, last, congrArg (· + 1) hlength, ?_⟩
    rw [run_cons, ht]
    exact hrun

/-- A search that reaches a loop can be answered as often as one likes. -/
theorem run_of_loop {s : S} {root loop : N} (hs : Inv s) (hroot : pending s = [root])
    (hreach : ReflTransGen (Asks children) root loop) (hloop : TransGen (Asks children) loop loop) (n : ℕ) :
    ∃ acts t, acts.length = n ∧ run step s acts = some t :=
  h.run_chain (chain_of_loop hloop (TransGen.trans_right hreach hloop) n) hs (by simp [hroot])

/-- A search on finitely many nodes ends in every order exactly when it reaches no loop. -/
theorem bounded_iff [Finite N] {s : S} {root : N} (hs : Inv s) (hroot : pending s = [root]) :
    (∃ bound, ∀ acts t, run step s acts = some t → acts.length + (pending t).length ≤ bound) ↔
      Acyclic children root := by
  constructor
  · intro hends node hreach hloop
    obtain ⟨bound, hbound⟩ := hends
    obtain ⟨acts, t, hlength, hrun⟩ := h.run_of_loop hs hroot hreach hloop (bound + 1)
    have hle := hbound acts t hrun
    omega
  · intro hacyclic
    exact ⟨weight children root, fun acts t hrun => h.run_bounded hs hroot (acc_of_acyclic hacyclic) hrun⟩

end Implements

end WhiteRabbit.PendingSearch
