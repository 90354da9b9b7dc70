import Mathlib.Data.List.Nodup
import Mathlib.Logic.Function.Basic

/-!
# Singly linked cells

A heap maps addresses to cells with a value and the address of a next cell. A chain is the
list of cells that one reaches from an address. Loops along a chain get fuel; the length of
the chain is enough. Cells off the chain are not touched.
-/

namespace WhiteRabbit.LinkedCells

variable {α : Type*}

structure Cell (α : Type*) where
  value : α
  next : Option ℕ

/-- The cells of all addresses. -/
abbrev Heap (α : Type*) : Type _ := ℕ → Cell α

namespace Heap

def setNext (h : Heap α) (i : ℕ) (next : Option ℕ) : Heap α :=
  Function.update h i { h i with next := next }

def setValue (h : Heap α) (i : ℕ) (value : α) : Heap α :=
  Function.update h i { h i with value := value }

@[simp] theorem setNext_self (h : Heap α) (i : ℕ) (n : Option ℕ) :
    h.setNext i n i = ⟨(h i).value, n⟩ := Function.update_self ..

theorem setNext_of_ne (h : Heap α) {i j : ℕ} (n : Option ℕ) (hij : j ≠ i) : h.setNext i n j = h j :=
  Function.update_of_ne hij ..

@[simp] theorem setValue_self (h : Heap α) (i : ℕ) (v : α) :
    h.setValue i v i = ⟨v, (h i).next⟩ := Function.update_self ..

theorem setValue_of_ne (h : Heap α) {i j : ℕ} (v : α) (hij : j ≠ i) : h.setValue i v j = h j :=
  Function.update_of_ne hij ..

@[simp] theorem setNext_value (h : Heap α) (i j : ℕ) (n : Option ℕ) :
    (h.setNext i n j).value = (h j).value := by
  by_cases hij : j = i
  · simp [hij]
  · rw [setNext_of_ne h n hij]

@[simp] theorem setValue_next (h : Heap α) (i j : ℕ) (v : α) :
    (h.setValue i v j).next = (h j).next := by
  by_cases hij : j = i
  · simp [hij]
  · rw [setValue_of_ne h v hij]

end Heap

/-- The cells reached from an address. -/
inductive Chain (h : Heap α) : Option ℕ → List ℕ → Prop
  | nil : Chain h none []
  | cons {i : ℕ} {l : List ℕ} : Chain h (h i).next l → Chain h (some i) (i :: l)

namespace Chain

variable {h h' : Heap α} {p : Option ℕ} {l : List ℕ}

/-- Only the next fields along a chain matter. -/
theorem congr (hc : Chain h p l) (hnext : ∀ i ∈ l, (h' i).next = (h i).next) : Chain h' p l := by
  induction hc with
  | nil => exact .nil
  | @cons i l _ ih =>
    obtain ⟨hi, hl⟩ := List.forall_mem_cons.mp hnext
    have htail := ih hl
    rw [← hi] at htail
    exact .cons htail

theorem setNext (hc : Chain h p l) {i : ℕ} (hi : i ∉ l) (n : Option ℕ) : Chain (h.setNext i n) p l :=
  hc.congr fun j hj => by
    have hji : j ≠ i := fun hji => hi (hji ▸ hj)
    rw [h.setNext_of_ne n hji]

theorem setValue (hc : Chain h p l) (i : ℕ) (v : α) : Chain (h.setValue i v) p l :=
  hc.congr fun _ _ => h.setValue_next ..

theorem eq_nil (hc : Chain h none l) : l = [] := by
  cases hc
  rfl

/-- Link a cell in front of a chain. -/
theorem push (hc : Chain h p l) {i : ℕ} (hi : i ∉ l) : Chain (h.setNext i p) (some i) (i :: l) := by
  refine .cons ?_
  rw [h.setNext_self]
  exact hc.setNext hi p

theorem start_eq (hc : Chain h p l) : p = l.head? := by
  cases hc <;> rfl

/-- Behind a cell its chain goes on. -/
theorem after {pre post : List ℕ} {i : ℕ} (hc : Chain h p (pre ++ i :: post)) :
    Chain h (h i).next post := by
  induction pre generalizing p with
  | nil =>
    cases hc with
    | cons hc => exact hc
  | cons j pre ih =>
    cases hc with
    | cons hc => exact ih hc

/-- Let a chain go on elsewhere behind one of its cells. -/
theorem splice {pre post m : List ℕ} {i : ℕ} {q : Option ℕ} (hc : Chain h p (pre ++ i :: post))
    (hq : Chain h q m) (hpre : i ∉ pre) (hm : i ∉ m) : Chain (h.setNext i q) p (pre ++ i :: m) := by
  induction pre generalizing p with
  | nil =>
    cases hc with
    | cons _ => exact hq.push hm
  | cons j pre ih =>
    obtain ⟨hij, hpre'⟩ := not_or.mp (fun hmem => hpre (List.mem_cons.mpr hmem))
    cases hc with
    | cons hc =>
      have htail := ih hc hpre'
      rw [← h.setNext_of_ne q (Ne.symm hij)] at htail
      exact .cons htail

end Chain

/-- Reverse a chain onto another one, cell by cell. -/
def flip : ℕ → Heap α → Option ℕ → Option ℕ → Option (Heap α × Option ℕ)
  | _, h, none, prev => some (h, prev)
  | 0, _, some _, _ => none
  | fuel + 1, h, some i, prev => flip fuel (h.setNext i prev) (h i).next (some i)

theorem flip_spec {fuel : ℕ} {h : Heap α} {cur prev : Option ℕ} {l m : List ℕ} (hl : Chain h cur l)
    (hm : Chain h prev m) (hnd : (l ++ m).Nodup) (hfuel : l.length ≤ fuel) :
    ∃ h' p, flip fuel h cur prev = some (h', p) ∧ Chain h' p (l.reverse ++ m) ∧
      (∀ i, i ∉ l → h' i = h i) ∧ ∀ i, (h' i).value = (h i).value := by
  induction l generalizing fuel h cur prev m with
  | nil =>
    cases hl
    exact ⟨h, prev, by cases fuel <;> rfl, hm, fun _ _ => rfl, fun _ => rfl⟩
  | cons i l ih =>
    cases hl with
    | cons hl =>
      cases fuel with
      | zero => simp at hfuel
      | succ fuel =>
        rw [List.cons_append, List.nodup_cons, List.mem_append, not_or] at hnd
        obtain ⟨⟨hil, him⟩, hnd⟩ := hnd
        have hnd' : (l ++ i :: m).Nodup := by
          rw [List.nodup_middle, List.nodup_cons, List.mem_append, not_or]
          exact ⟨⟨hil, him⟩, hnd⟩
        obtain ⟨h', p, hflip, hchain, hoff, hvalue⟩ :=
          ih (hl.setNext hil prev) (hm.push him) hnd' (Nat.le_of_succ_le_succ hfuel)
        refine ⟨h', p, hflip, by simpa using hchain, ?_, fun j => by simp [hvalue]⟩
        intro j hj
        obtain ⟨hji, hjl⟩ := not_or.mp (fun hmem => hj (List.mem_cons.mpr hmem))
        rw [hoff j hjl, h.setNext_of_ne prev hji]

/-- Deal the cells of a chain out onto two others. -/
def deal (bad : α → Bool) : ℕ → Heap α → Option ℕ → Option ℕ → Option ℕ →
    Option (Heap α × Option ℕ × Option ℕ)
  | _, h, none, good, bads => some (h, good, bads)
  | 0, _, some _, _, _ => none
  | fuel + 1, h, some i, good, bads =>
    if bad (h i).value then deal bad fuel (h.setNext i bads) (h i).next good (some i)
    else deal bad fuel (h.setNext i good) (h i).next (some i) bads

theorem deal_spec (bad : α → Bool) {fuel : ℕ} {h : Heap α} {cur good bads : Option ℕ}
    {l m n : List ℕ} (hl : Chain h cur l) (hm : Chain h good m) (hn : Chain h bads n)
    (hnd : (l ++ (m ++ n)).Nodup) (hfuel : l.length ≤ fuel) :
    ∃ h' p q, deal bad fuel h cur good bads = some (h', p, q) ∧
      Chain h' p ((l.filter fun i => !bad (h i).value).reverse ++ m) ∧
      Chain h' q ((l.filter fun i => bad (h i).value).reverse ++ n) ∧
      (∀ i, i ∉ l → h' i = h i) ∧ ∀ i, (h' i).value = (h i).value := by
  induction l generalizing fuel h cur good bads m n with
  | nil =>
    cases hl
    exact ⟨h, good, bads, by cases fuel <;> rfl, hm, hn, fun _ _ => rfl, fun _ => rfl⟩
  | cons i l ih =>
    cases hl with
    | cons hl =>
      cases fuel with
      | zero => simp at hfuel
      | succ fuel =>
        rw [List.cons_append, List.nodup_cons] at hnd
        simp only [List.mem_append, not_or] at hnd
        obtain ⟨⟨hil, him, hin⟩, hnd⟩ := hnd
        have hoff' : ∀ {g : Heap α} {next : Option ℕ}, (∀ j, j ∉ l → g j = h.setNext i next j) →
            ∀ j, j ∉ i :: l → g j = h j := by
          intro g next hg j hj
          obtain ⟨hji, hjl⟩ := not_or.mp (fun hmem => hj (List.mem_cons.mpr hmem))
          rw [hg j hjl, h.setNext_of_ne next hji]
        rw [deal]
        by_cases hb : bad (h i).value = true
        · have hnd' : (l ++ (m ++ i :: n)).Nodup := by
            rw [← List.append_assoc, List.nodup_middle, List.nodup_cons]
            simp only [List.mem_append, not_or]
            exact ⟨⟨⟨hil, him⟩, hin⟩, by simpa using hnd⟩
          obtain ⟨h', p, q, hdeal, hp, hq, hoff, hvalue⟩ :=
            ih (hl.setNext hil bads) (hm.setNext him bads) (hn.push hin) hnd'
              (Nat.le_of_succ_le_succ hfuel)
          refine ⟨h', p, q, by rw [if_pos hb]; exact hdeal, ?_, ?_, hoff' hoff,
            fun j => by simp [hvalue]⟩
          · simpa [hb] using hp
          · simpa [hb] using hq
        · have hnd' : (l ++ (i :: m ++ n)).Nodup := by
            rw [List.cons_append, List.nodup_middle, List.nodup_cons]
            simp only [List.mem_append, not_or]
            exact ⟨⟨hil, him, hin⟩, hnd⟩
          obtain ⟨h', p, q, hdeal, hp, hq, hoff, hvalue⟩ :=
            ih (hl.setNext hil good) (hm.push him) (hn.setNext hin good) hnd'
              (Nat.le_of_succ_le_succ hfuel)
          refine ⟨h', p, q, by rw [if_neg hb]; exact hdeal, ?_, ?_, hoff' hoff,
            fun j => by simp [hvalue]⟩
          · simpa [hb] using hp
          · simpa [hb] using hq

end WhiteRabbit.LinkedCells
