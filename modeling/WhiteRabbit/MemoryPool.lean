import Mathlib.Algebra.Ring.Nat
import Mathlib.Algebra.Ring.Int.Defs
import Mathlib.Data.List.Perm.Subperm
import WhiteRabbit.LinkedCells
import WhiteRabbit.StepRuns

/-!
# The pool of cells

All objects of the library are cells of one array, and handles are 16-bit indices. The cells that
are not in use are linked through their own memory. The array grows by doubling, or it has a fixed
size and is linked when the first cell is taken.
-/

namespace WhiteRabbit.Etherbone
open LinkedCells StepRuns

/-- `EB_NULL`, which is `EB_END_OF_FREE` too. -/
def ebNull : ℕ := 0xFFFF

/-- The cell that a link names. -/
def indexOf (link : ℕ) : Option ℕ := if link = ebNull then none else some link

/-- An array that `realloc` extends, or `EB_USE_STATIC` cells. -/
inductive MemoryArray where
  | dynamic
  | static (size : ℕ)

/-- `next` is what the memory of a cell holds where a free cell has its link. -/
structure MemoryPool where
  next : ℕ → ℕ := fun _ => 0
  arraySize : ℕ
  free : ℕ := ebNull
  used : ℕ := 0
  setup : Bool := false

/-- `write` is user code that stores into a cell it owns. -/
inductive MemoryAct where
  | alloc (realloc : Bool)
  | free (item : ℕ)
  | write (item link : ℕ)

/-- The size of a static array is a nonzero 16-bit constant. -/
def MemoryArray.Fits : MemoryArray → Prop
  | .dynamic => True
  | .static size => 0 < size ∧ size < 2 ^ 16

/-- Link together the cells from `first` on, up to `last`. -/
def linkCells (next : ℕ → ℕ) (first last : ℕ) : ℕ → ℕ := fun i =>
  if i + 1 = last then ebNull else if first ≤ i ∧ i < last then (i + 1) % 2 ^ 16 else next i

namespace MemoryPool

def start : MemoryArray → MemoryPool
  | .dynamic => { arraySize := 128 }
  | .static size => { arraySize := size }

def ebExpandArray (m : MemoryPool) (array : MemoryArray) (realloc : Bool) : Option MemoryPool :=
  match array with
  | .dynamic =>
    -- the maximum of 64k entries
    if m.arraySize = 65536 then none
    else if realloc = false then none
    else
      let nextSize := m.arraySize + m.arraySize
      some { m with
        next := linkCells m.next m.arraySize nextSize
        free := m.arraySize % 2 ^ 16
        arraySize := nextSize }
  | .static _ =>
    if m.setup then none
    else
      some { m with
        setup := true
        next := linkCells m.next 0 m.arraySize
        free := 0 }

/-- Take the first cell off the free list. -/
def pop (m : MemoryPool) : MemoryPool :=
  { m with free := m.next m.free, used := (m.used + 1) % 2 ^ 16 }

def ebNewMemoryItem (m : MemoryPool) (array : MemoryArray) (realloc : Bool) : MemoryPool × ℕ :=
  match if m.free = ebNull then m.ebExpandArray array realloc else some m with
  | none => (m, ebNull)
  | some m => (m.pop, m.free)

def ebFreeMemoryItem (m : MemoryPool) (item : ℕ) : MemoryPool :=
  { m with
    next := Function.update m.next item m.free
    free := item
    used := (m.used + (2 ^ 16 - 1)) % 2 ^ 16 }

/-- The links of the cells. -/
def links (m : MemoryPool) : Heap Unit := fun i => ⟨(), indexOf (m.next i)⟩

/-- The cells that have been linked. The first expansion of a dynamic array starts behind the initial size. -/
def linked (array : MemoryArray) (m : MemoryPool) : List ℕ :=
  match array with
  | .dynamic => List.range' 128 (m.arraySize - 128)
  | .static size => if m.setup then List.range' 0 size else []

/-- Whether the array can be extended. -/
def CanGrow (array : MemoryArray) (m : MemoryPool) (realloc : Bool) : Prop :=
  match array with
  | .dynamic => m.arraySize < 65536 ∧ realloc = true
  | .static _ => m.setup = false

/-- The sizes that the array goes through. -/
def Sized (array : MemoryArray) (m : MemoryPool) : Prop :=
  match array with
  | .dynamic => ∃ k ≤ 9, m.arraySize = 128 * 2 ^ k
  | .static size => m.arraySize = size

/-- What a row of allocations returns. -/
def allocations (array : MemoryArray) : MemoryPool → List Bool → List ℕ
  | _, [] => []
  | m, realloc :: reallocs =>
    (m.ebNewMemoryItem array realloc).2 :: allocations array (m.ebNewMemoryItem array realloc).1 reallocs

/-- The free list `l` and the cells in use are all cells linked so far but the one with the index of null. -/
structure Partitioned (array : MemoryArray) (m : MemoryPool) (l live : List ℕ) : Prop where
  chain : Chain m.links (indexOf m.free) l
  perm : (l ++ live).Perm ((m.linked array).filter (· != ebNull))
  sized : m.Sized array
  used : m.used = live.length

end MemoryPool

/-- The pool and the cells that its users have: those that allocations returned and that were not given back. -/
structure UsedPool extends MemoryPool where
  live : List ℕ := []

namespace UsedPool

def start (array : MemoryArray) : UsedPool where
  toMemoryPool := MemoryPool.start array

/-- Users have a cell from the allocation that returned it until it is given back. -/
def step (array : MemoryArray) (u : UsedPool) : MemoryAct → Option UsedPool
  | .alloc realloc =>
    let (m, item) := u.toMemoryPool.ebNewMemoryItem array realloc
    some ⟨m, if item = ebNull then u.live else item :: u.live⟩
  | .free item => if item ∈ u.live then some ⟨u.toMemoryPool.ebFreeMemoryItem item, u.live.erase item⟩ else none
  | .write item link =>
    if item ∈ u.live then some { u with next := Function.update u.next item (link % 2 ^ 16) } else none

/-- The functions as the rest of the library calls them. -/
def ebNewMemoryItem (u : UsedPool) (array : MemoryArray) (realloc : Bool) : UsedPool × ℕ :=
  let (m, item) := u.toMemoryPool.ebNewMemoryItem array realloc
  (⟨m, if item = ebNull then u.live else item :: u.live⟩, item)

def ebFreeMemoryItem (u : UsedPool) (item : ℕ) : UsedPool :=
  ⟨u.toMemoryPool.ebFreeMemoryItem item, u.live.erase item⟩

@[simp] theorem live_free (u : UsedPool) (item : ℕ) : (u.ebFreeMemoryItem item).live = u.live.erase item := rfl

theorem step_alloc (array : MemoryArray) (u : UsedPool) (realloc : Bool) :
    u.step array (.alloc realloc) = some (u.ebNewMemoryItem array realloc).1 := rfl

theorem step_free (array : MemoryArray) (u : UsedPool) (item : ℕ) :
    u.step array (.free item) = if item ∈ u.live then some (u.ebFreeMemoryItem item) else none := rfl

/-- A cell was linked and is not in use. -/
def HasFree (array : MemoryArray) (u : UsedPool) : Prop := ∃ i ∈ u.linked array, i ≠ ebNull ∧ i ∉ u.live

/-- An allocation returns a cell that is not in use, unless there is none and the array does not grow; and
no cell that was linked gets lost. -/
structure Sound (array : MemoryArray) (u : UsedPool) : Prop where
  fresh : ∀ realloc m item, u.toMemoryPool.ebNewMemoryItem array realloc = (m, item) →
    u.HasFree array ∨ u.CanGrow array realloc → item < m.arraySize ∧ item ≠ ebNull ∧ item ∉ u.live
  failed : ∀ realloc, ¬ u.HasFree array → ¬ u.CanGrow array realloc →
    u.toMemoryPool.ebNewMemoryItem array realloc = (u.toMemoryPool, ebNull)
  freeList : ∃ l, Chain u.links (indexOf u.free) l ∧ l.Nodup ∧ l.Disjoint u.live ∧
    ∀ i ∈ u.linked array, i ≠ ebNull → i ∈ l ∨ i ∈ u.live
  again : ∀ i ∈ u.linked array, i ≠ ebNull → i ∉ u.live →
    ∃ n, ∀ reallocs : List Bool, reallocs.length = n → i ∈ u.allocations array reallocs
  used : u.used = u.live.length

end UsedPool

namespace MemoryPool

section Linking

variable {first count : ℕ} {next : ℕ → ℕ}

theorem indexOf_of_ne {i : ℕ} (h : i ≠ ebNull) : indexOf i = some i := if_neg h

/-- Cells linked in a row form a chain, from any of them on. -/
theorem chain_linkCells (hmax : first + count ≤ 65536) {n : ℕ} (hn : n + 1 ≤ count) :
    Chain (fun i => (⟨(), indexOf (linkCells next first (first + count) i)⟩ : Cell Unit))
      (indexOf (first + count - (n + 1)))
      ((List.range' (first + count - (n + 1)) (n + 1)).filter (· != ebNull)) := by
  induction n with
  | zero =>
    by_cases hnull : first + count - 1 = ebNull
    · rw [indexOf, if_pos hnull]
      simp only [Nat.zero_add, List.range'_one, hnull, List.filter_cons, bne_self_eq_false, Bool.false_eq_true,
        if_false, List.filter_nil]
      exact .nil
    · have hlast : indexOf (linkCells next first (first + count) (first + count - 1)) = none := by
        rw [linkCells, if_pos (by omega), indexOf, if_pos rfl]
      rw [Nat.zero_add, indexOf_of_ne hnull]
      simp only [List.range'_one, List.filter_cons, bne_iff_ne, ne_eq, hnull, not_false_eq_true, if_true,
        List.filter_nil]
      apply Chain.cons
      rw [hlast]
      exact .nil
  | succ n ih =>
    have hnext : first + count - (n + 1 + 1) + 1 = first + count - (n + 1) := by omega
    have hne : first + count - (n + 1 + 1) ≠ ebNull := by
      rw [ebNull]
      omega
    have hlink : linkCells next first (first + count) (first + count - (n + 1 + 1)) = first + count - (n + 1) := by
      rw [linkCells, if_neg (by omega), if_pos (by omega), hnext]
      exact Nat.mod_eq_of_lt (by omega)
    rw [indexOf_of_ne hne, List.range'_succ, hnext]
    simp only [List.filter_cons, bne_iff_ne, ne_eq, hne, not_false_eq_true, if_true]
    apply Chain.cons
    rw [hlink]
    exact ih (by omega)

end Linking

theorem linked_nodup (array : MemoryArray) (m : MemoryPool) : (m.linked array).Nodup := by
  cases array with
  | dynamic => exact List.nodup_range'
  | static size =>
    rw [linked]
    split
    · exact List.nodup_range'
    · exact List.nodup_nil

namespace Partitioned

variable {array : MemoryArray} {m m' : MemoryPool} {l live : List ℕ} {item first count : ℕ}

theorem all_nodup (h : m.Partitioned array l live) : (l ++ live).Nodup :=
  h.perm.nodup_iff.mpr ((linked_nodup array m).filter _)

theorem mem_iff (h : m.Partitioned array l live) {i : ℕ} : i ∈ l ∨ i ∈ live ↔ i ∈ m.linked array ∧ i ≠ ebNull := by
  rw [← List.mem_append, h.perm.mem_iff, List.mem_filter, bne_iff_ne]

theorem lt_arraySize (h : m.Partitioned array l live) {i : ℕ} (hi : i ∈ m.linked array) : i < m.arraySize := by
  have hsized := h.sized
  cases array with
  | dynamic =>
    have hlt := (List.mem_range'_1.mp hi).2
    have hle := (List.mem_range'_1.mp hi).1
    omega
  | static size =>
    rw [linked] at hi
    split at hi
    · have hlt := (List.mem_range'_1.mp hi).2
      rw [Sized] at hsized
      omega
    · cases hi

theorem arraySize_le (h : m.Partitioned array l live) (harray : array.Fits) : m.arraySize ≤ 65536 := by
  have hsized := h.sized
  cases array with
  | dynamic =>
    obtain ⟨k, hk, hsize⟩ := hsized
    have hpow : 2 ^ k ≤ 2 ^ 9 := Nat.pow_le_pow_right (by omega) hk
    omega
  | static size =>
    rw [Sized] at hsized
    have hfits := harray.2
    omega

/-- There are fewer cells than the counter can count. -/
theorem length_lt (h : m.Partitioned array l live) (harray : array.Fits) : l.length + live.length < 2 ^ 16 := by
  have hsub : l ++ live ⊆ List.range 65535 := by
    intro i hi
    obtain ⟨hlinked, hne⟩ := h.mem_iff.mp (List.mem_append.mp hi)
    have hlt := h.lt_arraySize hlinked
    have hle := h.arraySize_le harray
    rw [ebNull] at hne
    exact List.mem_range.mpr (by omega)
  have hlength := (h.all_nodup.subperm hsub).length_le
  rw [List.length_range, List.length_append] at hlength
  omega

theorem eq_nil (h : m.Partitioned array l live) (hfree : m.free = ebNull) : l = [] := by
  have hchain := h.chain
  rw [hfree, indexOf, if_pos rfl] at hchain
  exact hchain.eq_nil

theorem eq_cons (h : m.Partitioned array l live) (hfree : m.free ≠ ebNull) :
    ∃ l', l = m.free :: l' ∧ Chain m.links (indexOf (m.next m.free)) l' := by
  have hchain := h.chain
  rw [indexOf_of_ne hfree] at hchain
  cases hchain with
  | @cons _ l' htail => exact ⟨l', rfl, htail⟩

/-- New cells are linked where there was no free one. -/
theorem extend (h : m.Partitioned array [] live) (hcount : 0 < count) (hmax : first + count ≤ 65536)
    (hsized : m'.Sized array) (hnext : m'.next = linkCells m.next first (first + count)) (hfree : m'.free = first)
    (hlinked : m'.linked array = m.linked array ++ List.range' first count) (hused : m'.used = m.used) :
    m'.Partitioned array ((List.range' first count).filter (· != ebNull)) live where
  chain := by
    obtain ⟨n, rfl⟩ := Nat.exists_eq_add_of_le' hcount
    have hstart : first + (n + 1) - (n + 1) = first := by omega
    have hchain := @chain_linkCells first (n + 1) m.next hmax n (Nat.le_refl _)
    rw [hstart] at hchain
    rw [hfree]
    unfold links
    rw [hnext]
    exact hchain
  perm := by
    have hperm := h.perm
    rw [List.nil_append] at hperm
    rw [hlinked, List.filter_append]
    exact (List.perm_append_comm).trans (hperm.append_right _)
  sized := hsized
  used := by rw [hused, h.used]

/-- An expansion is done when it can be, and leaves a free cell that can be taken. -/
theorem expand (h : m.Partitioned array [] live) (harray : array.Fits) (realloc : Bool) :
    (¬ m.CanGrow array realloc ∧ m.ebExpandArray array realloc = none) ∨
      (m.CanGrow array realloc ∧ ∃ m' l, m.ebExpandArray array realloc = some m' ∧ m'.Partitioned array l live ∧
        m'.free ≠ ebNull) := by
  have hsized := h.sized
  cases array with
  | dynamic =>
    obtain ⟨k, hk, hsize⟩ := hsized
    rw [ebExpandArray]
    by_cases hfull : m.arraySize = 65536
    · refine .inl ⟨fun hgrow => ?_, if_pos hfull⟩
      have hlt := hgrow.1
      omega
    have hle := h.arraySize_le harray
    rw [if_neg hfull]
    by_cases hrealloc : realloc = false
    · refine .inl ⟨fun hgrow => ?_, if_pos hrealloc⟩
      rw [hrealloc] at hgrow
      exact Bool.false_ne_true hgrow.2
    have hk' : k < 9 := by
      by_contra hge
      have hk9 : k = 9 := by omega
      rw [hk9] at hsize
      exact hfull hsize
    have hpow : 2 ^ k ≤ 2 ^ 8 := Nat.pow_le_pow_right (by omega) (by omega)
    have hpos : 0 < 2 ^ k := Nat.pow_pos (by omega)
    have hmod : m.arraySize % 2 ^ 16 = m.arraySize := Nat.mod_eq_of_lt (by omega)
    rw [if_neg hrealloc]
    refine .inr ⟨⟨by omega, by simpa using hrealloc⟩, _, _, rfl,
      @extend .dynamic m _ live m.arraySize m.arraySize h (by omega) (by omega) ⟨k + 1, by omega, ?_⟩ rfl hmod ?_ rfl, ?_⟩
    · change m.arraySize + m.arraySize = 128 * 2 ^ (k + 1)
      rw [Nat.pow_succ]
      omega
    · have hfirst : m.arraySize = 128 + (m.arraySize - 128) := by omega
      have hall : m.arraySize + m.arraySize - 128 = m.arraySize - 128 + m.arraySize := by omega
      simp only [linked]
      rw [hall, ← List.range'_append_1, ← hfirst]
    · change m.arraySize % 2 ^ 16 ≠ ebNull
      rw [hmod, ebNull]
      omega
  | static size =>
    rw [Sized] at hsized
    rw [ebExpandArray]
    by_cases hsetup : m.setup = true
    · refine .inl ⟨fun hgrow => ?_, if_pos hsetup⟩
      have hoff : m.setup = false := hgrow
      rw [hsetup] at hoff
      cases hoff
    have hoff : m.setup = false := by simpa using hsetup
    obtain ⟨hpos, hmax⟩ := harray
    rw [if_neg hsetup]
    refine .inr ⟨hoff, _, _, rfl,
      @extend (.static size) m _ live 0 m.arraySize h (by omega) (by omega) hsized (by simp) rfl ?_ rfl, ?_⟩
    · simp [linked, hoff, hsized]
    · change 0 ≠ ebNull
      rw [ebNull]
      omega

theorem pop (h : m.Partitioned array l live) (harray : array.Fits) (hfree : m.free ≠ ebNull) :
    ∃ l', l = m.free :: l' ∧ m.pop.Partitioned array l' (m.free :: live) := by
  obtain ⟨l', rfl, htail⟩ := h.eq_cons hfree
  refine ⟨l', rfl, htail, ?_, ?_, ?_⟩
  · have hlinked : m.pop.linked array = m.linked array := by cases array <;> rfl
    rw [hlinked]
    exact (List.perm_middle).trans h.perm
  · cases array with
    | dynamic => exact h.sized
    | static size => exact h.sized
  · have hlength := h.length_lt harray
    rw [List.length_cons] at hlength
    change (m.used + 1) % 2 ^ 16 = (m.free :: live).length
    rw [List.length_cons, h.used]
    exact Nat.mod_eq_of_lt (by omega)

/-- What an allocation does: nothing, or it takes a free cell that is not in use. -/
theorem alloc (h : m.Partitioned array l live) (harray : array.Fits) {realloc : Bool}
    (hnew : m.ebNewMemoryItem array realloc = (m', item)) :
    (¬ m.CanGrow array realloc ∧ (m', item) = (m, ebNull) ∧ l = []) ∨
      ((l ≠ [] ∨ m.CanGrow array realloc) ∧ item ≠ ebNull ∧ item < m'.arraySize ∧ item ∉ live ∧
        ∃ l', m'.Partitioned array l' (item :: live) ∧ (l = [] ∨ l = item :: l')) := by
  have htake : ∀ {m₁ : MemoryPool} {l₁ : List ℕ}, m₁.Partitioned array l₁ live → m₁.free ≠ ebNull →
      (l = [] ∨ l = l₁) → m₁.free < m₁.pop.arraySize ∧ m₁.free ∉ live ∧
        ∃ l', m₁.pop.Partitioned array l' (m₁.free :: live) ∧ (l = [] ∨ l = m₁.free :: l') := by
    intro m₁ l₁ h₁ hfree hl
    obtain ⟨l', rfl, hpop⟩ := h₁.pop harray hfree
    have hnodup := h₁.all_nodup
    rw [List.cons_append, List.nodup_cons, List.mem_append, not_or] at hnodup
    have hlinked := (h₁.mem_iff.mp (.inl List.mem_cons_self)).1
    exact ⟨h₁.lt_arraySize hlinked, hnodup.1.2, l', hpop, hl⟩
  rw [ebNewMemoryItem] at hnew
  by_cases hfree : m.free = ebNull
  · have hnil := h.eq_nil hfree
    subst hnil
    rw [if_pos hfree] at hnew
    rcases h.expand harray realloc with ⟨hfixed, hexpand⟩ | ⟨hgrow, m₁, l₁, hexpand, h₁, hne⟩
    · rw [hexpand] at hnew
      exact .inl ⟨hfixed, hnew.symm, rfl⟩
    · rw [hexpand] at hnew
      cases hnew
      exact .inr ⟨.inr hgrow, hne, htake h₁ hne (.inl rfl)⟩
  · obtain ⟨l', hl', -⟩ := h.eq_cons hfree
    rw [if_neg hfree] at hnew
    cases hnew
    exact .inr ⟨.inl (by rw [hl']; exact List.cons_ne_nil _ _), hfree, htake h hfree (.inr rfl)⟩

theorem free (h : m.Partitioned array l live) (harray : array.Fits) (hitem : item ∈ live) :
    (m.ebFreeMemoryItem item).Partitioned array (item :: l) (live.erase item) where
  chain := by
    have hnotin : item ∉ l := fun hl => (List.nodup_append.mp h.all_nodup).2.2 item hl item hitem rfl
    have hne : item ≠ ebNull := (h.mem_iff.mp (.inr hitem)).2
    have hlinks : (m.ebFreeMemoryItem item).links = m.links.setNext item (indexOf m.free) := by
      funext i
      by_cases hi : i = item
      · subst hi
        simp [links, ebFreeMemoryItem]
      · rw [m.links.setNext_of_ne _ hi]
        simp [links, ebFreeMemoryItem, Function.update_of_ne hi]
    rw [hlinks]
    change Chain _ (indexOf item) (item :: l)
    rw [indexOf_of_ne hne]
    exact h.chain.push hnotin
  perm := by
    have hlinked : (m.ebFreeMemoryItem item).linked array = m.linked array := by cases array <;> rfl
    rw [hlinked]
    refine List.Perm.trans ?_ h.perm
    have herase := List.perm_cons_erase hitem
    exact (List.perm_middle.symm).trans (List.Perm.append_left l herase.symm)
  sized := by
    cases array with
    | dynamic => exact h.sized
    | static size => exact h.sized
  used := by
    have hpos := List.length_pos_of_mem hitem
    have hlength := h.length_lt harray
    have hwrap : live.length + (2 ^ 16 - 1) = live.length - 1 + 2 ^ 16 := by omega
    change (m.used + (2 ^ 16 - 1)) % 2 ^ 16 = (live.erase item).length
    rw [List.length_erase_of_mem hitem, h.used, hwrap, Nat.add_mod_right]
    exact Nat.mod_eq_of_lt (by omega)

/-- Allocations empty the free list from its front. -/
theorem allocations_eq (h : m.Partitioned array l live) (harray : array.Fits) {reallocs : List Bool}
    (hlength : reallocs.length = l.length) : m.allocations array reallocs = l := by
  induction l generalizing m live reallocs with
  | nil =>
    rw [List.length_eq_zero_iff.mp hlength]
    rfl
  | cons i l ih =>
    cases reallocs with
    | nil => cases hlength
    | cons realloc reallocs =>
      obtain ⟨⟨m₁, item⟩, hnew⟩ : ∃ r, m.ebNewMemoryItem array realloc = r := ⟨_, rfl⟩
      rw [allocations, hnew]
      cases h.alloc harray hnew with
      | inl hfailed => cases hfailed.2.2
      | inr htaken =>
        obtain ⟨-, -, -, -, l'', hpart, hl''⟩ := htaken
        cases hl'' with
        | inl hnil => cases hnil
        | inr hcons =>
          cases hcons
          exact congrArg (i :: ·) (ih hpart (Nat.succ.inj hlength))

/-- What a cell in use holds does not matter. -/
theorem write (h : m.Partitioned array l live) (hitem : item ∈ live) (link : ℕ) :
    Partitioned array { m with next := Function.update m.next item link } l live where
  chain := by
    have hnotin : item ∉ l := fun hl => (List.nodup_append.mp h.all_nodup).2.2 item hl item hitem rfl
    apply h.chain.congr
    intro i hi
    have hne : i ≠ item := fun heq => hnotin (heq ▸ hi)
    simp [links, Function.update_of_ne hne]
  perm := by
    cases array with
    | dynamic => exact h.perm
    | static size => exact h.perm
  sized := by
    cases array with
    | dynamic => exact h.sized
    | static size => exact h.sized
  used := h.used

theorem start (array : MemoryArray) : (MemoryPool.start array).Partitioned array [] [] where
  chain := by
    cases array with
    | dynamic => exact .nil
    | static size => exact .nil
  perm := by
    cases array with
    | dynamic => exact List.Perm.nil
    | static size => exact List.Perm.nil
  sized := by
    cases array with
    | dynamic => exact ⟨0, by omega, rfl⟩
    | static size => rfl
  used := by
    cases array with
    | dynamic => rfl
    | static size => rfl

end Partitioned

end MemoryPool

namespace UsedPool

variable {array : MemoryArray} {u u' : UsedPool} {l : List ℕ} {item : ℕ}

/-- The cells that users have and the free list are all there are. -/
def Partitioned (array : MemoryArray) (u : UsedPool) (l : List ℕ) : Prop :=
  u.toMemoryPool.Partitioned array l u.live

namespace Partitioned

/-- An allocation fails without a trace, or its cell is in use from then on. -/
theorem alloc (h : u.Partitioned array l) (harray : array.Fits) {realloc : Bool}
    (hnew : u.ebNewMemoryItem array realloc = (u', item)) :
    (¬ u.CanGrow array realloc ∧ (u', item) = (u, ebNull) ∧ l = []) ∨
      ((l ≠ [] ∨ u.CanGrow array realloc) ∧ item ≠ ebNull ∧ item < u'.arraySize ∧ item ∉ u.live ∧
        u'.live = item :: u.live ∧ ∃ l', u'.Partitioned array l' ∧ (l = [] ∨ l = item :: l')) := by
  obtain ⟨⟨m, i⟩, hm⟩ : ∃ r, u.toMemoryPool.ebNewMemoryItem array realloc = r := ⟨_, rfl⟩
  rw [ebNewMemoryItem, hm] at hnew
  cases hnew
  rcases MemoryPool.Partitioned.alloc h harray hm with ⟨hfixed, hfailed, hnil⟩ |
    ⟨hroom, hne, hlt, hfresh, l', hl', hcons⟩
  · obtain ⟨rfl, rfl⟩ := Prod.mk.inj hfailed
    exact .inl ⟨hfixed, rfl, hnil⟩
  · have hlive : (if item = ebNull then u.live else item :: u.live) = item :: u.live := if_neg hne
    refine .inr ⟨hroom, hne, hlt, hfresh, hlive, l', ?_, hcons⟩
    rw [Partitioned, hlive]
    exact hl'

theorem free (h : u.Partitioned array l) (harray : array.Fits) (hitem : item ∈ u.live) :
    (u.ebFreeMemoryItem item).Partitioned array (item :: l) := MemoryPool.Partitioned.free h harray hitem

theorem step (h : u.Partitioned array l) (harray : array.Fits) {act : MemoryAct} (hs : u.step array act = some u') :
    ∃ l', u'.Partitioned array l' := by
  cases act with
  | alloc realloc =>
    rw [step_alloc] at hs
    obtain ⟨⟨u₁, item⟩, hnew⟩ : ∃ r, u.ebNewMemoryItem array realloc = r := ⟨_, rfl⟩
    rw [hnew] at hs
    cases hs
    cases h.alloc harray hnew with
    | inl hfailed =>
      rw [(Prod.mk.inj hfailed.2.1).1]
      exact ⟨l, h⟩
    | inr htaken =>
      obtain ⟨-, -, -, -, -, l', hl', -⟩ := htaken
      exact ⟨l', hl'⟩
  | free item =>
    rw [step_free] at hs
    split at hs
    · rename_i hitem
      cases hs
      exact ⟨_, h.free harray hitem⟩
    · cases hs
  | write item link =>
    rw [UsedPool.step] at hs
    split at hs
    · rename_i hitem
      cases hs
      exact ⟨l, MemoryPool.Partitioned.write h hitem _⟩
    · cases hs

/-- The free list is empty when all cells are in use. -/
theorem hasFree_iff (h : u.Partitioned array l) : u.HasFree array ↔ l ≠ [] := by
  constructor
  · rintro ⟨i, hi, hne, hfree⟩ rfl
    cases (MemoryPool.Partitioned.mem_iff h).mpr ⟨hi, hne⟩ with
    | inl hl => cases hl
    | inr hlive => exact hfree hlive
  · intro hl
    obtain ⟨i, rest, rfl⟩ := List.exists_cons_of_ne_nil hl
    obtain ⟨hi, hne⟩ := (MemoryPool.Partitioned.mem_iff h).mp (.inl List.mem_cons_self)
    have hnodup := MemoryPool.Partitioned.all_nodup h
    rw [List.cons_append, List.nodup_cons, List.mem_append, not_or] at hnodup
    exact ⟨i, hi, hne, hnodup.1.2⟩

theorem sound (h : u.Partitioned array l) (harray : array.Fits) : u.Sound array where
  fresh realloc m item hnew hroom := by
    cases MemoryPool.Partitioned.alloc h harray hnew with
    | inl hfailed =>
      obtain ⟨hfixed, -, hnil⟩ := hfailed
      cases hroom with
      | inl hfree => exact absurd hnil (h.hasFree_iff.mp hfree)
      | inr hgrow => exact absurd hgrow hfixed
    | inr htaken =>
      obtain ⟨-, hne, hlt, hfresh, -⟩ := htaken
      exact ⟨hlt, hne, hfresh⟩
  failed realloc hnone hfixed := by
    obtain ⟨⟨m, item⟩, hnew⟩ : ∃ r, u.toMemoryPool.ebNewMemoryItem array realloc = r := ⟨_, rfl⟩
    cases MemoryPool.Partitioned.alloc h harray hnew with
    | inl hfailed => exact hnew.trans hfailed.2.1
    | inr htaken =>
      cases htaken.1 with
      | inl hl => exact absurd (h.hasFree_iff.mpr hl) hnone
      | inr hgrow => exact absurd hgrow hfixed
  freeList := by
    obtain ⟨hl, -, hdisjoint⟩ := List.nodup_append.mp (MemoryPool.Partitioned.all_nodup h)
    exact ⟨l, h.chain, hl, fun i hi hlive => hdisjoint i hi i hlive rfl,
      fun i hi hne => (MemoryPool.Partitioned.mem_iff h).mpr ⟨hi, hne⟩⟩
  again i hi hne hfree := by
    refine ⟨l.length, fun reallocs hlength => ?_⟩
    rw [MemoryPool.Partitioned.allocations_eq h harray hlength]
    cases (MemoryPool.Partitioned.mem_iff h).mpr ⟨hi, hne⟩ with
    | inl hl => exact hl
    | inr hlive => exact absurd hlive hfree
  used := MemoryPool.Partitioned.used h

end Partitioned

/-- Allocation hands out free cells only, loses none, and fails without a trace. -/
theorem pool_sound (harray : array.Fits) {acts : List MemoryAct} (hrun : run (step array) (start array) acts = some u) :
    u.Sound array := by
  have hkeeps : ∀ {u : UsedPool} {act : MemoryAct} {u' : UsedPool}, (∃ l, u.Partitioned array l) →
      u.step array act = some u' → ∃ l, u'.Partitioned array l := by
    intro u act u' hu hs
    obtain ⟨l, hl⟩ := hu
    exact hl.step harray hs
  obtain ⟨l, hl⟩ := run_keeps hkeeps (⟨[], MemoryPool.Partitioned.start array⟩ : ∃ l, (start array).Partitioned array l) hrun
  exact hl.sound harray

end UsedPool

namespace Sample
open UsedPool

/-- Three cells of four are taken, one is given back and overwritten memory does not matter. -/
def takeThree : List MemoryAct :=
  [.alloc true, .alloc true, .alloc true, .write 1 2, .free 0]

theorem takeThree_sound : ∃ u, run (step (.static 4)) (start (.static 4)) takeThree = some u ∧ u.live = [2, 1] ∧
    u.Sound (.static 4) :=
  ⟨_, rfl, rfl, @pool_sound (.static 4) _ ⟨by omega, by omega⟩ takeThree rfl⟩

end Sample

end WhiteRabbit.Etherbone
