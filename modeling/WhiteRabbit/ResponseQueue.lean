import Mathlib.Data.List.Count
import Mathlib.Data.List.Perm.Subperm
import WhiteRabbit.ResponseHeap

/-!
# Integrity of the response queue

The queue is `first_response` followed by the reverse of `last_response`. Every step keeps
both lists as chains of cells in use that have no cell in common with each other, with the
lists of bad responses or with the responses being called back, and the queue is what was
issued and has not left it.
-/

namespace WhiteRabbit.Etherbone
open LinkedCells

namespace ResponseHeap

/-- The lists `first`, `last` and `bads` are the ones in memory. -/
structure Chains (s : ResponseHeap) (first last : List ℕ) (bads : List (List ℕ)) : Prop where
  firstChain : Chain s.cells s.firstResponse first
  lastChain : Chain s.cells s.lastResponse last
  badChains : List.Forall₂ (Chain s.cells) s.bads bads

/-- The cells in use are in one of the lists, once, or held for a callback. -/
structure Holds (s : ResponseHeap) (first last : List ℕ) (bads : List (List ℕ)) : Prop
    extends s.Chains first last bads where
  nodup : s.allocated.Nodup
  counts : ∀ i, first.count i + last.count i + bads.flatten.count i + s.held.count i =
    s.allocated.count i

namespace Holds

variable {s : ResponseHeap} {first last : List ℕ} {bads : List (List ℕ)}

theorem count_le (h : s.Holds first last bads) (i : ℕ) :
    first.count i + last.count i + bads.flatten.count i + s.held.count i ≤ 1 := by
  rw [h.counts]
  exact List.nodup_iff_count_le_one.mp h.nodup i

theorem queue_nodup (h : s.Holds first last bads) : (first ++ last).Nodup := by
  rw [List.nodup_iff_count_le_one]
  intro i
  have := h.count_le i
  rw [List.count_append]
  omega

/-- A cell of the queue is in one list, and in none of the others. -/
theorem not_mem (h : s.Holds first last bads) {i : ℕ} (hi : i ∈ first) :
    i ∉ last ∧ i ∉ bads.flatten ∧ i ∉ s.held := by
  have := h.count_le i
  have := List.count_pos_iff.mpr hi
  simp only [← List.count_eq_zero]
  omega

theorem not_mem_last (h : s.Holds first last bads) {i : ℕ} (hi : i ∈ last) :
    i ∉ first ∧ i ∉ bads.flatten ∧ i ∉ s.held := by
  have := h.count_le i
  have := List.count_pos_iff.mpr hi
  simp only [← List.count_eq_zero]
  omega

theorem mem_allocated (h : s.Holds first last bads) {i : ℕ}
    (hi : i ∈ first ∨ i ∈ last ∨ i ∈ bads.flatten ∨ i ∈ s.held) : i ∈ s.allocated := by
  have hc := h.counts i
  rw [← List.count_pos_iff, ← hc]
  simp only [← List.count_pos_iff] at hi
  omega

theorem length_le (h : s.Holds first last bads) : first.length + last.length ≤ s.fuel := by
  have hsub : (first ++ last) ⊆ s.allocated := by
    intro i hi
    rcases List.mem_append.mp hi with hi | hi
    · exact h.mem_allocated (Or.inl hi)
    · exact h.mem_allocated (Or.inr (Or.inl hi))
  have := (List.subperm_of_subset h.queue_nodup hsub).length_le
  rwa [List.length_append] at this

end Holds

/-- The lists of bad responses do not see changes off them. -/
theorem Chains.bads_congr {s : ResponseHeap} {first last : List ℕ} {bads : List (List ℕ)}
    (h : s.Chains first last bads) {cells : Heap Response}
    (hnext : ∀ i ∈ bads.flatten, (cells i).next = (s.cells i).next) :
    List.Forall₂ (Chain cells) s.bads bads := by
  have hb := h.badChains
  clear h
  generalize s.bads = ps at hb
  induction hb with
  | nil => exact .nil
  | cons hc _ ih =>
    rw [List.flatten_cons] at hnext
    exact .cons (hc.congr fun i hi => hnext i (List.mem_append_left _ hi))
      (ih fun i hi => hnext i (List.mem_append_right _ hi))

/-- Values may change as they like. -/
theorem Holds.setValue {s : ResponseHeap} {first last : List ℕ} {bads : List (List ℕ)}
    (h : s.Holds first last bads) (i : ℕ) (r : Response) :
    Holds { s with cells := s.cells.setValue i r } first last bads where
  firstChain := h.firstChain.setValue i r
  lastChain := h.lastChain.setValue i r
  badChains := h.bads_congr fun _ _ => s.cells.setValue_next ..
  nodup := h.nodup
  counts := h.counts

/-- The rest of the state, which the queue functions leave alone. -/
structure SameRest (s t : ResponseHeap) : Prop where
  allocated : t.allocated = s.allocated
  held : t.held = s.held
  bads : t.bads = s.bads
  timeCache : t.timeCache = s.timeCache
  value : ∀ i, (t.cells i).value = (s.cells i).value

theorem SameRest.refl (s : ResponseHeap) : SameRest s s := ⟨rfl, rfl, rfl, rfl, fun _ => rfl⟩

theorem SameRest.trans {s t u : ResponseHeap} (h : SameRest s t) (h' : SameRest t u) : SameRest s u :=
  ⟨h'.allocated.trans h.allocated, h'.held.trans h.held, h'.bads.trans h.bads, h'.timeCache.trans h.timeCache,
    fun i => (h'.value i).trans (h.value i)⟩

section Search

variable {s : ResponseHeap} {first last : List ℕ} {bads : List (List ℕ)}

theorem flipLast_spec (h : s.Holds first last bads) :
    ∃ t p, s.flipLast = some (t, p) ∧ SameRest s t ∧ t.Chains first [] bads ∧
      Chain t.cells p last.reverse := by
  have hnd : (last ++ []).Nodup := by
    rw [List.append_nil]
    exact (List.nodup_append.mp h.queue_nodup).2.1
  have hlen : last.length ≤ s.fuel := Nat.le_trans (Nat.le_add_left _ _) h.length_le
  obtain ⟨cells, p, hflip, hchain, hoff, hvalue⟩ := flip_spec h.lastChain Chain.nil hnd hlen
  refine ⟨{ s with cells := cells, lastResponse := none }, p, by rw [flipLast, hflip]; rfl,
    ⟨rfl, rfl, rfl, rfl, hvalue⟩, ⟨?_, .nil, ?_⟩, by simpa using hchain⟩
  · exact h.firstChain.congr fun i hi => congrArg Cell.next (hoff i (h.not_mem hi).1)
  · refine h.bads_congr fun i hi => ?_
    have hil : i ∉ last := fun hil => (h.not_mem_last hil).2.1 hi
    exact congrArg Cell.next (hoff i hil)

/-- The slot behind some responses of the queue. -/
def slotAfter (done : List ℕ) : Slot := done.getLast?.elim .first .next

theorem read_slotAfter {done rest : List ℕ} (h : Chain s.cells s.firstResponse (done ++ rest)) :
    s.read (slotAfter done) = rest.head? := by
  rcases List.eq_nil_or_concat' done with rfl | ⟨done, i, rfl⟩
  · exact h.start_eq
  · rw [List.append_assoc] at h
    rw [slotAfter, List.getLast?_concat]
    exact h.after.start_eq

/-- Writing the slot changes what comes behind it. -/
theorem Chains.write {done rest m : List ℕ} {q : Option ℕ} (h : s.Chains (done ++ rest) last bads)
    (hq : Chain s.cells q m) (hnd : (done ++ m).Nodup)
    (hdone : ∀ i ∈ done, i ∉ last ∧ i ∉ bads.flatten) :
    (s.write (slotAfter done) q).Chains (done ++ m) last bads ∧
      SameRest s (s.write (slotAfter done) q) := by
  rcases List.eq_nil_or_concat' done with rfl | ⟨done, i, rfl⟩
  · exact ⟨⟨hq, h.lastChain, h.badChains⟩, ⟨rfl, rfl, rfl, rfl, fun _ => rfl⟩⟩
  · obtain ⟨hlast, hbads⟩ := hdone i (by simp)
    have hi : i ∉ done ∧ i ∉ m := by
      rw [List.append_assoc] at hnd
      have := List.nodup_middle.mp hnd
      rw [List.nodup_cons, List.mem_append, not_or] at this
      exact this.1
    have hfirst := h.firstChain
    rw [List.append_assoc] at hfirst
    rw [slotAfter, List.getLast?_concat, List.append_assoc]
    refine ⟨⟨hfirst.splice hq hi.1 hi.2, h.lastChain.setNext hlast q, ?_⟩,
      ⟨rfl, rfl, rfl, rfl, fun j => s.cells.setNext_value ..⟩⟩
    refine h.bads_congr fun j hj => ?_
    have hji : j ≠ i := fun hji => hbads (hji ▸ hj)
    exact congrArg Cell.next (s.cells.setNext_of_ne q hji)

/-- At the end of the queue, the reversed `last_response` is put behind the slot. -/
theorem refill {done : List ℕ} (h : s.Holds done last bads) :
    ∃ t p, s.flipLast = some (t, p) ∧ p = last.reverse.head? ∧
      (t.write (slotAfter done) p).Holds (done ++ last.reverse) [] bads ∧
      SameRest s (t.write (slotAfter done) p) := by
  obtain ⟨t, p, hflip, hsame, hchains, hrev⟩ := flipLast_spec h
  have hnd : (done ++ last.reverse).Nodup := by
    rw [List.nodup_iff_count_le_one]
    intro i
    have := h.count_le i
    rw [List.count_append, List.count_reverse]
    omega
  have hchains' : t.Chains (done ++ []) [] bads := by rwa [List.append_nil]
  obtain ⟨hwrite, hsame'⟩ := hchains'.write hrev hnd
    fun i hi => ⟨List.not_mem_nil, (h.not_mem hi).2.1⟩
  have hall := hsame.trans hsame'
  refine ⟨t, p, hflip, hrev.start_eq, ⟨hwrite, by rw [hall.allocated]; exact h.nodup, fun i => ?_⟩, hall⟩
  rw [hall.held, hall.allocated, ← h.counts i, List.count_append, List.count_reverse, List.count_nil]
  omega

/-- What a search through the rest of the queue finds: the first response with the address. -/
def Found (s : ResponseHeap) (addr : ℕ) (done rest first : List ℕ) : Option (Slot × ℕ) → Prop
  | none => ∀ i ∈ rest, (s.cells i).value.address ≠ addr
  | some (slot, i) => ∃ skipped post, first = done ++ skipped ++ i :: post ∧
      slot = slotAfter (done ++ skipped) ∧ (s.cells i).value.address = addr ∧
      ∀ j ∈ skipped, (s.cells j).value.address ≠ addr

theorem search_spec (addr : ℕ) {fuel : ℕ} (done : List ℕ) {rest : List ℕ}
    (h : s.Holds (done ++ rest) last bads)
    (hfuel : rest.length + last.length + (if last = [] then 1 else 2) ≤ fuel) :
    ∃ t res first' last', search addr fuel s (slotAfter done) = some (t, res) ∧ SameRest s t ∧
      t.Holds first' last' bads ∧ first' ++ last'.reverse = done ++ rest ++ last.reverse ∧
      Found s addr done (rest ++ last.reverse) first' res ∧
      ((∃ j ∈ rest, (s.cells j).value.address = addr) ∧ last' = last ∨
        (∀ j ∈ rest, (s.cells j).value.address ≠ addr) ∧ last' = []) := by
  induction fuel generalizing s done rest last with
  | zero => split at hfuel <;> omega
  | succ fuel ih =>
    rw [search, read_slotAfter h.firstChain]
    cases rest with
    | cons i rest =>
      dsimp only [List.head?_cons]
      by_cases haddr : (s.cells i).value.address = addr
      · rw [if_pos haddr]
        exact ⟨s, _, _, _, rfl, SameRest.refl s, h, rfl, ⟨[], rest, by simp, by simp, haddr, by simp⟩,
          .inl ⟨⟨i, List.mem_cons_self, haddr⟩, rfl⟩⟩
      · rw [if_neg haddr]
        have hslot : slotAfter (done ++ [i]) = .next i := by simp [slotAfter]
        have h' : s.Holds (done ++ [i] ++ rest) last bads := by simpa using h
        obtain ⟨t, res, first', last', hsearch, hsame, ht, hqueue, hfound, hlooked⟩ :=
          ih (done ++ [i]) h' (by simp only [List.length_cons] at hfuel; omega)
        rw [hslot] at hsearch
        refine ⟨t, res, first', last', hsearch, hsame, ht, by simpa using hqueue, ?_, ?_⟩
        · cases res with
          | none =>
            intro j hj
            rcases List.mem_cons.mp hj with rfl | hj
            · exact haddr
            · exact hfound j hj
          | some found =>
            obtain ⟨skipped, post, hfirst, hsl, ha, hskip⟩ := hfound
            refine ⟨i :: skipped, post, by simpa using hfirst, by simpa using hsl, ha, ?_⟩
            exact List.forall_mem_cons.mpr ⟨haddr, hskip⟩
        · rcases hlooked with ⟨⟨j, hj, hja⟩, hlast⟩ | ⟨hnone, hlast⟩
          · exact .inl ⟨⟨j, List.mem_cons_of_mem _ hj, hja⟩, hlast⟩
          · exact .inr ⟨List.forall_mem_cons.mpr ⟨haddr, hnone⟩, hlast⟩
    | nil =>
      rw [List.append_nil] at h
      obtain ⟨t, p, hflip, hp, ht, hsame⟩ := refill h
      dsimp only [List.head?_nil]
      rw [hflip]
      rcases List.eq_nil_or_concat' last with rfl | ⟨last, i, rfl⟩
      · cases hp
        exact ⟨_, none, _, _, rfl, hsame, ht, by simp, by simp [Found], .inr ⟨by simp, rfl⟩⟩
      · rw [List.reverse_append, List.reverse_singleton, List.singleton_append, List.head?_cons] at hp
        subst hp
        obtain ⟨u, res, first', last', hsearch, hsame', hu, hqueue, hfound, hlooked⟩ :=
          ih done ht (by
            rw [if_neg (by simp)] at hfuel
            simp only [List.length_nil, List.length_reverse, if_true] at hfuel ⊢
            omega)
        refine ⟨u, res, first', last', hsearch, hsame.trans hsame', hu, by simpa using hqueue, ?_,
          .inr ⟨by simp, hlooked.elim And.right And.right⟩⟩
        rw [List.reverse_nil, List.append_nil] at hfound
        cases res with
        | none => exact fun j hj => hsame.value j ▸ hfound j hj
        | some found =>
          obtain ⟨skipped, post, hfirst, hsl, ha, hskip⟩ := hfound
          exact ⟨skipped, post, hfirst, hsl, hsame.value _ ▸ ha, fun j hj => hsame.value j ▸ hskip j hj⟩

end Search

/-- The two lists of the queue in memory, each in issue order. -/
def Queue (s : ResponseHeap) (first last : List ℕ) : Prop := ∃ bads, s.Holds first last.reverse bads

section Steps

variable {s : ResponseHeap} {first last : List ℕ}

theorem Queue.nodup (h : s.Queue first last) : (first ++ last).Nodup := by
  obtain ⟨bads, hs⟩ := h
  rw [List.nodup_iff_count_le_one]
  intro i
  have := hs.count_le i
  rw [List.count_reverse] at this
  rw [List.count_append]
  omega

/-- A step that leaves the chains alone, and the cells in use. -/
theorem Queue.same (h : s.Queue first last) {t : ResponseHeap} (hcells : t.cells = s.cells)
    (hfirst : t.firstResponse = s.firstResponse) (hlast : t.lastResponse = s.lastResponse)
    (hbads : t.bads = s.bads) (hheld : t.held = s.held) (hall : t.allocated = s.allocated) :
    t.Queue first last := by
  obtain ⟨bads, hs⟩ := h
  refine ⟨bads, ⟨?_, ?_, ?_⟩, ?_, ?_⟩
  · rw [hcells, hfirst]
    exact hs.firstChain
  · rw [hcells, hlast]
    exact hs.lastChain
  · rw [hcells, hbads]
    exact hs.badChains
  · rw [hall]
    exact hs.nodup
  · rw [hheld, hall]
    exact hs.counts

theorem push_queue (h : s.Queue first last) {i : ℕ} (hi : i ∉ s.allocated) (r : Response) :
    (s.push i r).Queue first (last ++ [i]) := by
  obtain ⟨bads, hs⟩ := h
  have hnot : ∀ {l : List ℕ}, (∀ j ∈ l, j ∈ s.allocated) → i ∉ l := fun hl hmem => hi (hl i hmem)
  have hfirst : i ∉ first := hnot fun j hj => hs.mem_allocated (Or.inl hj)
  have hlast : i ∉ last.reverse := hnot fun j hj => hs.mem_allocated (Or.inr (Or.inl hj))
  have hbads : i ∉ bads.flatten := hnot fun j hj => hs.mem_allocated (Or.inr (Or.inr (Or.inl hj)))
  have hv := hs.setValue i { r with deadline := (s.timeCache + 5) % 2 ^ 16 }
  rw [Queue, List.reverse_concat]
  refine ⟨bads, ⟨⟨hv.firstChain.setNext hfirst _, hv.lastChain.push hlast, ?_⟩,
    List.nodup_cons.mpr ⟨hi, hs.nodup⟩, fun j => ?_⟩⟩
  · refine hv.bads_congr fun j hj => ?_
    have hji : j ≠ i := fun hji => hbads (hji ▸ hj)
    exact congrArg Cell.next (Heap.setNext_of_ne _ _ hji)
  · have := hs.counts j
    simp only [push, List.count_cons]
    omega

/-- Taking a response out of the queue for its callback. -/
theorem Holds.unlink (done : List ℕ) {rest last : List ℕ} {bads : List (List ℕ)} {i : ℕ}
    (h : s.Holds (done ++ i :: rest) last bads) :
    Holds { s.write (slotAfter done) (s.cells i).next with held := i :: s.held }
      (done ++ rest) last bads := by
  have hnd : (done ++ rest).Nodup := by
    rw [List.nodup_iff_count_le_one]
    intro j
    have := h.count_le j
    rw [List.count_append, List.count_cons] at this
    rw [List.count_append]
    omega
  obtain ⟨hchains, hsame⟩ := h.toChains.write h.firstChain.after hnd fun j hj =>
    ⟨(h.not_mem (List.mem_append_left _ hj)).1, (h.not_mem (List.mem_append_left _ hj)).2.1⟩
  refine ⟨⟨hchains.firstChain, hchains.lastChain, hchains.badChains⟩, ?_, fun j => ?_⟩
  · dsimp only
    rw [hsame.allocated]
    exact h.nodup
  · have := h.counts j
    rw [List.count_append, List.count_cons] at this
    dsimp only
    rw [hsame.allocated, List.count_append, List.count_cons]
    omega

theorem push_value (s : ResponseHeap) (i j : ℕ) (r : Response) : ((s.push i r).cells j).value =
    if j = i then { r with deadline := (s.timeCache + 5) % 2 ^ 16 } else (s.cells j).value := by
  rw [push, Heap.setNext_value]
  by_cases hji : j = i
  · rw [hji, if_pos rfl, Heap.setValue_self]
  · rw [if_neg hji, Heap.setValue_of_ne _ _ hji]

theorem write_value (s : ResponseHeap) (slot : Slot) (p : Option ℕ) (j : ℕ) :
    ((s.write slot p).cells j).value = (s.cells j).value := by
  cases slot with
  | first => rfl
  | next i => exact s.cells.setNext_value ..

theorem write_timeCache (s : ResponseHeap) (slot : Slot) (p : Option ℕ) : (s.write slot p).timeCache = s.timeCache := by
  cases slot <;> rfl

/-- The first response with the address takes the write-back, and leaves the queue if it was the last one. The newer
responses join the others when these have no such response. -/
theorem writeConfig_queue (h : s.Queue first last) (widths addr value : ℕ) :
    ∃ t first' last', s.writeConfig widths addr value = some t ∧ t.timeCache = s.timeCache ∧
      ((∃ j ∈ first, (s.cells j).value.address = addr &&& 0xFFFE) ∧ first' = first ∧ last' = last ∨
        (∀ j ∈ first, (s.cells j).value.address ≠ addr &&& 0xFFFE) ∧ first' = first ++ last ∧ last' = []) ∧
      ((∀ j ∈ first', (s.cells j).value.address ≠ addr &&& 0xFFFE) ∧ t.Queue first' last' ∧
          (∀ j, (t.cells j).value = (s.cells j).value) ∨
        ∃ done i rest, first' = done ++ i :: rest ∧ (s.cells i).value.address = addr &&& 0xFFFE ∧
          (∀ j ∈ done, (s.cells j).value.address ≠ addr &&& 0xFFFE) ∧
          (∀ j, (t.cells j).value =
            if j = i then ((s.cells i).value.writeBack widths addr value).1 else (s.cells j).value) ∧
          t.Queue (if ((s.cells i).value.writeBack widths addr value).2 = none then first' else done ++ rest)
            last') := by
  obtain ⟨bads, hs⟩ := h
  have hlen := hs.length_le
  obtain ⟨t, res, first', stack, hsearch, hsame, ht, hqueue, hfound, hlooked⟩ :=
    search_spec (addr &&& 0xFFFE) [] hs
      (show first.length + last.reverse.length + (if last.reverse = [] then 1 else 2) ≤ 2 * s.fuel + 2 by
        split <;> omega)
  rw [List.nil_append, List.reverse_reverse] at hqueue
  have hlists : (∃ j ∈ first, (s.cells j).value.address = addr &&& 0xFFFE) ∧ first' = first ∧ stack.reverse = last ∨
      (∀ j ∈ first, (s.cells j).value.address ≠ addr &&& 0xFFFE) ∧ first' = first ++ last ∧ stack.reverse = [] := by
    rcases hlooked with ⟨hhas, rfl⟩ | ⟨hnone, rfl⟩
    · rw [List.reverse_reverse] at hqueue
      exact .inl ⟨hhas, List.append_cancel_right hqueue, List.reverse_reverse _⟩
    · rw [List.reverse_nil, List.append_nil] at hqueue
      exact .inr ⟨hnone, hqueue, rfl⟩
  have hkept : t.Queue first' stack.reverse := ⟨bads, by rwa [List.reverse_reverse]⟩
  rw [writeConfig, show Slot.first = slotAfter [] from rfl, hsearch]
  cases res with
  | none =>
    refine ⟨t, first', stack.reverse, rfl, hsame.timeCache, hlists, Or.inl ⟨fun j hj => hfound j ?_, hkept, hsame.value⟩⟩
    rw [List.reverse_reverse, ← hqueue]
    exact List.mem_append_left _ hj
  | some found =>
    obtain ⟨slot, i⟩ := found
    obtain ⟨skipped, post, rfl, rfl, haddr, hskip⟩ := hfound
    rw [List.nil_append] at hlists hkept ht ⊢
    have hvalue : ∀ j, (t.cells.setValue i ((s.cells i).value.writeBack widths addr value).1 j).value =
        if j = i then ((s.cells i).value.writeBack widths addr value).1 else (s.cells j).value := by
      intro j
      by_cases hji : j = i
      · rw [hji, if_pos rfl, Heap.setValue_self]
      · rw [if_neg hji, Heap.setValue_of_ne _ _ hji, hsame.value]
    dsimp only
    rw [hsame.value]
    cases hdone : ((s.cells i).value.writeBack widths addr value).2 with
    | none =>
      refine ⟨_, _, _, rfl, hsame.timeCache, hlists, Or.inr ⟨skipped, i, post, rfl, haddr, hskip, hvalue, ?_⟩⟩
      rw [hdone, if_pos rfl]
      exact ⟨bads, by rw [List.reverse_reverse]; exact ht.setValue i _⟩
    | some status =>
      refine ⟨_, _, _, rfl, (write_timeCache _ _ _).trans hsame.timeCache, hlists,
        Or.inr ⟨skipped, i, post, rfl, haddr, hskip, fun j => ?_, ?_⟩⟩
      · dsimp only
        rw [write_value, hvalue]
      · rw [hdone, if_neg (Option.some_ne_none status)]
        exact ⟨bads, by rw [List.reverse_reverse]; exact Holds.unlink skipped (ht.setValue i _)⟩

theorem timeout_queue (h : s.Queue first last) :
    ∃ t v, s.timeout = some (t, v) ∧ SameRest s t ∧ t.firstResponse = (first ++ last).head? ∧
      (first = [] ∧ t.Queue last [] ∨ first ≠ [] ∧ t = s) ∧
      v = match (first ++ last).head? with
        | none => 0
        | some i => deadlineAt s.timeCache (s.cells i).value.deadline := by
  obtain ⟨bads, hs⟩ := h
  have hstart := hs.firstChain.start_eq
  rw [timeout]
  cases first with
  | nil =>
    obtain ⟨t, p, hflip, hp, ht, hsame⟩ := refill hs
    have hnone : s.firstResponse = none := hstart
    rw [List.nil_append, List.reverse_reverse] at ht
    rw [List.reverse_reverse] at hp
    rw [if_pos hnone, hflip]
    refine ⟨_, _, rfl, hsame, hp, .inl ⟨rfl, bads, ht⟩, ?_⟩
    subst hp
    cases hl : last.head? with
    | none => simp [hl]
    | some i =>
      have hv := hsame.value i
      have ht' := hsame.timeCache
      change (t.cells i).value = (s.cells i).value at hv
      change t.timeCache = s.timeCache at ht'
      simp only [List.nil_append, hl, hv, ht']
  | cons i first =>
    rw [if_neg (by simp [hstart])]
    refine ⟨_, _, rfl, SameRest.refl s, hstart, .inr ⟨List.cons_ne_nil _ _, rfl⟩, ?_⟩
    rw [hstart]
    rfl

/-- Nothing waits where the expiry loop looks, or the head of the queue leaves it when it is due. -/
theorem expire_queue (h : s.Queue first last) (now : ℕ) :
    ∃ t, s.expire now = some t ∧ t.timeCache = s.timeCache ∧ (∀ j, (t.cells j).value = (s.cells j).value) ∧
      (first = [] ∧ t.Queue first last ∨
        ∃ i rest, first = i :: rest ∧
          t.Queue (if deadlineAt s.timeCache (s.cells i).value.deadline ≤ now then rest else first) last) := by
  have hstart : s.firstResponse = first.head? := by
    obtain ⟨bads, hs⟩ := h
    exact hs.firstChain.start_eq
  rw [expire]
  cases first with
  | nil =>
    rw [List.head?_nil] at hstart
    rw [hstart]
    exact ⟨s, rfl, rfl, fun _ => rfl, .inl ⟨rfl, h⟩⟩
  | cons i rest =>
    rw [List.head?_cons] at hstart
    obtain ⟨t, v, htimeout, -, -, hkept, hv⟩ := timeout_queue h
    obtain rfl : t = s := (hkept.resolve_left fun hnil => List.cons_ne_nil _ _ hnil.1).2
    have hdue : v = deadlineAt t.timeCache (t.cells i).value.deadline := hv
    rw [hstart]
    dsimp only
    rw [htimeout]
    dsimp only
    by_cases hnow : v ≤ now
    · obtain ⟨bads, hs⟩ := h
      simp only [if_pos hnow, hstart]
      refine ⟨_, rfl, rfl, fun _ => rfl, .inr ⟨i, rest, rfl, ?_⟩⟩
      rw [if_pos (hdue ▸ hnow)]
      exact ⟨bads, Holds.unlink [] hs⟩
    · rw [if_neg hnow]
      refine ⟨_, rfl, rfl, fun _ => rfl, .inr ⟨i, rest, rfl, ?_⟩⟩
      rw [if_neg (hdue ▸ hnow)]
      exact h

/-- The responses of a device leave the queue; the others keep their order. -/
theorem kill_queue (h : s.Queue first last) (device : ℕ) :
    ∃ t, s.kill device = some t ∧ t.timeCache = s.timeCache ∧ (∀ j, (t.cells j).value = (s.cells j).value) ∧
      t.Queue ((first ++ last).filter fun i => !((s.cells i).value.device == device)) [] := by
  obtain ⟨bads, hs⟩ := h
  have hlen := hs.length_le
  have hnd := List.nodup_append.mp hs.queue_nodup
  have hdisj : ∀ i ∈ last.reverse, i ∉ first := fun i hi hf => (hs.not_mem hf).1 hi
  obtain ⟨c₁, good₁, bad₁, hdeal₁, hgood₁, hbad₁, hoff₁, hvalue₁⟩ :=
    deal_spec (fun r : Response => r.device == device) hs.lastChain Chain.nil Chain.nil
      (by simpa using hnd.2.1) (Nat.le_trans (Nat.le_add_left _ _) hlen)
  rw [List.append_nil] at hgood₁ hbad₁
  have hfirst₁ : Chain c₁ s.firstResponse first :=
    hs.firstChain.congr fun i hi => congrArg Cell.next (hoff₁ i (hs.not_mem hi).1)
  obtain ⟨c₂, flipped, hflip, hflipped, hoff₂, hvalue₂⟩ := flip_spec hfirst₁ Chain.nil
    (by simpa using hnd.1) (Nat.le_trans (Nat.le_add_right _ _) hlen)
  rw [List.append_nil] at hflipped
  have hkeep₂ : ∀ {p l}, Chain c₁ p l → (∀ i ∈ l, i ∈ last.reverse) → Chain c₂ p l := fun hc hl =>
    hc.congr fun i hi => congrArg Cell.next (hoff₂ i (hdisj i (hl i hi)))
  have hsub : ∀ {q : ℕ → Bool}, ∀ i ∈ (last.reverse.filter q).reverse, i ∈ last.reverse := fun i hi =>
    List.mem_of_mem_filter (List.mem_reverse.mp hi)
  obtain ⟨c₃, good, bad, hdeal₃, hgood, hbad, hoff₃, hvalue₃⟩ :=
    deal_spec (fun r : Response => r.device == device) hflipped
      (hkeep₂ hgood₁ hsub) (hkeep₂ hbad₁ hsub)
      (by
        rw [List.nodup_iff_count_le_one]
        intro i
        have hle := hs.count_le i
        have hsplit := (List.filter_append_perm (fun i => !((s.cells i).value.device == device))
          last.reverse).count_eq i
        simp only [List.count_append, List.count_reverse, Bool.not_not] at hsplit hle ⊢
        omega)
      (show first.reverse.length ≤ s.fuel by
        rw [List.length_reverse]
        exact Nat.le_trans (Nat.le_add_right _ _) hlen)
  simp only [hvalue₂, hvalue₁, ← List.filter_reverse, List.reverse_reverse, ← List.filter_append]
    at hgood hbad
  refine ⟨{ s with cells := c₃, firstResponse := good, lastResponse := none, bads := bad :: s.bads },
    by rw [kill, hdeal₁]; dsimp only; rw [hflip]; dsimp only; rw [hdeal₃], rfl, fun j => ?_, ?_⟩
  · exact (hvalue₃ j).trans ((hvalue₂ j).trans (hvalue₁ j))
  · refine ⟨_ :: bads, ⟨hgood, .nil, .cons hbad ?_⟩, hs.nodup, fun i => ?_⟩
    · refine hs.bads_congr fun i hi => ?_
      have hf : i ∉ first := fun hf => (hs.not_mem hf).2.1 hi
      have hl : i ∉ last.reverse := fun hl => (hs.not_mem_last hl).2.1 hi
      exact congrArg Cell.next
        ((hoff₃ i (by simpa using hf)).trans ((hoff₂ i hf).trans (hoff₁ i hl)))
    · have hcounts := hs.counts i
      have hsplit := (List.filter_append_perm (fun i => !((s.cells i).value.device == device))
        (first ++ last)).count_eq i
      simp only [List.count_append, Bool.not_not] at hsplit
      rw [List.count_reverse] at hcounts
      simp only [List.flatten_cons, List.count_append, List.reverse_nil, List.count_nil, ← hcounts]
      omega

theorem reap_queue (h : s.Queue first last) {t : ResponseHeap} (hreap : s.reap = some t) :
    t.Queue first last ∧ t.cells = s.cells ∧ t.timeCache = s.timeCache := by
  obtain ⟨bads, hs⟩ := h
  have hb := hs.badChains
  rw [reap] at hreap
  cases hbads : s.bads with
  | nil => simp [hbads] at hreap
  | cons p rest =>
    rw [hbads] at hreap hb
    cases hb with
    | cons hc hrest =>
      rename_i l bs
      cases hc with
      | nil =>
        cases hreap
        exact ⟨⟨bs, ⟨hs.firstChain, hs.lastChain, hrest⟩, hs.nodup, hs.counts⟩, rfl, rfl⟩
      | cons hc =>
        cases hreap
        refine ⟨⟨_ :: bs, ⟨hs.firstChain, hs.lastChain, .cons hc hrest⟩, hs.nodup, fun i => ?_⟩, rfl, rfl⟩
        have := hs.counts i
        simp only [List.flatten_cons, List.count_append, List.count_cons, List.cons_append] at this ⊢
        omega

theorem free_queue (h : s.Queue first last) {i : ℕ} {t : ResponseHeap} (hfree : s.free i = some t) :
    t.Queue first last ∧ t.cells = s.cells ∧ t.timeCache = s.timeCache := by
  obtain ⟨bads, hs⟩ := h
  rw [free] at hfree
  split at hfree
  · rename_i hi
    cases hfree
    refine ⟨⟨bads, ⟨hs.firstChain, hs.lastChain, hs.badChains⟩, hs.nodup.erase i, fun j => ?_⟩, rfl, rfl⟩
    have hc := hs.counts j
    have hpos := List.count_pos_iff.mpr hi
    dsimp only
    rw [List.count_erase, List.count_erase]
    by_cases hij : i = j
    · subst hij
      simp only [beq_self_eq_true, if_true]
      omega
    · have : (i == j) = false := by simpa using hij
      simp only [this, Bool.false_eq_true, if_false]
      omega
  · simp at hfree

end Steps

section Log

theorem pending_append (log : List QueueEvent) (e : QueueEvent) : pending (log ++ [e]) =
    match e with
    | .issued i => pending log ++ [i]
    | .completed i _ | .expired i | .killed i => (pending log).erase i := by
  rw [pending, List.foldl_append]
  cases e <;> rfl

theorem pending_killed (log : List QueueEvent) (killed : List ℕ) :
    pending (log ++ killed.map .killed) = (pending log).diff killed := by
  induction killed generalizing log with
  | nil => simp
  | cons i killed ih =>
    rw [List.map_cons, List.append_cons, ih, pending_append, List.diff_cons]

/-- Taking the chosen elements out of a list leaves the others. -/
theorem diff_filter {l : List ℕ} (hnd : l.Nodup) {p : ℕ → Bool} :
    l.diff (l.filter p) = l.filter fun i => !p i := by
  rw [hnd.sdiff_eq_filter]
  refine List.filter_congr fun i hi => ?_
  cases hp : p i <;> simp [hi, hp]

theorem erase_middle {done rest : List ℕ} {i : ℕ} (h : (done ++ i :: rest).Nodup) :
    (done ++ i :: rest).erase i = done ++ rest := by
  have hi : i ∉ done := by
    have := List.nodup_middle.mp h
    rw [List.nodup_cons, List.mem_append, not_or] at this
    exact this.1.1
  rw [List.erase_append_right _ hi, List.erase_cons_head]

end Log

/-- The queue in memory: two disjoint chains without a cycle, the newer responses in reverse, with the responses they
should have. -/
structure IsQueue (s : ResponseHeap) (first last : List (ℕ × Response)) : Prop where
  firstChain : Chain s.cells s.firstResponse (first.map Prod.fst)
  lastChain : Chain s.cells s.lastResponse (last.map Prod.fst).reverse
  nodup : ((first ++ last).map Prod.fst).Nodup
  values : ∀ e ∈ first ++ last, (s.cells e.1).value = e.2

/-- The memory holds the queue, and the queue is what was issued and has not left it. -/
structure Intact (s : ResponseHeap) (q : InFlight) : Prop where
  clock : s.timeCache = q.clock
  queue : s.Queue (q.first.map Prod.fst) (q.last.map Prod.fst)
  values : ∀ e ∈ q.queue, (s.cells e.1).value = e.2
  pending : pending q.log = q.queue.map Prod.fst

theorem Intact.nodup {s : ResponseHeap} {q : InFlight} (h : s.Intact q) : (q.queue.map Prod.fst).Nodup := by
  rw [InFlight.queue, List.map_append]
  exact h.queue.nodup

theorem Intact.isQueue {s : ResponseHeap} {q : InFlight} (h : s.Intact q) : s.IsQueue q.first q.last := by
  obtain ⟨bads, hs⟩ := h.queue
  exact ⟨hs.firstChain, hs.lastChain, h.nodup, h.values⟩

theorem start_intact : start.Intact {} :=
  ⟨rfl, ⟨[], ⟨.nil, .nil, .nil⟩, List.nodup_nil, fun _ => rfl⟩, by simp [InFlight.queue], rfl⟩

section Intact

variable {s t : ResponseHeap} {q : InFlight}

/-- A response of the queue is the one in its cell. -/
theorem find_cell {l : List (ℕ × Response)} (hl : ∀ e ∈ l, (s.cells e.1).value = e.2) {done rest : List ℕ} {i : ℕ}
    (hsplit : l.map Prod.fst = done ++ i :: rest) :
    ∃ before after, l = before ++ (i, (s.cells i).value) :: after ∧ before.map Prod.fst = done ∧
      after.map Prod.fst = rest := by
  obtain ⟨before, tail, rfl, hbefore, htail⟩ := List.map_eq_append_iff.mp hsplit
  obtain ⟨e, after, rfl, rfl, hafter⟩ := List.map_eq_cons_iff.mp htail
  have hvalue : (s.cells e.1).value = e.2 := hl e (by simp)
  exact ⟨before, after, by rw [hvalue], hbefore, hafter⟩

/-- A write-back passes over responses with other addresses. -/
theorem answer_skip {widths addr value : ℕ} {before queue : List (ℕ × Response)}
    (h : ∀ e ∈ before, e.2.address ≠ addr &&& 0xFFFE) :
    InFlight.answer widths addr value (before ++ queue) =
      (before ++ (InFlight.answer widths addr value queue).1, (InFlight.answer widths addr value queue).2) := by
  induction before with
  | nil => rfl
  | cons e before ih =>
    obtain ⟨hfirst, hrest⟩ := List.forall_mem_cons.mp h
    rw [List.cons_append, InFlight.answer, if_neg hfirst, ih hrest]
    rfl

/-- When one response changes, the others are what they were. -/
theorem values_change {before rest : List (ℕ × Response)} {i : ℕ} {r r' : Response}
    (hvalue : ∀ e ∈ before ++ (i, r) :: rest, (s.cells e.1).value = e.2)
    (hnodup : (before.map Prod.fst ++ i :: rest.map Prod.fst).Nodup)
    (hchange : ∀ j, (t.cells j).value = if j = i then r' else (s.cells j).value) :
    ∀ e ∈ before ++ (i, r') :: rest, (t.cells e.1).value = e.2 := by
  have hother : ∀ e ∈ before ++ rest, (t.cells e.1).value = e.2 := by
    intro e he
    have hne : e.1 ≠ i := by
      have hnot := (List.nodup_cons.mp (List.nodup_middle.mp hnodup)).1
      rw [← List.map_append] at hnot
      exact fun heq => hnot (heq ▸ List.mem_map_of_mem he)
    rw [hchange, if_neg hne]
    apply hvalue
    rcases List.mem_append.mp he with he | he
    · exact List.mem_append_left _ he
    · exact List.mem_append_right _ (List.mem_cons_of_mem _ he)
  intro e he
  rcases List.mem_append.mp he with he | he
  · exact hother e (List.mem_append_left _ he)
  · rcases List.mem_cons.mp he with rfl | he
    · rw [hchange, if_pos rfl]
    · exact hother e (List.mem_append_right _ he)

theorem join_queue (q : InFlight) : q.join.queue = q.queue := List.append_nil _

/-- A search changes neither the queue nor the log. -/
theorem look_same (q : InFlight) (addr : ℕ) :
    (q.look addr).clock = q.clock ∧ (q.look addr).queue = q.queue ∧ (q.look addr).log = q.log := by
  rw [InFlight.look]
  split
  · exact ⟨rfl, rfl, rfl⟩
  · exact ⟨rfl, join_queue q, rfl⟩

/-- The lists after a search in memory are those of the search that is meant. -/
theorem Intact.look (h : s.Intact q) {addr : ℕ} {first last : List ℕ}
    (hlists : (∃ j ∈ q.first.map Prod.fst, (s.cells j).value.address = addr) ∧
        first = q.first.map Prod.fst ∧ last = q.last.map Prod.fst ∨
      (∀ j ∈ q.first.map Prod.fst, (s.cells j).value.address ≠ addr) ∧
        first = q.first.map Prod.fst ++ q.last.map Prod.fst ∧ last = []) :
    (q.look addr).first.map Prod.fst = first ∧ (q.look addr).last.map Prod.fst = last := by
  have hvalue : ∀ e ∈ q.first, (s.cells e.1).value = e.2 := fun e he => h.values e (List.mem_append_left _ he)
  rw [InFlight.look]
  rcases hlists with ⟨⟨j, hj, haddr⟩, rfl, rfl⟩ | ⟨hnone, rfl, rfl⟩
  · obtain ⟨e, he, rfl⟩ := List.mem_map.mp hj
    rw [hvalue e he] at haddr
    have hany : (q.first.any fun e => e.2.address == addr) = true := List.any_eq_true.mpr ⟨e, he, by simpa using haddr⟩
    rw [if_pos hany]
    exact ⟨rfl, rfl⟩
  · have hany : ¬ (q.first.any fun e => e.2.address == addr) = true := by
      intro hany
      obtain ⟨e, he, haddr⟩ := List.any_eq_true.mp hany
      apply hnone e.1 (List.mem_map_of_mem he)
      rw [hvalue e he]
      exact beq_iff_eq.mp haddr
    rw [if_neg hany]
    exact ⟨List.map_append, rfl⟩

theorem next_push (q : InFlight) (i : ℕ) (r : Response) : (q.next (.push i r)).queue =
    q.queue ++ [(i, { r with deadline := (q.clock + 5) % 2 ^ 16 })] :=
  (List.append_assoc ..).symm

theorem Intact.push (h : s.Intact q) {i : ℕ} (hi : i ∉ s.allocated) (r : Response) :
    (s.push i r).Intact (q.next (.push i r)) where
  clock := h.clock
  queue := by
    have hqueue := push_queue h.queue hi r
    rwa [InFlight.next, List.map_append]
  values e he := by
    rw [push_value]
    rw [next_push] at he
    rcases List.mem_append.mp he with hold | hnew
    · have hne : e.1 ≠ i := by
        intro heq
        obtain ⟨bads, hs⟩ := h.queue
        apply hi
        rw [← heq]
        apply hs.mem_allocated
        rcases List.mem_append.mp hold with hfirst | hlast
        · exact Or.inl (List.mem_map_of_mem hfirst)
        · exact Or.inr (Or.inl (List.mem_reverse.mpr (List.mem_map_of_mem hlast)))
      rw [if_neg hne]
      exact h.values e hold
    · rw [List.mem_singleton.mp hnew, if_pos rfl, h.clock]
  pending := by
    rw [next_push, InFlight.next, pending_append, h.pending, List.map_append]
    rfl

theorem Intact.writeConfig (h : s.Intact q) (widths addr value : ℕ) (ht : s.writeConfig widths addr value = some t) :
    t.Intact (q.next (.writeConfig widths addr value)) := by
  obtain ⟨u, first, last, hu, htime, hlists, hcase⟩ := writeConfig_queue h.queue widths addr value
  cases hu.symm.trans ht
  obtain ⟨rfl, rfl⟩ := h.look hlists
  obtain ⟨hclock, hqueue, hlog⟩ := look_same q (addr &&& 0xFFFE)
  have hvalue := h.values
  have hpending := h.pending
  have hnodup := h.nodup
  rw [← hqueue] at hvalue hpending hnodup
  rw [InFlight.next]
  -- from here on the search is over, and only its lists matter
  generalize q.look (addr &&& 0xFFFE) = p at hclock hlog hvalue hpending hnodup hcase ⊢
  rw [InFlight.queue] at hvalue hpending hnodup
  have hfirst : ∀ e ∈ p.first, (s.cells e.1).value = e.2 := fun e he => hvalue e (List.mem_append_left _ he)
  have htime' : t.timeCache = p.clock := by rw [htime, h.clock, hclock]
  rw [← hlog] at hpending
  rcases hcase with ⟨hnone, ht, hvalues⟩ | ⟨done, i, rest, hsplit, haddr, hdone, hvalues, ht⟩
  · have hskip : ∀ e ∈ p.first, e.2.address ≠ addr &&& 0xFFFE := by
      intro e he
      rw [← hfirst e he]
      exact hnone e.1 (List.mem_map_of_mem he)
    have hanswer : InFlight.answer widths addr value p.first = (p.first, []) := by
      simpa [InFlight.answer] using @answer_skip widths addr value p.first [] hskip
    rw [hanswer]
    refine ⟨htime', ht, fun e he => (hvalues e.1).trans (hvalue e he), ?_⟩
    dsimp only
    rw [List.append_nil]
    exact hpending
  · obtain ⟨before, after, hq, rfl, rfl⟩ := find_cell hfirst hsplit
    have hskip : ∀ e ∈ before, e.2.address ≠ addr &&& 0xFFFE := by
      intro e he
      rw [← hfirst e (by simp [hq, he])]
      exact hdone e.1 (List.mem_map_of_mem he)
    rw [hq, List.append_assoc, List.cons_append] at hvalue hpending hnodup
    rw [List.map_append, List.map_cons] at hpending hnodup
    have hvalue' := values_change hvalue hnodup hvalues
    rw [hq, answer_skip hskip, InFlight.answer, if_pos haddr]
    cases hdone : (s.cells i).value.writeBack widths addr value with
    | mk r result =>
      rw [hdone] at hvalue' ht
      cases result with
      | none =>
        refine ⟨htime', ?_, fun e he => hvalue' e ?_, ?_⟩
        · rw [if_pos rfl, hsplit] at ht
          simpa using ht
        · rwa [InFlight.queue, List.append_assoc, List.cons_append] at he
        · rw [InFlight.queue, List.append_assoc, List.cons_append, List.map_append, List.map_cons]
          dsimp only
          rw [List.append_nil]
          exact hpending
      | some status =>
        refine ⟨htime', ?_, fun e he => hvalue' e ?_, ?_⟩
        · rw [if_neg (Option.some_ne_none status)] at ht
          simpa using ht
        · rw [InFlight.queue, List.append_assoc] at he
          rcases List.mem_append.mp he with he | he
          · exact List.mem_append_left _ he
          · exact List.mem_append_right _ (List.mem_cons_of_mem _ he)
        · rw [InFlight.queue, List.append_assoc, List.map_append]
          dsimp only
          rw [pending_append, hpending]
          exact erase_middle hnodup

theorem Intact.expire (h : s.Intact q) (now : ℕ) (ht : s.expire now = some t) :
    t.Intact (q.next (.expire now)) := by
  obtain ⟨u, hu, htime, hvalues, hcase⟩ := expire_queue h.queue now
  cases hu.symm.trans ht
  have hclock := htime.trans h.clock
  have hvalue : ∀ e ∈ q.queue, (t.cells e.1).value = e.2 := fun e he => (hvalues e.1).trans (h.values e he)
  rw [InFlight.next]
  rcases hcase with ⟨hempty, hqueue⟩ | ⟨i, rest, hsplit, hqueue⟩
  · rw [List.map_eq_nil_iff.mp hempty]
    exact ⟨hclock, hqueue, hvalue, h.pending⟩
  · rw [h.clock] at hqueue
    obtain ⟨before, after, hq, hbefore, rfl⟩ := @find_cell s q.first
      (fun e he => h.values e (List.mem_append_left _ he)) [] rest i hsplit
    rw [List.map_eq_nil_iff.mp hbefore, List.nil_append] at hq
    rw [hq]
    dsimp only
    by_cases hdue : deadlineAt q.clock (s.cells i).value.deadline ≤ now
    · rw [if_pos hdue] at hqueue ⊢
      refine ⟨hclock, hqueue, fun e he => hvalue e ?_, ?_⟩
      · rw [InFlight.queue, hq]
        exact List.mem_cons_of_mem _ he
      · rw [pending_append, h.pending, InFlight.queue, hq]
        exact List.erase_cons_head ..
    · rw [if_neg hdue] at hqueue ⊢
      exact ⟨hclock, hqueue, hvalue, h.pending⟩

theorem Intact.timeout (h : s.Intact q) {v : ℕ} (ht : s.timeout = some (t, v)) : t.Intact (q.next .timeout) := by
  obtain ⟨u, w, hu, hsame, -, hcase, -⟩ := timeout_queue h.queue
  cases hu.symm.trans ht
  have hclock := hsame.timeCache.trans h.clock
  have hvalue : ∀ e ∈ q.queue, (t.cells e.1).value = e.2 := fun e he => (hsame.value e.1).trans (h.values e he)
  rw [InFlight.next]
  rcases hcase with ⟨hempty, hqueue⟩ | ⟨hsome, rfl⟩
  · have hnil := List.map_eq_nil_iff.mp hempty
    rw [if_pos (by rw [hnil, List.isEmpty_nil])]
    refine ⟨hclock, ?_, by rwa [join_queue], by rw [join_queue]; exact h.pending⟩
    rw [InFlight.join, InFlight.queue, hnil, List.nil_append]
    exact hqueue
  · have hcons : q.first ≠ [] := fun hnil => hsome (by rw [hnil, List.map_nil])
    rw [if_neg (by rwa [List.isEmpty_iff])]
    exact h

/-- The responses of a device are those that a kill takes out of the queue, by their cells as by their values. -/
theorem Intact.filter_device (h : s.Intact q) (p : ℕ → Bool) :
    (q.queue.map Prod.fst).filter (fun i => p (s.cells i).value.device) =
      (q.queue.filter fun e => p e.2.device).map Prod.fst := by
  rw [List.filter_map]
  congr 1
  refine List.filter_congr fun e he => ?_
  rw [Function.comp_apply, h.values e he]

theorem Intact.kill (h : s.Intact q) (device : ℕ) (ht : s.kill device = some t) :
    t.Intact (q.next (.kill device)) := by
  obtain ⟨u, hu, htime, hvalues, hqueue⟩ := kill_queue h.queue device
  cases hu.symm.trans ht
  rw [← List.map_append] at hqueue
  have hkept := h.filter_device fun d => !(d == device)
  have hkilled := h.filter_device fun d => d == device
  have hqueue' : (q.next (.kill device)).queue = q.queue.filter fun e => !(e.2.device == device) := List.append_nil _
  refine ⟨htime.trans h.clock, hkept ▸ hqueue, fun e he => ?_, ?_⟩
  · rw [hqueue'] at he
    exact (hvalues e.1).trans (h.values e (List.mem_of_mem_filter he))
  · have hlog : (q.queue.filter fun e => e.2.device == device).map (fun e => QueueEvent.killed e.1) =
        ((q.queue.filter fun e => e.2.device == device).map Prod.fst).map .killed := by rw [List.map_map]; rfl
    rw [hqueue', InFlight.next, hlog, pending_killed, h.pending, ← hkilled, diff_filter h.nodup]
    exact hkept

theorem Intact.step {act : QueueAct} (h : s.Intact q) (hstep : s.step act = some t) : t.Intact (q.next act) := by
  cases act with
  | push i r =>
    rw [ResponseHeap.step] at hstep
    split at hstep
    · cases hstep
    · rename_i hi
      cases hstep
      exact h.push hi r
  | writeConfig widths addr value => exact h.writeConfig widths addr value hstep
  | timeout =>
    obtain ⟨⟨u, v⟩, hu, rfl⟩ := Option.map_eq_some_iff.mp hstep
    exact h.timeout hu
  | expire now => exact h.expire now hstep
  | tick now =>
    cases hstep
    exact ⟨rfl, h.queue.same rfl rfl rfl rfl rfl rfl, h.values, h.pending⟩
  | kill device => exact h.kill device hstep
  | reap =>
    obtain ⟨hqueue, hcells, htime⟩ := reap_queue h.queue hstep
    exact ⟨htime.trans h.clock, hqueue, fun e he => by rw [hcells, h.values e he], h.pending⟩
  | free i =>
    obtain ⟨hqueue, hcells, htime⟩ := free_queue h.queue hstep
    exact ⟨htime.trans h.clock, hqueue, fun e he => by rw [hcells, h.values e he], h.pending⟩

theorem Intact.run {acts : List QueueAct} (h : s.Intact q) (hrun : StepRuns.run ResponseHeap.step s acts = some t) :
    t.Intact (acts.foldl InFlight.next q) := by
  induction acts generalizing s q with
  | nil =>
    cases hrun
    exact h
  | cons act acts ih =>
    rw [StepRuns.run_cons] at hrun
    obtain ⟨u, hu, hrest⟩ := Option.bind_eq_some_iff.mp hrun
    exact ih (h.step hu) hrest

/-- The steps that can be taken: a new response needs a free cell, only a list of bad
responses can be worked off, and only a response called back is freed. -/
def Enabled (s : ResponseHeap) : QueueAct → Prop
  | .push i _ => i ∉ s.allocated
  | .reap => s.bads ≠ []
  | .free i => i ∈ s.held
  | .writeConfig .. | .timeout | .expire _ | .tick _ | .kill _ => True

theorem Intact.enabled (h : s.Intact q) (act : QueueAct) (he : s.Enabled act) : ∃ t, s.step act = some t := by
  cases act with
  | push i r => exact ⟨_, if_neg he⟩
  | writeConfig widths addr value =>
    obtain ⟨t, first, last, ht, -⟩ := writeConfig_queue h.queue widths addr value
    exact ⟨t, ht⟩
  | timeout =>
    obtain ⟨t, v, ht, -⟩ := timeout_queue h.queue
    exact ⟨t, by rw [ResponseHeap.step, ht]; rfl⟩
  | expire now =>
    obtain ⟨t, ht, -⟩ := expire_queue h.queue now
    exact ⟨t, ht⟩
  | tick now => exact ⟨_, rfl⟩
  | kill device =>
    obtain ⟨t, ht, -⟩ := kill_queue h.queue device
    exact ⟨t, ht⟩
  | reap =>
    rw [ResponseHeap.step, reap]
    cases hb : s.bads with
    | nil => exact absurd hb he
    | cons p rest => cases p <;> exact ⟨_, rfl⟩
  | free i => exact ⟨_, if_pos he⟩

end Intact

/-- The memory holds the responses issued and neither completed, expired nor killed, each once and in issue order,
every step comes to its end, and killing a device only takes out its own responses. -/
structure QueueIntegrity (s : ResponseHeap) (q : InFlight) : Prop where
  queue : s.IsQueue q.first q.last
  pending : q.queue.map Prod.fst = pending q.log
  steps : ∀ act, s.Enabled act → ∃ t, s.step act = some t
  kill : ∀ device, ∃ t, s.kill device = some t ∧ t.IsQueue (q.queue.filter fun e => !(e.2.device == device)) []

/-- In every run of its steps the response queue is the one that the steps mean. -/
theorem queue_integrity {acts : List QueueAct} {s : ResponseHeap}
    (hrun : StepRuns.run ResponseHeap.step start acts = some s) : s.QueueIntegrity (InFlight.after acts) := by
  have h := start_intact.run hrun
  refine ⟨h.isQueue, h.pending.symm, fun act he => h.enabled act he, fun device => ?_⟩
  obtain ⟨t, ht⟩ := h.enabled (.kill device) trivial
  exact ⟨t, ht, (h.step ht).isQueue⟩

/-- Two responses of different devices, the first of which is answered. -/
def answerFirst : List QueueAct :=
  [.push 0 ⟨0x8000, 0, 1, [], some 0, none⟩, .push 1 ⟨0x8002, 0, 2, [], some 0, none⟩, .writeConfig 0x44 0x8000 7]

theorem queue_integrity_two : ∃ s, StepRuns.run step start answerFirst = some s ∧
    s.QueueIntegrity (InFlight.after answerFirst) ∧
    (InFlight.after answerFirst).log = [.issued 0, .issued 1, .completed 0 .ok] :=
  ⟨_, rfl, @queue_integrity answerFirst _ rfl, rfl⟩

end ResponseHeap

end WhiteRabbit.Etherbone
