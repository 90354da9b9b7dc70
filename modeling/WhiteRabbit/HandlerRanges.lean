import WhiteRabbit.CellLedger
import WhiteRabbit.MemoryPool
import WhiteRabbit.SocketAccess

/-!
# Attaching handlers to a socket

A handler takes two cells of the pool, one for its device and one for its callbacks. The ranges of
the handlers attached to a socket do not overlap and lie above the reserved range, so the scan of
their list dispatches an access the same way in whatever order they were attached.
-/

namespace WhiteRabbit.Etherbone
open CellLedger StepRuns

section Dispatch

variable {α : Type*}

/-- Where no two elements have a property, a permutation finds the same one. -/
theorem find?_perm {p : α → Bool} {l l' : List α} (hpair : l.Pairwise fun a b => ¬ (p a = true ∧ p b = true))
    (hperm : l.Perm l') : l.find? p = l'.find? p := by
  rw [← List.head?_filter, ← List.head?_filter]
  have hfilter := hperm.filter p
  have hnone := hpair.filter p
  cases hl : l.filter p with
  | nil =>
    rw [hl] at hfilter
    rw [List.nil_perm.mp hfilter]
  | cons a rest =>
    cases rest with
    | nil =>
      rw [hl] at hfilter
      rw [List.singleton_perm.mp hfilter]
    | cons b rest =>
      rw [hl] at hnone
      have ha : a ∈ l.filter p := by simp [hl]
      have hb : b ∈ l.filter p := by simp [hl]
      exact absurd ⟨(List.mem_filter.mp ha).2, (List.mem_filter.mp hb).2⟩
        ((List.pairwise_cons.mp hnone).1 b List.mem_cons_self)

end Dispatch

/-- A handler in the list of a socket: its two cells, the record of its device, and what the record and the
callbacks say. Records have addresses of 64 bits. -/
structure Attached (σ : Type) where
  address : ℕ
  callback : ℕ
  record : ℕ
  handler : Handler σ

structure HandlerTable (σ : Type) where
  pool : UsedPool
  handlers : List (Attached σ) := []

/-- User code attaches and detaches handlers, and other objects use the pool. The two flags say whether the array
can be extended for the cells of the handler. -/
inductive HandlerAct (σ : Type) where
  | attach (record : ℕ) (handler : Handler σ) (reallocAddress reallocCallback : Bool)
  | detach (record : ℕ)
  | others (act : MemoryAct)

/-- What an access sees of a handler: addresses are cut to the bus size, `word` bytes. -/
def Attached.dispatch {σ : Type} (word : ℕ) (a : Attached σ) : Handler σ :=
  { a.handler with
    addrFirst := a.handler.addrFirst % 256 ^ word
    addrLast := a.handler.addrLast % 256 ^ word }

def Attached.cells {σ : Type} (a : Attached σ) : List ℕ := [a.address, a.callback]

namespace HandlerTable

variable {σ : Type}

def start (array : MemoryArray) : HandlerTable σ where
  pool := UsedPool.start array

/-- What the list of the socket looks like to an access. -/
def dispatch (word : ℕ) (t : HandlerTable σ) : List (Handler σ) := t.handlers.map (Attached.dispatch word)

/-- Whether the address range is not supported by the bus size, or in the reserved memory range. -/
def refused (word : ℕ) (h : Handler σ) : Bool :=
  let newFirst := h.addrFirst % 256 ^ word
  let newLast := h.addrLast % 256 ^ word
  newFirst != h.addrFirst || newLast != h.addrLast || decide (newFirst < 0x4000)

/-- Do the address ranges overlap? -/
def overlaps (word : ℕ) (h : Handler σ) (a : Attached σ) : Bool :=
  let newFirst := h.addrFirst % 256 ^ word
  let newLast := h.addrLast % 256 ^ word
  let devFirst := (a.dispatch word).addrFirst
  let devLast := (a.dispatch word).addrLast
  decide (newFirst ≤ devLast) && decide (devFirst ≤ newLast)

def ebSocketAttach (array : MemoryArray) (word : ℕ) (t : HandlerTable σ) (record : ℕ) (h : Handler σ)
    (reallocAddress reallocCallback : Bool) : HandlerTable σ × Status :=
  let (pool, addressp) := t.pool.ebNewMemoryItem array reallocAddress
  if addressp = ebNull then ({ t with pool := pool }, .oom)
  else
    let (pool, callbackp) := pool.ebNewMemoryItem array reallocCallback
    if callbackp = ebNull then ({ t with pool := pool.ebFreeMemoryItem addressp }, .oom)
    else if refused word h then ({ t with pool := pool }, .address)
    else if t.handlers.any (overlaps word h) then
      ({ t with pool := (pool.ebFreeMemoryItem callbackp).ebFreeMemoryItem addressp }, .address)
    else ({ pool := pool, handlers := ⟨addressp, callbackp, record, h⟩ :: t.handlers }, .ok)

def ebSocketDetach (t : HandlerTable σ) (record : ℕ) : HandlerTable σ × Status :=
  match t.handlers.find? fun a => a.record == record with
  | none => (t, .address)
  | some a =>
    ({ pool := (t.pool.ebFreeMemoryItem a.callback).ebFreeMemoryItem a.address
       handlers := t.handlers.eraseP fun a => a.record == record }, .ok)

/-- The cells that the handlers use. -/
def cells (t : HandlerTable σ) : List ℕ := t.handlers.flatMap Attached.cells

/-- The cell that the user of another object works on. -/
def otherCell : MemoryAct → Option ℕ
  | .alloc _ => none
  | .free item => some item
  | .write item _ => some item

def step (array : MemoryArray) (word : ℕ) (t : HandlerTable σ) : HandlerAct σ → Option (HandlerTable σ)
  | .attach record h reallocAddress reallocCallback =>
    some (ebSocketAttach array word t record h reallocAddress reallocCallback).1
  | .detach record => some (t.ebSocketDetach record).1
  | .others act =>
    if (otherCell act).any fun cell => cell ∈ t.cells then none
    else (t.pool.step array act).map fun pool => { t with pool := pool }

end HandlerTable

/-- The addresses of a handler. -/
def Handler.Covers {σ : Type} (h : Handler σ) (a : ℕ) : Prop := h.addrFirst ≤ a ∧ a ≤ h.addrLast

instance {σ : Type} (h : Handler σ) (a : ℕ) : Decidable (h.Covers a) := inferInstanceAs (Decidable (_ ∧ _))

namespace HandlerTable

variable {σ : Type} {array : MemoryArray} {word : ℕ} {t t' : HandlerTable σ} {record : ℕ} {h : Handler σ}
  {reallocAddress reallocCallback : Bool}

/-- Handlers do not share addresses, and they have only addresses above the reserved range. -/
structure Ranged (word : ℕ) (handlers : List (Handler σ)) : Prop where
  disjoint : handlers.Pairwise fun g h => ∀ a, ¬ (g.Covers a ∧ h.Covers a)
  within : ∀ h ∈ handlers, ∀ a, h.Covers a → 0x4000 ≤ a ∧ a < 256 ^ word

theorem Ranged.findHandler_perm {handlers others : List (Handler σ)} (hr : Ranged word handlers)
    (hperm : handlers.Perm others) (a : ℕ) : findHandler others a = findHandler handlers a := by
  symm
  apply find?_perm _ hperm
  apply hr.disjoint.imp
  intro g h hgh hboth
  exact hgh a ⟨of_decide_eq_true hboth.1, of_decide_eq_true hboth.2⟩

/-- An access goes to the same handler in whatever order the handlers were attached, and below the reserved
limit to none. -/
structure Dispatches (word : ℕ) (t : HandlerTable σ) : Prop where
  ranged : Ranged word (t.dispatch word)
  write : ∀ others : List (Handler σ), (t.dispatch word).Perm others → ∀ s widths addrB addrL value,
    ebSocketWrite others s widths addrB addrL value = ebSocketWrite (t.dispatch word) s widths addrB addrL value
  read : ∀ others : List (Handler σ), (t.dispatch word).Perm others → ∀ sdb s widths addrB addrL,
    ebSocketRead others sdb s widths addrB addrL = ebSocketRead (t.dispatch word) sdb s widths addrB addrL
  reservedWrite : ∀ s widths addrB addrL value, addrB < 0x4000 →
    ebSocketWrite (t.dispatch word) s widths addrB addrL value = ebSocketWrite [] s widths addrB addrL value
  reservedRead : ∀ sdb s widths addrB addrL, addrB < 0x4000 →
    ebSocketRead (t.dispatch word) sdb s widths addrB addrL = ebSocketRead [] sdb s widths addrB addrL

theorem Ranged.dispatches (hr : Ranged word (t.dispatch word)) : t.Dispatches word where
  ranged := hr
  write others hperm s widths addrB addrL value := by rw [ebSocketWrite, ebSocketWrite, hr.findHandler_perm hperm]
  read others hperm sdb s widths addrB addrL := by rw [ebSocketRead, ebSocketRead, hr.findHandler_perm hperm]
  reservedWrite s widths addrB addrL value ha := by rw [ebSocketWrite, ebSocketWrite, if_pos ha, if_pos ha]
  reservedRead sdb s widths addrB addrL ha := by rw [ebSocketRead, ebSocketRead, if_pos ha, if_pos ha]

/-- A handler that passes the checks keeps away from the others. -/
theorem Ranged.attach (hr : Ranged word (t.dispatch word)) (hrefused : refused word h = false)
    (hoverlaps : t.handlers.any (overlaps word h) = false) (address callback : ℕ) :
    Ranged word (((⟨address, callback, record, h⟩ : Attached σ) :: t.handlers).map (Attached.dispatch word)) where
  disjoint := by
    rw [List.map_cons, List.pairwise_cons]
    refine ⟨fun g hg a hboth => ?_, hr.disjoint⟩
    obtain ⟨other, hother, rfl⟩ := List.mem_map.mp hg
    have hnot := List.any_eq_false.mp hoverlaps other hother
    obtain ⟨hnew, hold⟩ := hboth
    apply hnot
    rw [overlaps, Bool.and_eq_true]
    exact ⟨decide_eq_true (Nat.le_trans hnew.1 hold.2), decide_eq_true (Nat.le_trans hold.1 hnew.2)⟩
  within := by
    rw [List.map_cons]
    refine List.forall_mem_cons.mpr ⟨fun a ha => ?_, hr.within⟩
    have hlow : ¬ h.addrFirst % 256 ^ word < 0x4000 := by
      intro hlt
      simp [refused, hlt] at hrefused
    have hlast : h.addrLast % 256 ^ word < 256 ^ word := Nat.mod_lt _ (Nat.pow_pos (by omega))
    exact ⟨Nat.le_trans (Nat.le_of_not_lt hlow) ha.1, Nat.lt_of_le_of_lt ha.2 hlast⟩

theorem Ranged.step (hr : Ranged word (t.dispatch word)) {act : HandlerAct σ}
    (hs : t.step array word act = some t') :
    Ranged word (t'.dispatch word) := by
  cases act with
  | attach record h reallocAddress reallocCallback =>
    rw [HandlerTable.step, ebSocketAttach] at hs
    obtain ⟨⟨pool, addressp⟩, haddress⟩ : ∃ r, t.pool.ebNewMemoryItem array reallocAddress = r := ⟨_, rfl⟩
    obtain ⟨⟨pool', callbackp⟩, hcallback⟩ : ∃ r, pool.ebNewMemoryItem array reallocCallback = r := ⟨_, rfl⟩
    simp only [haddress, hcallback] at hs
    split at hs
    · cases hs
      exact hr
    · split at hs
      · cases hs
        exact hr
      · split at hs
        · cases hs
          exact hr
        · rename_i hrefused
          split at hs
          · cases hs
            exact hr
          · rename_i hoverlaps
            cases hs
            exact hr.attach (by simpa using hrefused) (by simpa using hoverlaps) addressp callbackp
  | detach record =>
    rw [HandlerTable.step, ebSocketDetach] at hs
    split at hs
    · cases hs
      exact hr
    · cases hs
      have hsub : (t.handlers.eraseP fun a => a.record == record).Sublist t.handlers := List.eraseP_sublist
      have hmap := hsub.map (Attached.dispatch word)
      exact ⟨hr.disjoint.sublist hmap, fun h hh => hr.within h (hmap.subset hh)⟩
  | others act =>
    rw [HandlerTable.step] at hs
    split at hs
    · cases hs
    · obtain ⟨pool, -, rfl⟩ := Option.map_eq_some_iff.mp hs
      exact hr

/-- In every run of attachments and detachments the ranges stay disjoint. -/
theorem handlers_disjoint (array : MemoryArray) (word : ℕ) {acts : List (HandlerAct σ)}
    (hrun : run (step array word) (start array) acts = some t) : t.Dispatches word := by
  have hstart : Ranged word ((start array : HandlerTable σ).dispatch word) :=
    ⟨List.Pairwise.nil, fun _ hh => absurd hh List.not_mem_nil⟩
  exact (run_keeps (fun hr hs => Ranged.step hr hs) hstart hrun).dispatches

/-- The pool is sound, and the handlers are among those who use it. -/
structure Owned (array : MemoryArray) (t : HandlerTable σ) : Prop where
  pool : ∃ l, t.pool.Partitioned array l
  owned : ∃ rest, t.pool.live.Perm (t.cells ++ rest)

/-- The two allocations of an attachment, and what they do to a sound pool. -/
inductive Allocated (array : MemoryArray) (reallocAddress reallocCallback : Bool) (pool : UsedPool) : Prop where
  | first (h : pool.ebNewMemoryItem array reallocAddress = (pool, ebNull))
  | second (pool₁ : UsedPool) (address : ℕ) (h₁ : pool.ebNewMemoryItem array reallocAddress = (pool₁, address))
      (hne : address ≠ ebNull) (h₂ : pool₁.ebNewMemoryItem array reallocCallback = (pool₁, ebNull))
      (hlive : pool₁.live = address :: pool.live) (hpart : ∃ l, pool₁.Partitioned array l)
  | both (pool₁ pool₂ : UsedPool) (address callback : ℕ)
      (h₁ : pool.ebNewMemoryItem array reallocAddress = (pool₁, address)) (hne : address ≠ ebNull)
      (h₂ : pool₁.ebNewMemoryItem array reallocCallback = (pool₂, callback)) (hne' : callback ≠ ebNull)
      (hlive : pool₂.live = callback :: address :: pool.live) (hpart : ∃ l, pool₂.Partitioned array l)

/-- An allocation on a sound pool. -/
theorem new_cases {pool pool' : UsedPool} {realloc : Bool} {item : ℕ} (harray : array.Fits)
    (hpart : ∃ l, pool.Partitioned array l) (hnew : pool.ebNewMemoryItem array realloc = (pool', item)) :
    (pool', item) = (pool, ebNull) ∨
      (item ≠ ebNull ∧ pool'.live = item :: pool.live ∧ ∃ l, pool'.Partitioned array l) := by
  obtain ⟨l, hl⟩ := hpart
  cases hl.alloc harray hnew with
  | inl hfailed => exact .inl hfailed.2.1
  | inr htaken =>
    obtain ⟨-, hne, -, -, hlive, l', hl', -⟩ := htaken
    exact .inr ⟨hne, hlive, l', hl'⟩

theorem allocated_of_sound {pool : UsedPool} (harray : array.Fits) (hpart : ∃ l, pool.Partitioned array l)
    (reallocAddress reallocCallback : Bool) : Allocated array reallocAddress reallocCallback pool := by
  obtain ⟨⟨pool₁, address⟩, h₁⟩ : ∃ r, pool.ebNewMemoryItem array reallocAddress = r := ⟨_, rfl⟩
  obtain ⟨⟨pool₂, callback⟩, h₂⟩ : ∃ r, pool₁.ebNewMemoryItem array reallocCallback = r := ⟨_, rfl⟩
  cases new_cases harray hpart h₁ with
  | inl hfailed => exact .first (h₁.trans hfailed)
  | inr htaken =>
    obtain ⟨hne, hlive₁, hpart₁⟩ := htaken
    cases new_cases harray hpart₁ h₂ with
    | inl hfailed => exact .second pool₁ address h₁ hne (h₂.trans hfailed) hlive₁ hpart₁
    | inr htaken =>
      obtain ⟨hne', hlive₂, hpart₂⟩ := htaken
      exact .both pool₁ pool₂ address callback h₁ hne h₂ hne' (by rw [hlive₂, hlive₁]) hpart₂

/-- Cells in use are given back to a sound pool. -/
theorem free_sound {pool : UsedPool} {item : ℕ} (harray : array.Fits) (hpart : ∃ l, pool.Partitioned array l)
    (hitem : item ∈ pool.live) : ∃ l, (pool.ebFreeMemoryItem item).Partitioned array l := by
  obtain ⟨l, hl⟩ := hpart
  exact ⟨_, hl.free harray hitem⟩

theorem Owned.step (ho : t.Owned array) (harray : array.Fits) {act : HandlerAct σ}
    (hs : t.step array word act = some t') : t'.Owned array := by
  obtain ⟨rest, hrest⟩ := ho.owned
  cases act with
  | attach record h reallocAddress reallocCallback =>
    rw [HandlerTable.step, ebSocketAttach] at hs
    cases allocated_of_sound harray ho.pool reallocAddress reallocCallback with
    | first h₁ =>
      simp only [h₁, if_true] at hs
      cases hs
      exact ho
    | second pool₁ address h₁ hne h₂ hlive hpart =>
      simp only [h₁, h₂, if_neg hne, if_true] at hs
      cases hs
      refine ⟨free_sound harray hpart (by simp [hlive]), rest, ?_⟩
      change (pool₁.live.erase address).Perm (t.cells ++ rest)
      rw [hlive, List.erase_cons_head]
      exact hrest
    | both pool₁ pool₂ address callback h₁ hne h₂ hne' hlive hpart =>
      simp only [h₁, h₂, if_neg hne, if_neg hne'] at hs
      split at hs
      · cases hs
        refine ⟨hpart, callback :: address :: rest, ?_⟩
        change pool₂.live.Perm (t.cells ++ callback :: address :: rest)
        rw [hlive]
        exact ((hrest.cons address).cons callback).trans
          ((List.perm_middle.symm.cons callback).trans List.perm_middle.symm)
      · split at hs
        · cases hs
          refine ⟨free_sound harray (free_sound harray hpart (by simp [hlive])) (by simp [hlive]), rest, ?_⟩
          change ((pool₂.live.erase callback).erase address).Perm (t.cells ++ rest)
          rw [hlive, List.erase_cons_head, List.erase_cons_head]
          exact hrest
        · cases hs
          refine ⟨hpart, rest, ?_⟩
          change pool₂.live.Perm (address :: callback :: (t.cells ++ rest))
          rw [hlive]
          exact ((hrest.cons address).cons callback).trans (List.Perm.swap address callback _)
  | detach record =>
    rw [HandlerTable.step, ebSocketDetach] at hs
    split at hs
    · cases hs
      exact ho
    · rename_i a ha
      cases hs
      have hperm : t.handlers.Perm (a :: t.handlers.eraseP fun a => a.record == record) := perm_cons_eraseP ha
      have hcells := (hperm.flatMap_right Attached.cells).append_right rest
      have hlive := hrest.trans hcells
      have hcallback : a.callback ∈ t.pool.live := hlive.symm.subset (by simp [Attached.cells])
      have hnodup : (t.pool.live).Nodup := by
        obtain ⟨l, hl⟩ := ho.pool
        exact (List.nodup_append.mp (MemoryPool.Partitioned.all_nodup hl)).2.1
      have hne : a.address ≠ a.callback := by
        have hcons := hlive.nodup_iff.mp hnodup
        simp only [List.flatMap_cons, Attached.cells, List.cons_append, List.nodup_cons] at hcons
        intro heq
        exact hcons.1 (heq ▸ List.mem_cons_self)
      have haddress : a.address ∈ t.pool.live.erase a.callback :=
        (List.mem_erase_of_ne hne).mpr (hlive.symm.subset (by simp [Attached.cells]))
      refine ⟨free_sound harray (free_sound harray ho.pool hcallback) haddress, rest, ?_⟩
      have herase := (hlive.erase a.callback).erase a.address
      simp only [List.flatMap_cons, Attached.cells, List.cons_append, List.nil_append] at herase
      rw [List.erase_cons_tail (by simpa using hne), List.erase_cons_head, List.erase_cons_head] at herase
      exact herase
  | others act =>
    rw [HandlerTable.step] at hs
    split at hs
    · cases hs
    · rename_i hother
      obtain ⟨pool, hpool, rfl⟩ := Option.map_eq_some_iff.mp hs
      obtain ⟨l, hl⟩ := ho.pool
      refine ⟨hl.step harray hpool, ?_⟩
      cases act with
      | alloc realloc =>
        rw [UsedPool.step_alloc] at hpool
        obtain ⟨⟨pool₁, item⟩, hnew⟩ : ∃ r, t.pool.ebNewMemoryItem array realloc = r := ⟨_, rfl⟩
        rw [hnew] at hpool
        cases hpool
        cases new_cases harray ho.pool hnew with
        | inl hsame =>
          rw [(Prod.mk.inj hsame).1]
          exact ⟨rest, hrest⟩
        | inr htaken =>
          obtain ⟨-, hlive, -⟩ := htaken
          refine ⟨item :: rest, ?_⟩
          change pool₁.live.Perm (t.cells ++ item :: rest)
          rw [hlive]
          exact (hrest.cons item).trans List.perm_middle.symm
      | free item =>
        rw [UsedPool.step_free] at hpool
        split at hpool
        · cases hpool
          refine ⟨rest.erase item, ?_⟩
          change (t.pool.live.erase item).Perm (t.cells ++ rest.erase item)
          have hnot : item ∉ t.cells := by simpa [otherCell] using hother
          rw [← List.erase_append_right _ hnot]
          exact hrest.erase item
        · cases hpool
      | write item link =>
        rw [UsedPool.step] at hpool
        split at hpool
        · cases hpool
          exact ⟨rest, hrest⟩
        · cases hpool

/-- Whether both cells of an attachment can be had. -/
def bothCells (array : MemoryArray) (pool : UsedPool) (reallocAddress reallocCallback : Bool) : Bool :=
  let (pool₁, address) := pool.ebNewMemoryItem array reallocAddress
  let (_, callback) := pool₁.ebNewMemoryItem array reallocCallback
  address != ebNull && callback != ebNull

/-- An attachment that fails leaves the handlers and the cells in use as they were, unless both cells were
taken for a range that is not supported or reserved. -/
theorem attach_atomic_iff (harray : array.Fits) {acts : List (HandlerAct σ)}
    (hrun : run (step array word) (start array) acts = some t) {status : Status}
    (hattach : ebSocketAttach array word t record h reallocAddress reallocCallback = (t', status))
    (hfail : status ≠ .ok) : t'.handlers = t.handlers ∧ t'.pool.live = t.pool.live ↔
      (refused word h = true → bothCells array t.pool reallocAddress reallocCallback = false) := by
  have hstart : (start array : HandlerTable σ).Owned array := ⟨⟨[], MemoryPool.Partitioned.start array⟩, [], .refl _⟩
  have howned : t.Owned array := run_keeps (fun ho hs => Owned.step ho harray hs) hstart hrun
  rw [ebSocketAttach] at hattach
  cases allocated_of_sound harray howned.pool reallocAddress reallocCallback with
  | first h₁ =>
    simp only [h₁, if_true] at hattach
    cases hattach
    simp [bothCells, h₁]
  | second pool₁ address h₁ hne h₂ hlive hpart =>
    simp only [h₁, h₂, if_neg hne, if_true] at hattach
    cases hattach
    simp [bothCells, h₁, h₂, hlive]
  | both pool₁ pool₂ address callback h₁ hne h₂ hne' hlive hpart =>
    have hboth : bothCells array t.pool reallocAddress reallocCallback = true := by simp [bothCells, h₁, h₂, hne, hne']
    simp only [h₁, h₂, if_neg hne, if_neg hne'] at hattach
    split at hattach
    · rename_i hrefused
      cases hattach
      have hlost : pool₂.live ≠ t.pool.live := by
        intro hsame
        have hlength := congrArg List.length (hlive.symm.trans hsame)
        simp only [List.length_cons] at hlength
        omega
      simp [hrefused, hboth, hlost]
    · rename_i hrefused
      split at hattach
      · cases hattach
        simp [hrefused, hlive]
      · cases hattach
        exact absurd rfl hfail

end HandlerTable

namespace Sample
open HandlerTable

/-- A handler without callbacks. -/
def plainHandler (first last : ℕ) : Handler Unit where
  addrFirst := first
  addrLast := last
  littleEndian := false
  read := none
  write := none

/-- Two handlers side by side, the first of which is detached. -/
def attachTwo : List (HandlerAct Unit) :=
  [.attach 1 (plainHandler 0x4000 0x4fff) true true, .attach 2 (plainHandler 0x5000 0xffff) true true, .detach 1]

theorem attachTwo_disjoint : ∃ t, run (step (.static 8) 4) (start (.static 8)) attachTwo = some t ∧
    t.Dispatches 4 :=
  ⟨_, rfl, @handlers_disjoint Unit _ (.static 8) 4 attachTwo rfl⟩

/-- The third handler overlaps the second one. -/
theorem attachThird_atomic : ∃ t t', run (step (.static 8) 4) (start (.static 8)) attachTwo = some t ∧
    ebSocketAttach (.static 8) 4 t 3 (plainHandler 0x6000 0x6fff) true true = (t', .address) ∧
      (t'.handlers = t.handlers ∧ t'.pool.live = t.pool.live ↔ (refused 4 (plainHandler 0x6000 0x6fff) = true →
        bothCells (.static 8) t.pool true true = false)) :=
  ⟨_, _, rfl, rfl,
    @attach_atomic_iff Unit (.static 8) 4 _ _ 3 (plainHandler 0x6000 0x6fff) true true ⟨by omega, by omega⟩
    attachTwo rfl .address rfl (by simp)⟩

/-- A handler in the reserved range keeps both cells. -/
theorem attachReserved_leaks : ¬ ∀ (acts : List (HandlerAct Unit)) (t t' : HandlerTable Unit) (h : Handler Unit)
    (status : Status), run (step (.static 8) 4) (start (.static 8)) acts = some t →
      ebSocketAttach (.static 8) 4 t 1 h true true = (t', status) → status ≠ .ok →
        t'.handlers = t.handlers ∧ t'.pool.live = t.pool.live := by
  intro h
  have hsame := (h [] _ _ (plainHandler 0 0xfff) .address rfl rfl (by simp)).2
  have hleak := congrArg List.length hsame
  cases hleak

end Sample

end WhiteRabbit.Etherbone
