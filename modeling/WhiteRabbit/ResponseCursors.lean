import WhiteRabbit.CallbackHandles

/-!
# Write-backs from anyone

The peer chooses what it writes to the config space, and when. Whatever it writes, the cursors of a
response stay on operations of its cycle, and no other cycle is touched.
-/

namespace WhiteRabbit.Etherbone
open StepRuns

/-- A cursor is null or on an operation of the cycle: a read, or a bus operation. -/
structure Response.Anchored (r : Response) : Prop where
  write : ∀ i, r.writeCursor = some i → ∃ op, r.ops[i]? = some op ∧ op.isRead = true
  status : ∀ i, r.statusCursor = some i → ∃ op, r.ops[i]? = some op ∧ op.isBus = true

/-- How many operations a write-back of error bits is for. -/
def Response.counted (r : Response) (widths : ℕ) : ℕ :=
  r.statusCursor.elim 0 fun i =>
    let maxops := (widths &&& ebDataX) * 8
    let count := (r.ops.drop i).countP Operation.isBus
    if maxops = 0 then count else min maxops count

/-- The loop that sets the error bits of `n` bus operations, which does not look for the end of the list:
the operations, and how far it gets. Behind the end it has no step. -/
def statusLoop (value : ℕ) : ℕ → List Operation → Option (List Operation × ℕ)
  | 0, ops => some (ops, 0)
  | _ + 1, [] => none
  | n + 1, op :: ops =>
    if op.cfgSpace then (statusLoop value (n + 1) ops).map fun r => (op :: r.1, 1 + r.2)
    else
      (statusLoop value n ops).map fun r =>
        ({ op with error := op.error || value.testBit n } :: r.1, 1 + r.2)

/-- A write-back sets the value or the error bit of an operation. -/
def Answered (op op' : Operation) : Prop := op' = { op with value := op'.value, error := op'.error }

section Walks

variable {ops ops' : List Operation} {r r' : Response} {widths value n : ℕ}

theorem find_from (q : Operation → Bool) (ops : List Operation) {i j : ℕ}
    (h : ((ops.drop i).findIdx? q).map (i + ·) = some j) : ∃ op, ops[j]? = some op ∧ q op = true := by
  obtain ⟨k, hk, rfl⟩ := Option.map_eq_some_iff.mp h
  obtain ⟨hlt, hq, -⟩ := List.findIdx?_eq_some_iff_getElem.mp hk
  refine ⟨(ops.drop i)[k], ?_, hq⟩
  rw [← List.getElem?_drop]
  exact List.getElem?_eq_getElem hlt

/-- There are enough operations for the loop. -/
theorem statusLoop_eq (value : ℕ) (hn : n ≤ ops.countP Operation.isBus) :
    statusLoop value n ops = some (markErrors value n ops, passBus n ops) := by
  induction ops generalizing n with
  | nil =>
    cases n with
    | zero => rfl
    | succ n => simp at hn
  | cons op ops ih =>
    cases n with
    | zero => rfl
    | succ n =>
      rw [statusLoop, markErrors, passBus]
      cases hcfg : op.cfgSpace with
      | true =>
        rw [List.countP_cons_of_neg (by simp [Operation.isBus, hcfg])] at hn
        simp [ih hn]
      | false =>
        rw [List.countP_cons_of_pos (by simp [Operation.isBus, hcfg])] at hn
        simp [ih (Nat.le_of_succ_le_succ hn)]

theorem Response.counted_le (r : Response) (widths : ℕ) {i : ℕ} (hi : r.statusCursor = some i) :
    r.counted widths ≤ (r.ops.drop i).countP Operation.isBus := by
  rw [Response.counted, hi, Option.elim_some]
  dsimp only
  split
  · exact le_rfl
  · exact min_le_right _ _

theorem writeStatus_counted (r : Response) (widths value : ℕ) :
    r.writeStatus widths value = r.statusCursor.bind fun i =>
      if r.counted widths = 0 then none
      else some { r with
        ops := r.ops.take i ++ markErrors value (r.counted widths) (r.ops.drop i)
        statusCursor := ebFindBus r.ops (i + passBus (r.counted widths) (r.ops.drop i)) } := by
  rw [Response.writeStatus, Response.counted]
  cases r.statusCursor with
  | none => rfl
  | some i => rfl

instance : Std.Refl Answered := ⟨fun _ => rfl⟩

theorem Answered.isRead {op op' : Operation} (h : Answered op op') : op'.isRead = op.isRead := by rw [h]; rfl

theorem Answered.isBus {op op' : Operation} (h : Answered op op') : op'.isBus = op.isBus := by rw [h]; rfl

theorem answered_refl (ops : List Operation) : List.Forall₂ Answered ops ops := List.forall₂_refl ops

theorem answered_modify (ops : List Operation) (i value : ℕ) :
    List.Forall₂ Answered ops (ops.modify i fun op => { op with value := value }) := by
  induction ops generalizing i with
  | nil => simp
  | cons op ops ih =>
    cases i with
    | zero => exact .cons rfl (answered_refl ops)
    | succ i => exact .cons rfl (ih i)

theorem answered_markErrors (value n : ℕ) (ops : List Operation) :
    List.Forall₂ Answered ops (markErrors value n ops) := by
  induction ops generalizing n with
  | nil =>
    cases n with
    | zero => exact .nil
    | succ n => exact .nil
  | cons op ops ih =>
    cases n with
    | zero => exact answered_refl _
    | succ n =>
      rw [markErrors]
      split
      · exact .cons rfl (ih _)
      · exact .cons rfl (ih _)

/-- An operation that is found keeps its kind. -/
theorem answered_at (q : Operation → Bool) (hq : ∀ {op op'}, Answered op op' → q op' = q op)
    (h : List.Forall₂ Answered ops ops') {i : ℕ} (hi : ∃ op, ops[i]? = some op ∧ q op = true) :
    ∃ op, ops'[i]? = some op ∧ q op = true := by
  induction h generalizing i with
  | nil => exact hi
  | cons hop _ ih =>
    cases i with
    | zero =>
      obtain ⟨op, hop', hop''⟩ := hi
      cases hop'
      exact ⟨_, rfl, (hq hop).trans hop''⟩
    | succ i => exact ih hi

theorem writeValue_keeps (hr : r.writeValue value = some r') :
    (r.Anchored → r'.Anchored) ∧ List.Forall₂ Answered r.ops r'.ops := by
  obtain ⟨i, -, rfl⟩ := Option.map_eq_some_iff.mp hr
  have hops := answered_modify r.ops i value
  refine ⟨fun h => ⟨fun j hj => ?_, fun j hj => ?_⟩, hops⟩
  · exact answered_at _ Answered.isRead hops (find_from _ _ hj)
  · exact answered_at _ Answered.isBus hops (h.status j hj)

theorem writeStatus_keeps (hr : r.writeStatus widths value = some r') :
    (r.Anchored → r'.Anchored) ∧ List.Forall₂ Answered r.ops r'.ops := by
  rw [writeStatus_counted] at hr
  obtain ⟨i, -, hi⟩ := Option.bind_eq_some_iff.mp hr
  split at hi
  · cases hi
  cases hi
  have hops : List.Forall₂ Answered (r.ops.take i ++ r.ops.drop i)
      (r.ops.take i ++ markErrors value (r.counted widths) (r.ops.drop i)) :=
    List.rel_append (answered_refl _) (answered_markErrors value _ _)
  rw [List.take_append_drop] at hops
  refine ⟨fun h => ⟨fun j hj => ?_, fun j hj => ?_⟩, hops⟩
  · exact answered_at _ Answered.isRead hops (h.write j hj)
  · exact answered_at _ Answered.isBus hops (find_from _ _ hj)

/-- A write-back keeps the cursors on operations, and sets values and error bits only. -/
theorem writeBack_keeps (r : Response) (widths addr value : ℕ) :
    (r.Anchored → (r.writeBack widths addr value).1.Anchored) ∧
      List.Forall₂ Answered r.ops (r.writeBack widths addr value).1.ops := by
  rw [Response.writeBack]
  split
  · exact ⟨id, answered_refl _⟩
  · rename_i r' hr
    split at hr
    · exact writeValue_keeps hr
    · exact writeStatus_keeps hr

/-- The cursors of a new response. -/
theorem anchored_start (address deadline device : ℕ) (ops : List Operation) :
    Response.Anchored
      { address := address, deadline := deadline, device := device, ops := ops, writeCursor := ebFindRead ops 0
        statusCursor := if needsCheck ops then ebFindBus ops 0 else none } where
  write _ hi := find_from _ _ hi
  status i hi := by
    dsimp only at hi
    split at hi
    · exact find_from _ _ hi
    · cases hi

/-- The loop over the error bits ends before the list of operations does. -/
theorem statusLoop_counted (r : Response) (widths value : ℕ) {i : ℕ} (hi : r.statusCursor = some i) :
    (statusLoop value (r.counted widths) (r.ops.drop i)).isSome = true := by
  rw [statusLoop_eq value (r.counted_le widths hi)]
  rfl

end Walks

/-- The responses that a call has taken off the queue and not handled yet. -/
def Frame.bads : Frame → List Flight
  | .kill bads => bads
  | _ => []

namespace Machine

/-- The responses in flight, on the queue and in calls. -/
def flights (m : Machine) : List Flight := m.queue ++ m.stack.flatMap Frame.bads

/-- Every response in flight has its cursors on its operations. -/
def Anchored (m : Machine) : Prop := ∀ f ∈ m.flights, f.response.Anchored

section Anchoring

variable {m m' : Machine} {a : SocketAct}

theorem Anchored.subset (h : m.Anchored) (hsub : m'.flights ⊆ m.flights) : m'.Anchored := fun f hf => h f (hsub hf)

theorem Anchored.writtenBack (h : m.Anchored) {widths addr value : ℕ} (hw : WrittenBack m widths addr value m') :
    m'.Anchored := by
  cases hw with
  | unmatched hnone =>
    apply h.subset
    simp [flights, queue]
  | @answered first last before after f r hqueue hbefore hf hr hqueue' =>
    have hold : m.flights = before ++ f :: after ++ m.stack.flatMap Frame.bads := by rw [flights, hqueue]
    have hnew : Machine.flights { m with first := first, last := last } =
        before ++ { f with response := r } :: after ++ m.stack.flatMap Frame.bads := by rw [flights, queue, hqueue']
    have hkeeps := (writeBack_keeps f.response widths addr value).1 (h f (by simp [hold]))
    rw [hr] at hkeeps
    intro g hg
    rw [hnew, List.mem_append, List.mem_append, List.mem_cons] at hg
    rcases hg with (hg | rfl | hg) | hg
    · exact h g (by simp [hold, hg])
    · exact hkeeps
    · exact h g (by simp [hold, hg])
    · exact h g (by simp [hold, hg])
  | @completed first last before after f r status hqueue hbefore hf hr hqueue' =>
    apply h.subset
    intro g hg
    have hnew : Machine.flights ({ m with first := first, last := last }.call f.cycle status) =
        before ++ after ++ m.stack.flatMap Frame.bads := by
      rw [flights, queue, call, hqueue']
      rfl
    rw [hnew, List.mem_append, List.mem_append] at hg
    rw [flights, hqueue]
    rcases hg with (hg | hg) | hg
    · simp [hg]
    · simp [hg]
    · exact List.mem_append_right _ hg

theorem Anchored.issue (h : m.Anchored) (d : ℕ) (c : Waiting) (ops : List Operation) (address : ℕ) :
    (m.issue d c ops address).Anchored := by
  intro f hf
  rw [flights, queue, Machine.issue, List.reverse_cons, ← List.append_assoc, List.mem_append, List.mem_append,
    List.mem_singleton] at hf
  rcases hf with (hf | rfl) | hf
  · exact h f (List.mem_append_left _ hf)
  · exact anchored_start _ _ _ _
  · exact h f (List.mem_append_right _ hf)

/-- A turn that changes only the frame on top, and leaves no more responses in it. -/
theorem flights_stack {frame : Frame} {stack : List Frame} (frames : List Frame) (hs : m.stack = frame :: stack)
    (hqueue : m'.queue = m.queue) (hstack : m'.stack = frames ++ stack)
    (hbads : frames.flatMap Frame.bads ⊆ frame.bads) :
    m'.flights ⊆ m.flights := by
  intro f hf
  rw [flights, hqueue, hstack, List.flatMap_append, List.mem_append, List.mem_append] at hf
  rw [flights, hs, List.flatMap_cons, List.mem_append, List.mem_append]
  rcases hf with hf | hf | hf
  · exact .inl hf
  · exact .inr (.inl (hbads hf))
  · exact .inr (.inr hf)

theorem Anchored.turns (h : m.Anchored) (ht : Turns m m') : m'.Anchored := by
  have hnone : ∀ frame : Frame, [] ⊆ frame.bads := fun frame => List.nil_subset _
  cases ht with
  | @expire now stack f rest hs he =>
    apply h.subset
    intro g hg
    have hfirst := (expiring_spec he).1
    rw [flights, queue, List.mem_append, List.mem_append] at hg
    rw [flights, queue, hfirst, List.cons_append, List.cons_append]
    apply List.mem_cons_of_mem
    rcases hg with (hg | hg) | hg
    · exact List.mem_append_left _ (List.mem_append_left _ hg)
    · exact List.mem_append_left _ (List.mem_append_right _ hg)
    · exact List.mem_append_right _ hg
  | flushIssue hs hf =>
    apply Anchored.issue
    exact h.subset (flights_stack [.flush _ _ _ _ _] hs rfl rfl (hnone _))
  | tick hs | poll hs | visit hs | skip hs =>
    exact h.subset (flights_stack [.check _ _] hs rfl rfl (hnone _))
  | returned hs | flushEnd hs | killEnd hs | closeEnd hs =>
    exact h.subset (flights_stack [] hs rfl rfl (hnone _))
  | flush hs =>
    exact h.subset (flights_stack [.flush _ _ _ _ _, .check _ _] hs rfl rfl (hnone _))
  | flushCall hs =>
    exact h.subset (flights_stack [.callback, .flush _ _ _ _ _] hs rfl rfl (hnone _))
  | @killCall f bads stack hs =>
    apply h.subset
    refine flights_stack [.callback, .kill bads] hs rfl rfl fun g hg => ?_
    exact List.mem_cons_of_mem _ (by simpa [Frame.bads] using hg)
  | closeCall hs =>
    exact h.subset (flights_stack [.callback, .close _ _] hs rfl rfl (hnone _))

theorem Anchored.moves (h : m.Anchored) (hm : Moves m a m') : m'.Anchored := by
  cases hm with
  | next alloc ht => exact h.turns ht
  | writeBack widths addr value => exact h.writtenBack (m.ebSocketWriteConfig_writtenBack widths addr value)
  | timeout hu =>
    obtain ⟨first, last, hqueue, hres⟩ := m.ebSocketTimeout_spec
    rw [hres]
    apply h.subset
    rw [flights, queue, hqueue]
    exact List.Subset.refl _
  | closeDevice hu hd =>
    apply h.subset
    intro f hf
    simp only [flights, ebSocketKillInflight, queue, Machine.setDevice, List.flatMap_cons,
      Frame.bads, List.reverse_nil, List.append_nil, List.nil_append, List.mem_append, List.mem_filter] at hf ⊢
    rcases hf with ⟨hf, -⟩ | ⟨hf, -⟩ | hf
    · exact .inl hf
    · exact .inl hf
    · exact .inr hf
  | done hs => exact h.subset (flights_stack [] hs rfl rfl (List.nil_subset _))
  | _ => exact h.subset (List.Subset.refl _)

end Anchoring

/-- Write-backs from anyone do no harm. -/
structure Robust (m : Machine) : Prop where
  anchored : m.Anchored
  /-- The loop over the error bits stays within the operations. -/
  scans : ∀ f ∈ m.flights, ∀ widths value i, f.response.statusCursor = some i →
    (statusLoop value (f.response.counted widths) (f.response.ops.drop i)).isSome = true
  once : ∀ c, m.calls c ≤ 1
  writes : ∀ widths addr value, m.WrittenBack widths addr value (m.ebSocketWriteConfig widths addr value)
  answers : ∀ f ∈ m.flights, ∀ widths addr value,
    List.Forall₂ Answered f.response.ops (f.response.writeBack widths addr value).1.ops

theorem start_anchored : Anchored {} := fun _ hf => absurd hf List.not_mem_nil

theorem Sane.calls_le {m : Machine} (h : m.Sane) (c : ℕ) : m.calls c ≤ 1 := by
  have hclosed := h.closed c
  have honce := h.distinct.once c
  rw [found] at hclosed
  rw [handled] at honce
  omega

/-- Whatever the peers write, and in whatever state. -/
theorem writeBacks_robust (acts : List SocketAct) (m : Machine) (hrun : run step {} acts = some m) : m.Robust := by
  have hanchored : m.Anchored := run_keeps (fun h hs => h.moves (step_moves hs)) start_anchored hrun
  have hsane : m.Sane := run_keeps Sane.step start_sane hrun
  exact {
    anchored := hanchored
    scans := fun f _ widths value i hi => statusLoop_counted f.response widths value hi
    once := hsane.calls_le
    writes := m.ebSocketWriteConfig_writtenBack
    answers := fun f _ widths addr value => (writeBack_keeps f.response widths addr value).2 }

end Machine

namespace Sample
open Machine

/-- A read is issued, and while the socket is polled again its value is written back. -/
def readAnswered : List SocketAct :=
  .openDevice narrowPort 0 :: queueRead 0 1 ++ .check 0 :: List.replicate 7 (.next true) ++
    [.check 1, .next true, .writeBack 0x22 0x8000 7]

theorem readAnswered_robust : ∃ m, run step {} readAnswered = some m ∧ m.Robust :=
    ⟨_, rfl, writeBacks_robust readAnswered _ rfl⟩

end Sample

end WhiteRabbit.Etherbone
