import WhiteRabbit.ReplyCallbacks

/-!
# The cycles of a flush

A flush encodes cycles under its return address, which moves on with every response. These are the cycles that its
messages hold, and those with reads are the ones that wait in the queue of the socket afterwards.
-/

namespace WhiteRabbit.Etherbone
open BigEndian GroupPacking StepRuns

variable {p : Port} {mtu : ℕ}

section Cycles

variable (p mtu)

/-- The cycles that a flush sends, with the addresses that their responses have or would have. -/
def sentCycles : FlushState → List Waiting → List SentCycle
  | _, [] => []
  | s, c :: cs =>
    (match formattedOps p c.content with
      | none => []
      | some ops => if (s.formatCycle p mtu ops).2.Kept then [⟨c.cycle, s.rba, ops⟩] else []) ++
      sentCycles (s.flushCycle p mtu c.content).1 cs

end Cycles

theorem sentCycles_none {s : FlushState} {c : Waiting} (h : formattedOps p c.content = none) (cs : List Waiting) :
    sentCycles p mtu s (c :: cs) = sentCycles p mtu s cs := by
  obtain ⟨status, operation, hflush, -⟩ := FlushState.flushCycle_none (s := s) mtu h
  rw [sentCycles, h, hflush, List.nil_append]

theorem sentCycles_some {s : FlushState} {c : Waiting} {ops : List Operation} (h : formattedOps p c.content = some ops)
    (cs : List Waiting) : sentCycles p mtu s (c :: cs) =
      (if (s.formatCycle p mtu ops).2.Kept then [⟨c.cycle, s.rba, ops⟩] else []) ++
        sentCycles p mtu (s.formatCycle p mtu ops).1 cs := by
  rw [sentCycles, h, FlushState.flushCycle_some h]

theorem formattedOps_length {c : Queued} {ops : List Operation} (h : formattedOps p c = some ops) :
    ops.length = c.ops.length := by
  rw [formattedOps] at h
  split at h
  · simp at h
  split at h
  · rename_i ops' hops
    cases h
    exact (checkOperations_none hops).2.length_eq.symm
  · simp at h

theorem nextRba_even {rba : ℕ} (h : rba % 2 = 0) : nextRba rba % 2 = 0 := by
  have hbits : (0x8000 ||| (rba + 2) % 2 ^ 16) % 2 ^ 1 = 0x8000 % 2 ^ 1 ||| (rba + 2) % 2 ^ 16 % 2 ^ 1 :=
    Nat.or_mod_two_pow
  have hzero : (rba + 2) % 2 ^ 16 % 2 ^ 1 = 0 := by omega
  rw [hzero] at hbits
  exact hbits

/-- What becomes of a formatted cycle that was kept: it waits for its reply, or it is called back at once. -/
theorem formatCycle_fate {s : FlushState} {ops : List Operation} (h : (s.formatCycle p mtu ops).2.Kept) (cycle : ℕ) :
    if (⟨cycle, s.rba, ops⟩ : SentCycle).Waits p then
      (s.formatCycle p mtu ops).2 = .response s.rba ∧ (s.formatCycle p mtu ops).1.rba = nextRba s.rba
    else (s.formatCycle p mtu ops).2 = .callback .ok (some 0) ∧ (s.formatCycle p mtu ops).1.rba = s.rba := by
  have hrba := placeRecords_rba (p := p) mtu s 0 ((encodeCycle p s.rba ops).getD [])
  rw [FlushState.formatCycle] at h ⊢
  split at h
  · exact absurd h (by simp [CycleFate.Kept])
  · rename_i s' operation hs
    rw [hs] at hrba
    dsimp only at hrba
    rw [FlushState.closeCycle]
    by_cases hreads : ∃ r ∈ (encodeCycle p s.rba ops).getD [], r.HasReads
    · have hwaits : SentCycle.Waits p ⟨cycle, s.rba, ops⟩ := hreads
      rw [if_pos hreads, if_pos hwaits]
      exact ⟨by rw [hrba], by rw [hrba]⟩
    · have hwaits : ¬ SentCycle.Waits p ⟨cycle, s.rba, ops⟩ := hreads
      rw [if_neg hreads, if_neg hwaits]
      exact ⟨rfl, hrba⟩

theorem formatCycle_overflow_rba {s : FlushState} {ops : List Operation} (h : ¬ (s.formatCycle p mtu ops).2.Kept) :
    (∃ status operation, (s.formatCycle p mtu ops).2 = .callback status operation) ∧
      (s.formatCycle p mtu ops).1.rba = s.rba := by
  have hrba := placeRecords_rba (p := p) mtu s 0 ((encodeCycle p s.rba ops).getD [])
  rw [FlushState.formatCycle] at h ⊢
  split at h
  · rename_i s' operation hs
    rw [hs] at hrba
    exact ⟨⟨_, _, rfl⟩, hrba⟩
  · exact absurd (closeCycle_kept _ _) h

/-- The return address of a flush stays an even number of 16 bits. -/
theorem formatCycle_address (mtu : ℕ) {s : FlushState} (hlt : s.rba < 2 ^ 16) (heven : s.rba % 2 = 0)
    (ops : List Operation) :
    (s.formatCycle p mtu ops).1.rba < 2 ^ 16 ∧ (s.formatCycle p mtu ops).1.rba % 2 = 0 := by
  refine ⟨formatCycle_rba hlt ops, ?_⟩
  by_cases hkept : (s.formatCycle p mtu ops).2.Kept
  · have hfate := formatCycle_fate hkept 0
    split at hfate
    · rw [hfate.2]
      exact nextRba_even heven
    · rw [hfate.2]
      exact heven
  · rw [(formatCycle_overflow_rba hkept).2]
    exact heven

/-- The cycles that a flush sends are valid. -/
theorem sentCycles_valid {s : FlushState} (hlt : s.rba < 2 ^ 16) (heven : s.rba % 2 = 0) {ready : List Waiting}
    (hlength : ∀ c ∈ ready, c.content.ops.length < 2 ^ 32 - 1) : ∀ x ∈ sentCycles p mtu s ready, x.Valid p := by
  induction ready generalizing s with
  | nil => exact fun x hx => absurd hx (List.not_mem_nil)
  | cons c cs ih =>
    obtain ⟨hc, hcs⟩ := List.forall_mem_cons.mp hlength
    intro x hx
    cases hops : formattedOps p c.content with
    | none =>
      rw [sentCycles_none hops] at hx
      exact ih hlt heven hcs x hx
    | some ops =>
      obtain ⟨hne, hformatted, hsame⟩ := formattedOps_spec hops
      obtain ⟨hlt', heven'⟩ := formatCycle_address mtu hlt heven ops
      rw [sentCycles_some hops] at hx
      rcases List.mem_append.mp hx with hx | hx
      · split at hx
        · rw [List.mem_singleton.mp hx]
          exact ⟨hlt, heven, hne, hformatted, by rwa [formattedOps_length hops]⟩
        · exact absurd hx (List.not_mem_nil)
      · exact ih hlt' heven' hcs x hx

/-- Packing the records of the cycles that a flush formats keeps those that it sends. -/
theorem flushCycles_sent {s : FlushState} {q : Packing Record} (hmtu : mtu ≠ 0) (h : Packs p s q) (hcur : q.current = [])
    (hrba : s.rba < 2 ^ 16) (ready : List Waiting) :
    ∃ groups : List (List Record),
      Packs p (s.flushCycles p mtu (ready.map Waiting.content)).1
        (packGroups (Record.length p) (mtu - p.headerAlignment) q groups).1 ∧
      (sentCycles p mtu s ready).map (SentCycle.records p) =
        select groups (packGroups (Record.length p) (mtu - p.headerAlignment) q groups).2 := by
  induction ready generalizing s q with
  | nil => exact ⟨[], h, rfl⟩
  | cons c cs ih =>
    rw [List.map_cons, FlushState.flushCycles]
    cases hops : formattedOps p c.content with
    | none =>
      obtain ⟨status, operation, hflush, -⟩ := FlushState.flushCycle_none (s := s) mtu hops
      rw [hflush, sentCycles_none hops]
      exact ih h hcur hrba
    | some ops =>
      obtain ⟨hne, hformatted, -⟩ := formattedOps_spec hops
      obtain ⟨hpacks, hkept⟩ := formatCycle_packs hmtu h hcur (encodeCycle_isEncoding hrba hne hformatted)
      obtain ⟨-, hcur'⟩ := placeGroup_groups (Record.length p) (mtu - p.headerAlignment) hcur
        ((encodeCycle p s.rba ops).getD [])
      obtain ⟨groups, hpacks', hsent⟩ := ih hpacks hcur' (formatCycle_rba hrba ops)
      rw [FlushState.flushCycle_some hops, sentCycles_some hops]
      refine ⟨(encodeCycle p s.rba ops).getD [] :: groups, hpacks', ?_⟩
      rw [packGroups, select, List.map_append, ← hsent]
      congr 1
      by_cases hk : (s.formatCycle p mtu ops).2.Kept
      · rw [if_pos hk, if_pos (hkept.mp hk)]
        rfl
      · rw [if_neg hk, if_neg fun h => hk (hkept.mpr h)]
        rfl

/-- A list that maps to a grouped list can be grouped the same way. -/
theorem exists_grouped {α β : Type*} {f : α → β} {xs : List α} {gss : List (List β)} (h : xs.map f = gss.flatten) :
    ∃ xss : List (List α), xss.map (List.map f) = gss ∧ xss.flatten = xs := by
  induction gss generalizing xs with
  | nil => exact ⟨[], rfl, (List.map_eq_nil_iff.mp h).symm⟩
  | cons gs gss ih =>
    obtain ⟨ys, zs, rfl, hys, hzs⟩ := List.map_eq_append_iff.mp (h.trans List.flatten_cons)
    obtain ⟨xss, hxss, hflat⟩ := ih hzs
    exact ⟨ys :: xss, by rw [List.map_cons, hys, hxss], by rw [List.flatten_cons, hflat]⟩

/-- The messages of a flush on a packet transport hold the cycles that it sends, whole and in order. -/
theorem flush_batches (hmtu : mtu ≠ 0) {rba : ℕ} (hrba : rba < 2 ^ 16) (ready : List Waiting) :
    ∃ batches : List (List SentCycle), batches.flatten = sentCycles p mtu (FlushState.start rba) ready ∧
      (ebDeviceFlush p mtu rba (ready.map Waiting.content)).1.sent.map Message.records =
        batches.map fun xs => xs.flatMap (SentCycle.records p) := by
  obtain ⟨groups, hpacks, hsent⟩ := flushCycles_sent (p := p) hmtu (Packs.start p rba) rfl hrba ready
  have hclose := hpacks.sendClosed
  have hfinish : (ebDeviceFlush p mtu rba (ready.map Waiting.content)).1 =
      ((FlushState.start rba).flushCycles p mtu (ready.map Waiting.content)).1.sendClosed := by
    change FlushState.finish mtu _ = _
    rw [FlushState.finish, if_neg hmtu]
  rw [← pack_groups, List.flatMap_def] at hsent
  obtain ⟨batches, hbatches, hflat⟩ := exists_grouped hsent
  refine ⟨batches, hflat, ?_⟩
  rw [hfinish, hclose.records]
  have hgroups := congrArg (List.map List.flatten) hbatches
  rw [List.map_map, List.map_map] at hgroups
  exact hgroups.symm

section Turns

variable (p mtu)

/-- The turns of a flush whose callbacks return at once, up to its last send. -/
def flushActs : FlushState → List Waiting → List SocketAct
  | _, [] => []
  | s, c :: cs =>
    (match (s.flushCycle p mtu c.content).2 with
      | .callback _ _ => [.next c.content.alloc, .done]
      | .response _ => [.next c.content.alloc]) ++ flushActs (s.flushCycle p mtu c.content).1 cs

variable {p mtu} {m : Machine} {d : ℕ} {stack : List Frame} {s s' : FlushState} {c : Waiting} {cs : List Waiting}

/-- A turn that calls a cycle back. -/
theorem flushTurn_callback {status : Status} {operation : Option ℕ} (hstack : m.stack = .flush d p mtu (c :: cs) s :: stack)
    (hrba : s.rba = m.rba) (hfate : s.flushCycle p mtu c.content = (s', .callback status operation)) :
    ∃ m', run Machine.step m [.next c.content.alloc, .done] = some m' ∧ m'.stack = .flush d p mtu cs s' :: stack ∧
      s'.rba = m'.rba ∧ m'.queue = m.queue := by
  have hsame : ({ s with rba := m.rba } : FlushState) = s := by rw [← hrba]
  have hcontent : ({ c.content with alloc := c.content.alloc } : Queued) = c.content := rfl
  have hturn : m.step (.next c.content.alloc) =
      some ({ m with rba := s'.rba, stack := .flush d p mtu cs s' :: stack }.call c.cycle status) := by
    simp only [Machine.step, Machine.turn, hstack, Machine.flushTurn, hcontent, hsame, hfate]
  rw [run_cons, hturn]
  exact ⟨_, rfl, rfl, rfl, rfl⟩

theorem issue_queue (m : Machine) (d : ℕ) (c : Waiting) (ops : List Operation) (address : ℕ) :
    ∃ f, (m.issue d c ops address).queue = m.queue ++ [f] ∧ SentCycle.Awaits ⟨c.cycle, address, ops⟩ f :=
  ⟨{ cycle := c.cycle, response := Response.start address ((m.timeCache + 5) % 2 ^ 16) d ops, due := m.timeCache + 5
     serial := m.issued },
    by rw [Machine.queue, Machine.issue, List.reverse_cons, ← List.append_assoc]; rfl, ⟨rfl, rfl⟩⟩

/-- A turn that sets up a response. -/
theorem flushTurn_response {address : ℕ} (hstack : m.stack = .flush d p mtu (c :: cs) s :: stack) (hrba : s.rba = m.rba)
    (hfate : s.flushCycle p mtu c.content = (s', .response address)) :
    ∃ m' f, run Machine.step m [.next c.content.alloc] = some m' ∧ m'.stack = .flush d p mtu cs s' :: stack ∧
      s'.rba = m'.rba ∧ m'.queue = m.queue ++ [f] ∧
      SentCycle.Awaits ⟨c.cycle, address, (checkOperations p c.content.ops).1⟩ f := by
  have hsame : ({ s with rba := m.rba } : FlushState) = s := by rw [← hrba]
  have hcontent : ({ c.content with alloc := c.content.alloc } : Queued) = c.content := rfl
  have hturn : m.step (.next c.content.alloc) =
      some ({ m with rba := s'.rba, stack := .flush d p mtu cs s' :: stack }.issue d c (checkOperations p c.content.ops).1
        address) := by
    simp only [Machine.step, Machine.turn, hstack, Machine.flushTurn, hcontent, hsame, hfate]
  rw [run_cons, hturn]
  obtain ⟨f, hqueue, hf⟩ := issue_queue { m with rba := s'.rba, stack := .flush d p mtu cs s' :: stack } d c
    (checkOperations p c.content.ops).1 address
  exact ⟨_, f, rfl, rfl, rfl, hqueue, hf⟩

/-- After its turns a flush has the cycles that wait for replies at the end of the queue. -/
theorem flush_run (hstack : m.stack = .flush d p mtu cs s :: stack) (hrba : s.rba = m.rba) :
    ∃ m' fs, run Machine.step m (flushActs p mtu s cs) = some m' ∧
      m'.stack = .flush d p mtu [] (s.flushCycles p mtu (cs.map Waiting.content)).1 :: stack ∧ m'.queue = m.queue ++ fs ∧
      List.Forall₂ SentCycle.Awaits ((sentCycles p mtu s cs).filter fun x => x.Waits p) fs := by
  induction cs generalizing m s with
  | nil => exact ⟨m, [], rfl, hstack, (List.append_nil _).symm, .nil⟩
  | cons c cs ih =>
    have hcalled : ∀ status operation, (s.flushCycle p mtu c.content).2 = .callback status operation →
        (sentCycles p mtu s (c :: cs)).filter (fun x => x.Waits p) =
          (sentCycles p mtu (s.flushCycle p mtu c.content).1 cs).filter (fun x => x.Waits p) →
        ∃ m' fs, run Machine.step m (flushActs p mtu s (c :: cs)) = some m' ∧
          m'.stack = .flush d p mtu [] (s.flushCycles p mtu ((c :: cs).map Waiting.content)).1 :: stack ∧
          m'.queue = m.queue ++ fs ∧
          List.Forall₂ SentCycle.Awaits ((sentCycles p mtu s (c :: cs)).filter fun x => x.Waits p) fs := by
      intro status operation hfate hsent
      obtain ⟨m₁, hrun, hstack₁, hrba₁, hqueue₁⟩ :=
        flushTurn_callback hstack hrba (show s.flushCycle p mtu c.content =
          ((s.flushCycle p mtu c.content).1, .callback status operation) by rw [← hfate])
      obtain ⟨m', fs, hrun', hstack', hqueue', hawaits⟩ := ih hstack₁ hrba₁
      rw [hsent, flushActs, hfate, run_append, hrun]
      exact ⟨m', fs, hrun', hstack', hqueue₁ ▸ hqueue', hawaits⟩
    cases hops : formattedOps p c.content with
    | none =>
      obtain ⟨status, operation, hflush, -⟩ := FlushState.flushCycle_none (s := s) mtu hops
      apply hcalled status operation
      · rw [hflush]
      · rw [sentCycles_none hops, hflush]
    | some ops =>
      have hflush : s.flushCycle p mtu c.content = s.formatCycle p mtu ops := FlushState.flushCycle_some hops
      obtain ⟨-, -, hsame⟩ := formattedOps_spec hops
      by_cases hkept : (s.formatCycle p mtu ops).2.Kept
      · have hfate := formatCycle_fate hkept c.cycle
        by_cases hwaits : SentCycle.Waits p ⟨c.cycle, s.rba, ops⟩
        · rw [if_pos hwaits] at hfate
          obtain ⟨m₁, f, hrun, hstack₁, hrba₁, hqueue₁, hf⟩ :=
            flushTurn_response hstack hrba (show s.flushCycle p mtu c.content =
              ((s.flushCycle p mtu c.content).1, .response s.rba) by rw [hflush, ← hfate.1])
          obtain ⟨m', fs, hrun', hstack', hqueue', hawaits⟩ := ih hstack₁ hrba₁
          rw [hsame] at hf
          have hcycles : (s.flushCycles p mtu ((c :: cs).map Waiting.content)).1 =
              ((s.flushCycle p mtu c.content).1.flushCycles p mtu (cs.map Waiting.content)).1 := rfl
          rw [hcycles, sentCycles_some hops, if_pos hkept, flushActs, hflush, hfate.1, run_append, hrun]
          rw [hflush] at hrun' hstack' hawaits
          refine ⟨m', f :: fs, hrun', hstack', ?_, ?_⟩
          · rw [hqueue', hqueue₁, List.append_assoc, List.singleton_append]
          · rw [List.singleton_append, List.filter_cons_of_pos (by simpa using hwaits)]
            exact .cons hf hawaits
        · rw [if_neg hwaits] at hfate
          apply hcalled .ok (some 0)
          · rw [hflush, hfate.1]
          · rw [sentCycles_some hops, if_pos hkept, hflush, List.singleton_append,
              List.filter_cons_of_neg (by simpa using hwaits)]
      · obtain ⟨⟨status, operation, hfate⟩, -⟩ := formatCycle_overflow_rba hkept
        apply hcalled status operation
        · rw [hflush, hfate]
        · rw [sentCycles_some hops, if_neg hkept, hflush, List.nil_append]

end Turns

end WhiteRabbit.Etherbone
