import WhiteRabbit.BusFidelity

/-!
# The record loop ends, inside its limits

Each iteration of the record loop takes at most 255 writes and 255 reads off the operation list
and emits a record that is not empty. The records stay inside the send buffer unless the end
that is set from the packet size lies behind the end of the buffer.
-/

namespace WhiteRabbit.Etherbone
open BigEndian GroupPacking

variable {p : Port}

def ebDevMtu : ℕ := 0
def ebPosixUdpMtu : ℕ := 1472
def ebPosixTcpMtu : ℕ := 0
def ebTunnelMtu : ℕ := ebPosixUdpMtu

/-- The packet sizes in `eb_transports`. -/
def ebTransports : List ℕ := [ebDevMtu, ebPosixUdpMtu, ebPosixTcpMtu, ebTunnelMtu]

/-- The iterations of the record loop over a cycle: `ops` counts the bus operations since the
last read of the error register, and `l` is what is behind the cursor. -/
inductive Iteration (p : Port) (rba : ℕ) (cycle : List Operation) : ℕ → List Operation → Prop
  | first : Iteration p rba cycle 0 cycle
  | next {ops : ℕ} {l : List Operation} :
      Iteration p rba cycle ops l →
      (nextRecord p (needsCheck cycle) (maxOps p (needsCheck cycle)) rba ops l).cycleEnd = false →
      Iteration p rba cycle (nextRecord p (needsCheck cycle) (maxOps p (needsCheck cycle)) rba ops l).ops
        (nextRecord p (needsCheck cycle) (maxOps p (needsCheck cycle)) rba ops l).rest

/-- The record of an iteration, beside the numbers `wcount` and `rcount` of packed operations. -/
structure Bounded (s : RecordStep) (l : List Operation) (wcount rcount : ℕ) : Prop where
  wcount_le : wcount ≤ 255
  rcount_le : rcount ≤ 255
  writes : s.record.writes.length = wcount
  reads : s.record.reads.length = rcount ∨ rcount = 0 ∧ s.record.reads.length = 1
  filled : 0 < s.record.writes.length + s.record.reads.length ∨ s.cycleEnd = true
  cursor : s.rest = l.drop (wcount + rcount) ∧ wcount + rcount ≤ l.length

/-- What an iteration starts with. -/
structure Enters (p : Port) (cycle : List Operation) (ops : ℕ) (l : List Operation) : Prop where
  formatted : ∀ op ∈ l, Formatted p op
  pending : l = [] → needsCheck cycle = true ∧ 0 < ops

variable {rba ops : ℕ} {cycle l : List Operation}

theorem Iteration.enters (h : Iteration p rba cycle ops l) (hrba : rba < 2 ^ 16) (hne : cycle ≠ [])
    (hf : ∀ op ∈ cycle, Formatted p op) : Enters p cycle ops l := by
  induction h with
  | first => exact ⟨hf, fun h => absurd h hne⟩
  | next _ hend ih =>
    obtain ⟨ws, rs, status, hs⟩ := nextRecord_spec hrba (maxOps_pos p (needsCheck cycle)) ih.formatted
      ih.pending
    refine ⟨fun op hop => ih.formatted op ?_, hs.entry hend⟩
    rw [hs.split]
    exact List.mem_append_right _ hop

/-- A record holds a word. -/
theorem Enters.filled (h : Enters p cycle ops l) (hrba : rba < 2 ^ 16) :
    0 < (nextRecord p (needsCheck cycle) (maxOps p (needsCheck cycle)) rba ops l).record.writes.length +
      (nextRecord p (needsCheck cycle) (maxOps p (needsCheck cycle)) rba ops l).record.reads.length := by
  obtain ⟨ws, rs, status, hs⟩ := nextRecord_spec hrba (maxOps_pos p (needsCheck cycle)) h.formatted h.pending
  rw [hs.covers.writes_length, hs.covers.reads_length]
  cases ws with
  | cons w ws => exact Nat.add_pos_left (Nat.succ_pos _) _
  | nil =>
    cases rs with
    | cons r rs =>
      cases status with
      | true => exact absurd (hs.covers.no_reads rfl) (by simp)
      | false => exact Nat.add_pos_right _ (Nat.succ_pos _)
    | nil =>
      obtain ⟨hstatus, -⟩ := hs.shorter rfl rfl
      rw [if_pos hstatus]
      exact Nat.add_pos_right _ Nat.one_pos

/-- One iteration stays inside the limits. -/
theorem Enters.bounded (h : Enters p cycle ops l) (hrba : rba < 2 ^ 16) :
    Bounded (nextRecord p (needsCheck cycle) (maxOps p (needsCheck cycle)) rba ops l) l
      (packWrites p (maxOps p (needsCheck cycle)) ops l).count
      (packReads p (maxOps p (needsCheck cycle))
        (packWrites p (maxOps p (needsCheck cycle)) ops l)).count := by
  have hfilled := h.filled hrba
  obtain ⟨ws, hw⟩ := packWrites_spec p (maxOps p (needsCheck cycle)) ops l
  obtain ⟨rs, hr⟩ := packReads_spec p (maxOps p (needsCheck cycle))
    (packWrites p (maxOps p (needsCheck cycle)) ops l)
  rw [nextRecord] at hfilled ⊢
  generalize packWrites p (maxOps p (needsCheck cycle)) ops l = w at hw hr hfilled ⊢
  generalize packReads p (maxOps p (needsCheck cycle)) w = r at hr hfilled ⊢
  have hlength : w.count + r.count + r.scan.length = l.length := by
    rw [hw.split, hr.split, hw.count, hr.count, List.length_append, List.length_append, Nat.add_assoc]
  refine
    { wcount_le := hw.count ▸ hw.count_le
      rcount_le := hr.count ▸ hr.count_le
      writes := ?_
      reads := ?_
      filled := .inl hfilled
      cursor := ⟨?_, by omega⟩ }
  · dsimp only
    rw [List.length_map, List.length_take]
    omega
  · dsimp only
    split
    · rename_i hinsert
      exact .inr ⟨(of_decide_eq_true hinsert).1, rfl⟩
    · rw [List.length_map, List.length_take, List.length_drop]
      exact .inl (by omega)
  · dsimp only
    rw [hw.split, hr.split, hw.count, hr.count, ← List.append_assoc, ← List.length_append, List.drop_left]

/-- The record loop of a flush is total and in bounds. -/
structure LoopBounded (p : Port) (mtu rba : ℕ) (ready : List Queued) : Prop where
  ends : ∀ cycle ∈ ready.filterMap (formattedOps p), ∀ a < 2 ^ 16, (encodeCycle p a cycle).isSome = true
  bounded : ∀ cycle ∈ ready.filterMap (formattedOps p), ∀ a < 2 ^ 16, ∀ ops l, Iteration p a cycle ops l →
    Bounded (nextRecord p (needsCheck cycle) (maxOps p (needsCheck cycle)) a ops l) l
      (packWrites p (maxOps p (needsCheck cycle)) ops l).count
      (packReads p (maxOps p (needsCheck cycle))
        (packWrites p (maxOps p (needsCheck cycle)) ops l)).count
  inside : (ebDeviceFlush p mtu rba ready).1.overrun = false

theorem mem_formattedOps {ready : List Queued} (h : cycle ∈ ready.filterMap (formattedOps p)) :
    cycle ≠ [] ∧ ∀ op ∈ cycle, Formatted p op := by
  obtain ⟨c, -, hc⟩ := List.mem_filterMap.mp h
  obtain ⟨hne, hf, -⟩ := formattedOps_spec hc
  exact ⟨hne, hf⟩

/-- The buffer holds every packet, except on a build with 16 bit words. -/
theorem mtu_le_bufferSize {mtu : ℕ} (hmtu : mtu ∈ ebTransports) (h : mtu = 0 ∨ 4 ≤ p.word) :
    mtu ≤ p.bufferSize := by
  rw [Port.bufferSize]
  simp only [ebTransports, ebDevMtu, ebPosixUdpMtu, ebPosixTcpMtu, ebTunnelMtu, List.mem_cons,
    List.not_mem_nil, or_false] at hmtu
  omega

theorem flush_overrun (mtu : ℕ) (hrba : rba < 2 ^ 16) (ready : List Queued) :
    (ebDeviceFlush p mtu rba ready).1.overrun = false ↔ mtu = 0 ∨ InsideBuffer p mtu ready := by
  by_cases hmtu : mtu = 0
  · rw [hmtu, (flush_stream hrba ready).1]
    simp
  · rw [(flush_packets hmtu hrba ready).1, decide_eq_false_iff_not, Nat.not_lt, ← insideBuffer_iff]
    exact (or_iff_right hmtu).symm

/-- The record loop goes wrong only on a packet transport of a build with 16 bit words, where a
packet is filled past the end of the buffer. -/
theorem loopBounded_iff {mtu : ℕ} (hmtu : mtu ∈ ebTransports) (hrba : rba < 2 ^ 16) (ready : List Queued) :
    LoopBounded p mtu rba ready ↔ mtu = 0 ∨ 4 ≤ p.word ∨ InsideBuffer p mtu ready := by
  constructor
  · intro h
    cases (flush_overrun mtu hrba ready).mp h.inside with
    | inl h0 => exact .inl h0
    | inr hin => exact .inr (.inr hin)
  · intro h
    refine ⟨fun cycle hcycle a ha => ?_, fun cycle hcycle a ha ops l hl => ?_, ?_⟩
    · obtain ⟨hne, hf⟩ := mem_formattedOps hcycle
      obtain ⟨segs, recs, hrun, -⟩ := encodeCycle_spec ha hne hf
      rw [hrun, Option.isSome_some]
    · obtain ⟨hne, hf⟩ := mem_formattedOps hcycle
      exact (hl.enters ha hne hf).bounded ha
    · apply (flush_overrun mtu hrba ready).mpr
      cases h with
      | inl h0 => exact .inl h0
      | inr h =>
        cases h with
        | inl hword => exact .inr (insideBuffer_of_mtu (mtu_le_bufferSize hmtu (.inr hword)) ready)
        | inr hin => exact .inr hin

namespace Sample

theorem loopBounded_write : LoopBounded port ebPosixUdpMtu 0x8000 [queuedWrite] :=
  (loopBounded_iff (by decide) (by decide) _).mpr (.inr (.inl (by decide)))

/-- On a build with 16 bit words. -/
def wordPort : Port := .ofSizes 2 2 2 (by decide)

/-- A cycle of 510 writes to one address. -/
def longCycle : Queued where
  ops := List.replicate 510 ⟨0x4000, 0x1234, .write, false, false, false, 0x12⟩

/-- Its two records and the header take 1036 bytes; the buffer has 1032. -/
theorem longCycle_overruns : ¬ LoopBounded wordPort ebPosixUdpMtu 0x8000 [longCycle] := by
  intro h
  exact absurd h.inside (by decide +kernel)

end Sample

end WhiteRabbit.Etherbone
