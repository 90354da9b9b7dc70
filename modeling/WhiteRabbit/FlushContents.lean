import WhiteRabbit.DeviceFlush

/-!
# What a flush sends

The cycles that pass all checks and get a response are formatted. On a stream their records
are sent one after the other. On a packet transport the flush packs them as `GroupPacking`
packs groups of records: a packet holds whole cycles, and an overflowing cycle is dropped.
-/

namespace WhiteRabbit.Etherbone
open BigEndian GroupPacking

variable {p : Port}

/-- The operations of a cycle as they are formatted, when it comes that far. -/
def formattedOps (p : Port) (c : Queued) : Option (List Operation) :=
  if c.dead = true ∨ c.ops = [] ∨ c.alloc = false then none
  else
    match checkOperations p c.ops with
    | (ops, none) => some ops
    | (_, some _) => none

theorem formattedOps_spec {c : Queued} {ops : List Operation} (h : formattedOps p c = some ops) :
    ops ≠ [] ∧ (∀ op ∈ ops, Formatted p op) ∧ (checkOperations p c.ops).1 = ops := by
  rw [formattedOps] at h
  split at h
  · simp at h
  rename_i hc
  split at h
  · rename_i ops' hops
    cases h
    obtain ⟨hf, hsame⟩ := checkOperations_none hops
    refine ⟨?_, hf, by rw [hops]⟩
    rintro rfl
    have := hsame.length_eq
    simp only [List.length_nil, List.length_eq_zero_iff] at this
    exact hc (Or.inr (Or.inl this))
  · simp at h

/-- Some records encode a checked cycle. -/
def IsEncoding (p : Port) (ops : List Operation) (records : List Record) : Prop :=
  (∀ op ∈ ops, Formatted p op) ∧ ∃ rba segs, rba < 2 ^ 16 ∧ segmentOperations segs = ops ∧
    Encoded p (needsCheck ops) (maxOps p (needsCheck ops)) rba 0 segs records

theorem encodeCycle_isEncoding {rba : ℕ} {ops : List Operation} (hrba : rba < 2 ^ 16) (hne : ops ≠ [])
    (hf : ∀ op ∈ ops, Formatted p op) : IsEncoding p ops ((encodeCycle p rba ops).getD []) := by
  obtain ⟨segs, recs, hrun, hcover, henc⟩ := encodeCycle_spec hrba hne hf
  rw [hrun]
  exact ⟨hf, rba, segs, hrba, hcover, henc⟩

section Encoded

variable {needsCheck : Bool} {maxops rba ops : ℕ} {segs : List Segment} {recs : List Record}

/-- The records of an encoded cycle form a cycle on the wire. -/
theorem Encoded.wire (h : Encoded p needsCheck maxops rba ops segs recs) :
    ∃ c : WireCycle p, c.records = recs := by
  induction h with
  | last hc hcyc =>
    exact ⟨⟨[], _, by simpa using hc.wellFormed, by simp, hcyc⟩, rfl⟩
  | cons hc hcyc _ _ _ ih =>
    obtain ⟨c, rfl⟩ := ih
    refine ⟨⟨_ :: c.body, c.last, ?_, ?_, c.last_cyc⟩, rfl⟩
    · intro r hr
      rw [List.cons_append] at hr
      rcases List.mem_cons.mp hr with rfl | hr
      · exact hc.wellFormed
      · exact c.wellFormed r hr
    · exact List.forall_mem_cons.mpr ⟨hcyc, c.body_open⟩

theorem Encoded.ne_nil (h : Encoded p needsCheck maxops rba ops segs recs) : recs ≠ [] := by
  cases h <;> simp

theorem Encoded.wellFormed (h : Encoded p needsCheck maxops rba ops segs recs) :
    ∀ r ∈ recs, r.WellFormed p := by
  obtain ⟨c, rfl⟩ := h.wire
  exact c.wellFormed

end Encoded

theorem IsEncoding.wire {ops : List Operation} {recs : List Record} (h : IsEncoding p ops recs) :
    ∃ c : WireCycle p, c.records = recs := by
  obtain ⟨-, _, _, _, _, henc⟩ := h
  exact henc.wire

theorem IsEncoding.ne_nil {ops : List Operation} {recs : List Record} (h : IsEncoding p ops recs) :
    recs ≠ [] := by
  obtain ⟨-, _, _, _, _, henc⟩ := h
  exact henc.ne_nil

theorem IsEncoding.wellFormed {ops : List Operation} {recs : List Record} (h : IsEncoding p ops recs) :
    ∀ r ∈ recs, r.WellFormed p := by
  obtain ⟨-, _, _, _, _, henc⟩ := h
  exact henc.wellFormed

theorem nextRba_lt (rba : ℕ) : nextRba rba < 2 ^ 16 :=
  Nat.or_lt_two_pow (by decide) (Nat.mod_lt _ (by decide))

namespace FlushState

variable {mtu : ℕ}

variable (mtu) in
/-- A cycle that is not formatted leaves the buffer alone. -/
theorem flushCycle_none {s : FlushState} {c : Queued} (h : formattedOps p c = none) :
    ∃ status operation, s.flushCycle p mtu c = (s, .callback status operation) ∧
      (status = .ok → c.ops = []) ∧ status ≠ .overflow := by
  rw [flushCycle]
  by_cases hdead : c.dead = true
  · exact ⟨.oom, none, by simp [hdead], by simp⟩
  by_cases hops : c.ops = []
  · exact ⟨.ok, none, by simp [hdead, hops], fun _ => hops, by simp⟩
  simp only [hdead, hops, Bool.false_eq_true, if_false]
  rw [formattedOps] at h
  split
  · rename_i i reason hbad
    refine ⟨reason, some i, rfl, ?_⟩
    obtain rfl | rfl | rfl := checkOperations_reason hbad <;> simp
  · rename_i ops hgood
    by_cases halloc : c.alloc = false
    · exact ⟨.oom, none, by simp [halloc], by simp⟩
    · simp [hdead, hops, halloc, hgood] at h

/-- A formatted cycle is placed record by record. -/
theorem flushCycle_some {s : FlushState} {c : Queued} {ops : List Operation}
    (h : formattedOps p c = some ops) : s.flushCycle p mtu c = s.formatCycle p mtu ops := by
  rw [formattedOps] at h
  split at h
  · simp at h
  rename_i hc
  simp only [not_or, Bool.not_eq_true, Bool.not_eq_false] at hc
  split at h
  · rename_i ops' hops
    cases h
    simp [flushCycle, hc, hops]
  · simp at h

end FlushState

/-- The no-reads flag of a message, from the records formatted for it and for the messages
before it. -/
def stickyFlags : Bool → List (List Record) → List Bool
  | _, [] => []
  | flag, visited :: rest =>
    (flag || !(visited.any fun r => decide r.HasReads)) ::
      stickyFlags (flag || !(visited.any fun r => decide r.HasReads)) rest

theorem stickyFlags_append (flag : Bool) (vs ws : List (List Record)) :
    stickyFlags flag (vs ++ ws) = stickyFlags flag vs ++
      stickyFlags (vs.foldl (fun f v => f || !(v.any fun r => decide r.HasReads)) flag) ws := by
  induction vs generalizing flag with
  | nil => rfl
  | cons v vs ih => simp [stickyFlags, ih]

/-- The state of a flush on a packet transport, seen as a packing of records. -/
structure Packs (p : Port) (s : FlushState) (q : Packing Record) : Prop where
  records : s.sent.map Message.records = q.packets.map fun k => k.groups.flatten
  closed : s.closed = q.closed.flatten
  groups_ne : ∀ g ∈ q.closed, g ≠ []
  current : s.current = q.current
  wellFormed : ∀ r ∈ s.closed ++ s.current, r.WellFormed p
  hasReads : s.hasReads = q.visited.any fun r => decide r.HasReads
  noReads : s.noReads =
    (q.packets.map Packet.visited).foldl (fun f v => f || !(v.any fun r => decide r.HasReads)) false
  flags : s.sent.map Message.noReads = stickyFlags false (q.packets.map Packet.visited)
  overrun : s.overrun = decide (p.bufferSize < p.headerAlignment + q.peak)

theorem length_recordBytes {rs : List Record} (h : ∀ r ∈ rs, r.WellFormed p) :
    (recordBytes p rs).length = load (Record.length p) rs := by
  induction rs with
  | nil => rfl
  | cons r rs ih =>
    obtain ⟨hr, hrs⟩ := List.forall_mem_cons.mp h
    rw [recordBytes_cons, List.length_append, ih hrs, Record.length_bytes hr]
    simp [load]

namespace Packs

variable {mtu : ℕ} {s : FlushState} {q : Packing Record}

theorem start (p : Port) (rba : ℕ) : Packs p (FlushState.start rba) Packing.empty := by
  have hra : p.headerAlignment = p.recordAlignment := rfl
  have hsize : p.headerAlignment ≤ p.bufferSize := by
    have := p.record_fits
    omega
  constructor <;> simp [FlushState.start, Packing.empty, stickyFlags, hsize]

theorem used (hmtu : mtu ≠ 0) (h : Packs p s q) :
    s.used p mtu = p.headerAlignment + q.fill (Record.length p) := by
  have hc : ∀ r ∈ s.closed, r.WellFormed p := fun r hr => h.wellFormed r (List.mem_append_left _ hr)
  have ho : ∀ r ∈ s.current, r.WellFormed p := fun r hr => h.wellFormed r (List.mem_append_right _ hr)
  rw [FlushState.used, length_recordBytes hc, length_recordBytes ho, h.closed, h.current, headerSize,
    if_neg hmtu, Packing.fill, Nat.add_assoc]

theorem room (hmtu : mtu ≠ 0) (h : Packs p s q) (r : Record) :
    s.used p mtu + r.length p ≤ endOfBuffer p mtu ↔
      q.fill (Record.length p) + r.length p ≤ mtu - p.headerAlignment := by
  have hpos := Record.length_pos p r
  rw [h.used hmtu, endOfBuffer, if_neg hmtu]
  omega

theorem append (hmtu : mtu ≠ 0) (h : Packs p s q) {r : Record} (hr : r.WellFormed p) :
    Packs p (s.append p mtu r) (q.put (Record.length p) r) where
  records := h.records
  closed := h.closed
  groups_ne := h.groups_ne
  current := by simp [FlushState.append, Packing.put, h.current]
  wellFormed := by
    intro x hx
    simp only [FlushState.append, ← List.append_assoc] at hx
    rcases List.mem_append.mp hx with hx | hx
    · exact h.wellFormed x hx
    · rwa [List.mem_singleton.mp hx]
  hasReads := by simp [FlushState.append, Packing.put, h.hasReads]
  noReads := h.noReads
  flags := h.flags
  overrun := by
    have hpeak : (q.put (Record.length p) r).peak = max q.peak (q.fill (Record.length p) + r.length p) := rfl
    simp only [FlushState.append, h.overrun, h.used hmtu, hpeak, ← Bool.decide_or, decide_eq_decide]
    omega

theorem sendClosed (h : Packs p s q) : Packs p s.sendClosed q.close := by
  have hiff : s.closed = [] ↔ q.closed = [] := by
    rw [h.closed, List.flatten_eq_nil_iff]
    constructor
    · intro hall
      cases hq : q.closed with
      | nil => rfl
      | cons g gs => exact absurd (hall g (by simp [hq])) (h.groups_ne g (by simp [hq]))
    · intro hq
      simp [hq]
  rw [FlushState.sendClosed, Packing.close]
  by_cases hc : s.closed = []
  · rw [if_pos hc, if_pos (hiff.mp hc)]
    exact h
  · rw [if_neg hc, if_neg (fun hq => hc (hiff.mpr hq))]
    exact
      { records := by simp [h.records, h.closed]
        closed := rfl
        groups_ne := by simp
        current := h.current
        wellFormed := fun r hr => h.wellFormed r (List.mem_append_right _ (by simpa using hr))
        hasReads := rfl
        noReads := by simp [h.noReads, h.hasReads]
        flags := by
          rw [List.map_append, List.map_append, h.flags, stickyFlags_append]
          simp [stickyFlags, h.noReads, h.hasReads]
        overrun := h.overrun }

theorem placeRecord (hmtu : mtu ≠ 0) (h : Packs p s q) {r : Record} (hr : r.WellFormed p) :
    Packs p (s.placeRecord p mtu r).1 (place (Record.length p) (mtu - p.headerAlignment) q r).1 ∧
      (s.placeRecord p mtu r).2 = (place (Record.length p) (mtu - p.headerAlignment) q r).2 := by
  rw [FlushState.placeRecord, place]
  by_cases hroom : s.used p mtu + r.length p ≤ endOfBuffer p mtu
  · rw [if_pos hroom, if_pos ((h.room hmtu r).mp hroom)]
    exact ⟨h.append hmtu hr, rfl⟩
  · rw [if_neg hroom, if_neg (fun hq => hroom ((h.room hmtu r).mpr hq)), if_neg hmtu]
    have hs := h.sendClosed
    dsimp only
    by_cases hroom' : s.sendClosed.used p mtu + r.length p ≤ endOfBuffer p mtu
    · rw [if_pos hroom', if_pos ((hs.room hmtu r).mp hroom')]
      exact ⟨hs.append hmtu hr, rfl⟩
    · rw [if_neg hroom', if_neg (fun hq => hroom' ((hs.room hmtu r).mpr hq))]
      exact ⟨hs, rfl⟩

theorem placeRecords (hmtu : mtu ≠ 0) (h : Packs p s q) {rs : List Record}
    (hrs : ∀ r ∈ rs, r.WellFormed p) (operation : ℕ) :
    Packs p (s.placeRecords p mtu operation rs).1
        (placeAll (Record.length p) (mtu - p.headerAlignment) q rs).1 ∧
      (s.placeRecords p mtu operation rs).2.2 =
        (placeAll (Record.length p) (mtu - p.headerAlignment) q rs).2 := by
  induction rs generalizing s q operation with
  | nil => exact ⟨h, rfl⟩
  | cons r rs ih =>
    obtain ⟨hr, hrs'⟩ := List.forall_mem_cons.mp hrs
    obtain ⟨hp, hroom⟩ := h.placeRecord hmtu hr
    rw [FlushState.placeRecords, placeAll]
    rcases hs : s.placeRecord p mtu r with ⟨s', b⟩
    rcases hq : place (Record.length p) (mtu - p.headerAlignment) q r with ⟨q', b'⟩
    rw [hs, hq] at hp hroom
    dsimp only at hp hroom
    subst hroom
    cases b with
    | true => exact ih hp hrs' _
    | false => exact ⟨hp, rfl⟩

/-- A cycle with all its records in the buffer is a group. -/
theorem closeCycle (h : Packs p s q) (hne : q.current ≠ []) (recs : List Record) :
    Packs p (s.closeCycle recs).1 { q with closed := q.closed ++ [q.current], current := [] } := by
  have hs : Packs p { s with closed := s.closed ++ s.current, current := [] }
      { q with closed := q.closed ++ [q.current], current := [] } :=
    { records := h.records
      closed := by simp [h.closed, h.current]
      groups_ne := by
        intro g hg
        rcases List.mem_append.mp hg with hg | hg
        · exact h.groups_ne g hg
        · rwa [List.mem_singleton.mp hg]
      current := rfl
      wellFormed := by simpa using h.wellFormed
      hasReads := h.hasReads
      noReads := h.noReads
      flags := h.flags
      overrun := h.overrun }
  rw [FlushState.closeCycle]
  dsimp only
  split
  · exact ⟨hs.records, hs.closed, hs.groups_ne, hs.current, hs.wellFormed, hs.hasReads, hs.noReads,
      hs.flags, hs.overrun⟩
  · exact hs

/-- An overflowing cycle is taken out of the buffer. -/
theorem dropCurrent (h : Packs p s q) : Packs p { s with current := [] } { q with current := [] } where
  records := h.records
  closed := h.closed
  groups_ne := h.groups_ne
  current := rfl
  wellFormed r hr := h.wellFormed r (List.mem_append_left _ (by simpa using hr))
  hasReads := h.hasReads
  noReads := h.noReads
  flags := h.flags
  overrun := h.overrun

end Packs

/-- The fates of a cycle that was formatted and kept. -/
def CycleFate.Kept : CycleFate → Prop
  | .response _ => True
  | .callback status _ => status = .ok

instance : (fate : CycleFate) → Decidable fate.Kept
  | .response _ => inferInstanceAs (Decidable True)
  | .callback status _ => inferInstanceAs (Decidable (status = .ok))

/-- The operations of the cycles that are not reported with an error, as formatted. -/
def acceptedOps (p : Port) : List Queued → List CycleFate → List Operation
  | c :: cs, fate :: fates =>
    (if fate.Kept then (checkOperations p c.ops).1 else []) ++ acceptedOps p cs fates
  | _, _ => []

/-- A cycle that is called back before it was formatted adds nothing. -/
theorem acceptedOps_callback {c : Queued} {status : Status} (cs : List Queued) (fates : List CycleFate)
    (operation : Option ℕ) (h : status = .ok → c.ops = []) :
    acceptedOps p (c :: cs) (.callback status operation :: fates) = acceptedOps p cs fates := by
  rw [acceptedOps]
  by_cases hkept : status = .ok
  · simp [h hkept, checkOperations]
  · simp [CycleFate.Kept, hkept]

theorem closeCycle_kept (s : FlushState) (recs : List Record) : (s.closeCycle recs).2.Kept := by
  rw [FlushState.closeCycle]
  dsimp only
  split <;> trivial

theorem closeCycle_rba {s : FlushState} (h : s.rba < 2 ^ 16) (recs : List Record) :
    (s.closeCycle recs).1.rba < 2 ^ 16 := by
  rw [FlushState.closeCycle]
  dsimp only
  split
  · exact nextRba_lt _
  · exact h

section Place

variable {mtu : ℕ}

variable (mtu) in
theorem placeRecord_rba (s : FlushState) (r : Record) : (s.placeRecord p mtu r).1.rba = s.rba := by
  have hclosed : s.sendClosed.rba = s.rba := by
    rw [FlushState.sendClosed]
    split <;> rfl
  rw [FlushState.placeRecord]
  split
  · rfl
  · split
    · rfl
    · dsimp only
      split <;> exact hclosed

variable (mtu) in
theorem placeRecords_rba (s : FlushState) (operation : ℕ) (rs : List Record) :
    (s.placeRecords p mtu operation rs).1.rba = s.rba := by
  induction rs generalizing s operation with
  | nil => rfl
  | cons r rs ih =>
    have hr := placeRecord_rba (p := p) mtu s r
    rw [FlushState.placeRecords]
    split
    · rename_i s' hs
      rw [hs] at hr
      rw [ih, hr]
    · rename_i s' hs
      rw [hs] at hr
      exact hr

theorem formatCycle_rba {s : FlushState} (h : s.rba < 2 ^ 16) (ops : List Operation) :
    (s.formatCycle p mtu ops).1.rba < 2 ^ 16 := by
  have hp := placeRecords_rba (p := p) mtu s 0 ((encodeCycle p s.rba ops).getD [])
  rw [FlushState.formatCycle]
  split
  · rename_i s' _ hs
    rw [hs] at hp
    exact hp ▸ h
  · rename_i s' _ hs
    rw [hs] at hp
    exact closeCycle_rba (hp ▸ h) _

/-- A response takes the return address; otherwise it stays. -/
theorem flushCycle_rba {s s' : FlushState} {c : Queued} {fate : CycleFate}
    (h : s.flushCycle p mtu c = (s', fate)) :
    match fate with
    | .callback _ _ => s'.rba = s.rba
    | .response address => address = s.rba ∧ s'.rba = nextRba s.rba := by
  cases hc : formattedOps p c with
  | none =>
    obtain ⟨status, operation, hflush, -⟩ := FlushState.flushCycle_none (s := s) mtu hc
    cases hflush.symm.trans h
    rfl
  | some ops =>
    rw [FlushState.flushCycle_some hc, FlushState.formatCycle] at h
    have hp := placeRecords_rba (p := p) mtu s 0 ((encodeCycle p s.rba ops).getD [])
    split at h
    · rename_i placed operation hplace
      cases h
      rw [hplace] at hp
      exact hp
    · rename_i placed operation hplace
      rw [hplace] at hp
      rw [FlushState.closeCycle] at h
      dsimp only at hp h
      split at h
      · cases h
        exact ⟨hp, by rw [hp]⟩
      · cases h
        exact hp

/-- Formatting a cycle is placing a group. -/
theorem formatCycle_packs {s : FlushState} {q : Packing Record} (hmtu : mtu ≠ 0) (h : Packs p s q)
    (hcur : q.current = []) {ops : List Operation}
    (henc : IsEncoding p ops ((encodeCycle p s.rba ops).getD [])) :
    Packs p (s.formatCycle p mtu ops).1
        (placeGroup (Record.length p) (mtu - p.headerAlignment) q ((encodeCycle p s.rba ops).getD [])).1 ∧
      ((s.formatCycle p mtu ops).2.Kept ↔
        (placeGroup (Record.length p) (mtu - p.headerAlignment) q
          ((encodeCycle p s.rba ops).getD [])).2 = true) := by
  obtain ⟨hp, hroom⟩ := h.placeRecords hmtu henc.wellFormed 0
  obtain ⟨-, hall⟩ := placeAll_groups (Record.length p) (mtu - p.headerAlignment) q
    ((encodeCycle p s.rba ops).getD [])
  have hne := henc.ne_nil
  rw [FlushState.formatCycle, placeGroup]
  generalize (encodeCycle p s.rba ops).getD [] = recs at hp hroom hall hne
  rcases hs : s.placeRecords p mtu 0 recs with ⟨s', operation, b⟩
  rcases hq : placeAll (Record.length p) (mtu - p.headerAlignment) q recs with ⟨q', b'⟩
  rw [hs, hq] at hp hroom
  rw [hq] at hall
  dsimp only at hp hroom hall ⊢
  subst hroom
  cases b with
  | true =>
    have hcur' : q'.current ≠ [] := by
      rw [hall rfl, hcur, List.nil_append]
      exact hne
    exact ⟨hp.closeCycle hcur' recs, by simp [closeCycle_kept]⟩
  | false =>
    exact ⟨hp.dropCurrent, by simp [CycleFate.Kept]⟩

/-- The groups of records that a flush formats, with their operations. -/
theorem flushCycles_packs {s : FlushState} {q : Packing Record} (hmtu : mtu ≠ 0) (h : Packs p s q)
    (hcur : q.current = []) (hrba : s.rba < 2 ^ 16) (ready : List Queued) :
    ∃ groups : List (List Record),
      List.Forall₂ (fun ops recs => IsEncoding p ops recs ∧ ∃ rba, recs = (encodeCycle p rba ops).getD [])
        (ready.filterMap (formattedOps p)) groups ∧
      Packs p (s.flushCycles p mtu ready).1
        (packGroups (Record.length p) (mtu - p.headerAlignment) q groups).1 ∧
      acceptedOps p ready (s.flushCycles p mtu ready).2 =
        (select (ready.filterMap (formattedOps p))
          (packGroups (Record.length p) (mtu - p.headerAlignment) q groups).2).flatten := by
  induction ready generalizing s q with
  | nil => exact ⟨[], .nil, h, rfl⟩
  | cons c cs ih =>
    rw [FlushState.flushCycles]
    cases hc : formattedOps p c with
    | none =>
      obtain ⟨status, operation, hflush, hok, -⟩ := FlushState.flushCycle_none (s := s) mtu hc
      obtain ⟨groups, hencs, hpacks, hacc⟩ := ih h hcur hrba
      refine ⟨groups, by rwa [List.filterMap_cons_none hc], by rwa [hflush], ?_⟩
      rw [List.filterMap_cons_none hc, hflush, ← hacc]
      exact acceptedOps_callback cs _ operation hok
    | some ops =>
      obtain ⟨hne, hf, hops⟩ := formattedOps_spec hc
      have henc := encodeCycle_isEncoding hrba hne hf
      obtain ⟨hpacks, hkept⟩ := formatCycle_packs hmtu h hcur henc
      obtain ⟨-, hcur'⟩ := placeGroup_groups (Record.length p) (mtu - p.headerAlignment)
        hcur ((encodeCycle p s.rba ops).getD [])
      obtain ⟨groups, hencs, hpacks', hacc⟩ := ih hpacks hcur' (formatCycle_rba hrba ops)
      rw [FlushState.flushCycle_some hc]
      refine ⟨(encodeCycle p s.rba ops).getD [] :: groups, ?_, hpacks', ?_⟩
      · rw [List.filterMap_cons_some hc]
        exact .cons ⟨henc, s.rba, rfl⟩ hencs
      · rw [List.filterMap_cons_some hc, packGroups, select, List.flatten_append, ← hacc, acceptedOps, hops]
        congr 1
        by_cases hk : (s.formatCycle p mtu ops).2.Kept
        · rw [if_pos hk, if_pos (hkept.mp hk)]
          simp
        · rw [if_neg hk, if_neg (fun h => hk (hkept.mpr h))]
          rfl

end Place

section Stream

/-- The records in the buffer of a stream, and those sent before. -/
def FlushState.streamed (s : FlushState) : List Record :=
  s.sent.flatMap Message.records ++ s.closed ++ s.current

/-- On a stream there is always room for a record. -/
theorem placeRecord_stream (s : FlushState) {r : Record} (hr : r.WellFormed p) :
    (s.placeRecord p 0 r).2 = true ∧ (s.placeRecord p 0 r).1.streamed = s.streamed ++ [r] ∧
      (s.placeRecord p 0 r).1.overrun = s.overrun := by
  have hfits := Record.length_le_bufferSize hr
  have hempty : s.sendStream.used p 0 = 0 := rfl
  rw [FlushState.placeRecord]
  by_cases hroom : s.used p 0 + r.length p ≤ endOfBuffer p 0
  · rw [if_pos hroom]
    have hroom' : s.used p 0 + r.length p ≤ p.bufferSize := hroom
    exact ⟨rfl, by simp [FlushState.append, FlushState.streamed],
      by simp [FlushState.append, Nat.not_lt.mpr hroom']⟩
  · rw [if_neg hroom, if_pos rfl]
    refine ⟨rfl, by simp [FlushState.append, FlushState.sendStream, FlushState.streamed], ?_⟩
    simp only [FlushState.append, hempty, Nat.zero_add, Nat.not_lt.mpr hfits, decide_false,
      Bool.or_false]
    rfl

theorem placeRecords_stream (s : FlushState) (operation : ℕ) {rs : List Record}
    (hrs : ∀ r ∈ rs, r.WellFormed p) :
    (s.placeRecords p 0 operation rs).2.2 = true ∧
      (s.placeRecords p 0 operation rs).1.streamed = s.streamed ++ rs ∧
      (s.placeRecords p 0 operation rs).1.overrun = s.overrun := by
  induction rs generalizing s operation with
  | nil => exact ⟨rfl, (List.append_nil _).symm, rfl⟩
  | cons r rs ih =>
    obtain ⟨hr, hrs'⟩ := List.forall_mem_cons.mp hrs
    obtain ⟨hkept, hstream, hover⟩ := placeRecord_stream s hr
    rw [FlushState.placeRecords]
    rcases hs : s.placeRecord p 0 r with ⟨s', b⟩
    rw [hs] at hkept hstream hover
    dsimp only at hkept hstream hover
    subst hkept
    obtain ⟨hkept', hstream', hover'⟩ :=
      ih s' (operation + r.writes.length + if r.ret % 2 = 1 then 0 else r.reads.length) hrs'
    exact ⟨hkept', by rw [hstream', hstream, List.append_assoc]; rfl, hover'.trans hover⟩

theorem formatCycle_stream (s : FlushState) {ops : List Operation}
    (hwf : ∀ r ∈ (encodeCycle p s.rba ops).getD [], r.WellFormed p) :
    (s.formatCycle p 0 ops).2.Kept ∧
      (s.formatCycle p 0 ops).1.streamed = s.streamed ++ (encodeCycle p s.rba ops).getD [] ∧
      (s.formatCycle p 0 ops).1.overrun = s.overrun := by
  obtain ⟨hkept, hstream, hover⟩ := placeRecords_stream s 0 hwf
  rw [FlushState.formatCycle]
  generalize (encodeCycle p s.rba ops).getD [] = recs at hkept hstream hover
  rcases hs : s.placeRecords p 0 0 recs with ⟨s', operation, b⟩
  rw [hs] at hkept hstream hover
  dsimp only at hkept hstream hover ⊢
  subst hkept
  refine ⟨closeCycle_kept s' recs, ?_, ?_⟩
  · change (s'.closeCycle recs).1.streamed = _
    rw [← hstream, FlushState.closeCycle]
    dsimp only
    split <;> simp [FlushState.streamed]
  · change (s'.closeCycle recs).1.overrun = _
    rw [← hover, FlushState.closeCycle]
    dsimp only
    split <;> rfl

/-- A flush on a stream formats every checked cycle, in order. -/
theorem flushCycles_stream {s : FlushState} (hrba : s.rba < 2 ^ 16) (ready : List Queued) :
    ∃ groups : List (List Record),
      List.Forall₂ (fun ops recs => IsEncoding p ops recs ∧ ∃ rba, recs = (encodeCycle p rba ops).getD [])
        (ready.filterMap (formattedOps p)) groups ∧
      (s.flushCycles p 0 ready).1.streamed = s.streamed ++ groups.flatten ∧
      (s.flushCycles p 0 ready).1.overrun = s.overrun ∧
      acceptedOps p ready (s.flushCycles p 0 ready).2 = (ready.filterMap (formattedOps p)).flatten := by
  induction ready generalizing s with
  | nil => exact ⟨[], .nil, (List.append_nil _).symm, rfl, rfl⟩
  | cons c cs ih =>
    rw [FlushState.flushCycles]
    cases hc : formattedOps p c with
    | none =>
      obtain ⟨status, operation, hflush, hok, -⟩ := FlushState.flushCycle_none (s := s) 0 hc
      obtain ⟨groups, hencs, hstream, hover, hacc⟩ := ih hrba
      refine ⟨groups, by rwa [List.filterMap_cons_none hc], by rwa [hflush], by rwa [hflush], ?_⟩
      rw [List.filterMap_cons_none hc, hflush, ← hacc]
      exact acceptedOps_callback cs _ operation hok
    | some ops =>
      obtain ⟨hne, hf, hops⟩ := formattedOps_spec hc
      have henc := encodeCycle_isEncoding hrba hne hf
      obtain ⟨hkept, hstream, hover⟩ := formatCycle_stream s henc.wellFormed
      obtain ⟨groups, hencs, hstream', hover', hacc⟩ := ih (formatCycle_rba hrba ops)
      rw [FlushState.flushCycle_some hc]
      refine ⟨(encodeCycle p s.rba ops).getD [] :: groups, ?_, ?_, hover'.trans hover, ?_⟩
      · rw [List.filterMap_cons_some hc]
        exact .cons ⟨henc, s.rba, rfl⟩ hencs
      · rw [hstream', hstream, List.flatten_cons, List.append_assoc]
      · rw [List.filterMap_cons_some hc, List.flatten_cons, ← hacc, acceptedOps, if_pos hkept, hops]

theorem finish_stream (s : FlushState) :
    (s.finish 0).sent.flatMap Message.records = s.streamed ∧ (s.finish 0).overrun = s.overrun := by
  rw [FlushState.finish, if_pos rfl]
  split
  · rename_i h
    exact ⟨by rw [FlushState.streamed, List.append_assoc, h, List.append_nil], rfl⟩
  · exact ⟨by simp [FlushState.sendStream, FlushState.streamed], rfl⟩

end Stream

end WhiteRabbit.Etherbone
