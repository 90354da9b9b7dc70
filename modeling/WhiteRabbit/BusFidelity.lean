import WhiteRabbit.EncodingShape
import WhiteRabbit.MessageDecoder
import WhiteRabbit.PacketSections
import WhiteRabbit.StreamFragmentation

/-!
# From queued operations to bus accesses

A flush encodes the queued cycles; a peer with the same widths decodes them. Of what the
peer does only the calls of the bus functions are compared with the queue here. On a stream
every cycle before a killed link is executed, on a packet transport every cycle that did not
overflow, as long as the flush stays inside its buffer.
-/

namespace WhiteRabbit.Etherbone
open BigEndian GroupPacking

variable {p : Port}

def Event.isBus : Event → Bool
  | .write .. | .read .. => true
  | .writeConfig .. | .readConfig .. => false

/-- The bus call of an access. -/
def Access.busEvents : Access → List Event
  | .write widths addrB addrL value => [.write widths addrB addrL value]
  | .read widths addrB addrL => [.read widths addrB addrL]
  | .writeConfig .. | .readConfig .. | .badWrite | .badRead | .badWriteConfig | .badReadConfig => []

/-- The call that a bus operation asks for: with its size, at the address of its endian, and
with the value of a write. -/
def Performs (p : Port) (op : Operation) : Event → Prop
  | .write widths addrB addrL value =>
    op.isWrite = true ∧ widths = p.opWidths op.size ∧ op.busAddress addrB addrL = op.address ∧
      value = op.value
  | .read widths addrB addrL =>
    op.isRead = true ∧ widths = p.opWidths op.size ∧ op.busAddress addrB addrL = op.address
  | .writeConfig .. | .readConfig .. => False

/-- The bus calls of a trace are the bus operations queued, each once and in order. -/
def Faithful (p : Port) (queued : List Operation) (trace : List Event) : Prop :=
  List.Forall₂ (Performs p) (queued.filter Operation.isBus) (trace.filter Event.isBus)

def busEvents (as : List Access) : List Event := as.flatMap Access.busEvents

@[simp] theorem busEvents_append (as bs : List Access) :
    busEvents (as ++ bs) = busEvents as ++ busEvents bs := List.flatMap_append

section Operations

/-- A bus operation is one call. -/
theorem Formatted.performs {op : Operation} (h : Formatted p op) (hb : op.cfgSpace = false) :
    ∃ e, (op.access p).busEvents = [e] ∧ Performs p op e := by
  have haddr := h.busAddress_eq hb
  rw [Operation.access, hb]
  cases hw : op.isWrite with
  | true => exact ⟨_, rfl, hw, rfl, haddr, rfl⟩
  | false => exact ⟨_, rfl, by simp [Operation.isRead, hw], rfl, haddr⟩

theorem busEvents_config {op : Operation} (hc : op.cfgSpace = true) : (op.access p).busEvents = [] := by
  cases hw : op.isWrite <;> simp [Operation.access, hw, hc, Access.busEvents]

theorem performs_operations {ops : List Operation} (h : ∀ op ∈ ops, Formatted p op) :
    List.Forall₂ (Performs p) (ops.filter Operation.isBus)
      (busEvents (ops.map (Operation.access p))) := by
  induction ops with
  | nil => exact .nil
  | cons op ops ih =>
    obtain ⟨hop, hops⟩ := List.forall_mem_cons.mp h
    rw [busEvents, List.map_cons, List.flatMap_cons]
    cases hc : op.cfgSpace with
    | true =>
      rw [busEvents_config hc, List.filter_cons_of_neg (by simp [Operation.isBus, hc])]
      exact ih hops
    | false =>
      obtain ⟨e, he, hperf⟩ := hop.performs hc
      rw [he, List.filter_cons_of_pos (by simp [Operation.isBus, hc])]
      exact .cons hperf (ih hops)

theorem Covers.busEvents {rba : ℕ} {ws rs : List Operation} {status : Bool} {r : Record}
    (h : Covers p rba ws rs status r) :
    busEvents (r.accesses p) = Etherbone.busEvents ((ws ++ rs).map (Operation.access p)) := by
  rw [h.accesses, busEvents_append, List.map_append, busEvents_append]
  cases status with
  | true =>
    rw [h.no_reads rfl]
    rfl
  | false => rfl

/-- The reads of the error register do not show on the bus. -/
theorem Encoded.busEvents {needsCheck : Bool} {maxops rba ops : ℕ} {segs : List Segment}
    {recs : List Record} (h : Encoded p needsCheck maxops rba ops segs recs) :
    Etherbone.busEvents (recordAccesses p recs) =
      Etherbone.busEvents ((segmentOperations segs).map (Operation.access p)) := by
  induction h with
  | last hc _ _ _ _ =>
    simpa [Segment.operations] using hc.busEvents
  | cons hc _ _ _ _ ih =>
    rw [recordAccesses_cons, busEvents_append, hc.busEvents, ih, segmentOperations_cons,
      Segment.operations]
    simp only [List.map_append, busEvents_append]

theorem IsEncoding.performs {ops : List Operation} {recs : List Record} (h : IsEncoding p ops recs) :
    List.Forall₂ (Performs p) (ops.filter Operation.isBus) (busEvents (recordAccesses p recs)) := by
  obtain ⟨hf, rba, segs, -, rfl, henc⟩ := h
  rw [henc.busEvents]
  exact performs_operations hf

/-- The calls of several cycles, in order. -/
theorem performs_cycles {opss : List (List Operation)} {groups : List (List Record)}
    (h : List.Forall₂ (IsEncoding p) opss groups) :
    List.Forall₂ (Performs p) (opss.flatten.filter Operation.isBus)
      (busEvents (recordAccesses p groups.flatten)) := by
  induction h with
  | nil => exact .nil
  | cons hc _ ih =>
    rw [List.flatten_cons, List.flatten_cons, List.filter_append, recordAccesses_append, busEvents_append]
    exact List.rel_append hc.performs ih

end Operations

section Trace

variable {σ : Type} {g : Glue σ}

theorem busEvents_eventOf (error : ℕ) (a : Access) : (eventOf error a).filter Event.isBus = a.busEvents := by
  cases a <;> rfl

theorem filter_events (s : σ) (error : ℕ) (as : List Access) :
    (events g s error as).filter Event.isBus = busEvents as := by
  induction as generalizing s error with
  | nil => rfl
  | cons a as ih =>
    rw [events, List.filter_append, busEvents_eventOf, ih]
    rfl

theorem Session.run_busTrace (s : Session σ) (rs : List Record) :
    (s.run g p rs).1.bus.trace.filter Event.isBus =
      s.bus.trace.filter Event.isBus ++ busEvents (recordAccesses p rs) := by
  rw [Session.run_bus, performAll_eq, List.filter_append, filter_events]

/-- New sessions do not show on the bus. -/
theorem Session.replay_busTrace (cut : ℕ → Bool) (o : ℕ) (s : Session σ) (rs : List Record) :
    (s.replay g p cut o rs).1.bus.trace.filter Event.isBus =
      s.bus.trace.filter Event.isBus ++ busEvents (recordAccesses p rs) := by
  induction rs generalizing o s with
  | nil => simp [Session.replay, busEvents]
  | cons r rs ih =>
    have hstep : (s.step g p r).1.bus.trace.filter Event.isBus =
        s.bus.trace.filter Event.isBus ++ busEvents (r.accesses p) := by
      rw [Session.step_bus, performAll_eq, List.filter_append, filter_events]
    rw [Session.replay, recordAccesses_cons, busEvents_append, ← List.append_assoc, ← hstep]
    dsimp only
    rw [ih]
    split <;> rfl

end Trace

section Stream

variable {σ : Type} {g : Glue σ}

/-- How much of a stream is executed: all cycles, or those before the first header with a
cut in it. -/
theorem stream_busTrace (sock : σ) {cycles : List (WireCycle p)} {chunks : List Bytes}
    (hchunks : ∀ c ∈ chunks, c ≠ []) (hstream : chunks.flatten = streamBytes cycles) :
    ∃ done rest, cycles = done ++ rest ∧
      (deliverAll g p (Link.fresh sock) chunks).slave.bus.trace.filter Event.isBus =
        busEvents (streamAccesses done) ∧
      HeadersUncut done chunks ∧
      (∀ c ∈ rest.head?, ∃ o ∈ boundaries chunks,
        (streamBytes done).length < o ∧ o < (streamBytes done).length + p.recordAlignment) := by
  have htrace : ∀ rs, ((Session.fresh sock).replay g p (fun o => decide (o ∈ boundaries chunks)) 0
      rs).1.bus.trace.filter Event.isBus = busEvents (recordAccesses p rs) := fun rs => by
    rw [Session.replay_busTrace]
    rfl
  rcases stream_outcome (g := g) sock hchunks hstream with
    ⟨hp, hwhole, -⟩ | ⟨done, rest, he, hne, hp, -, hwhole, hend, i, h0, hi, hcut⟩
  · refine ⟨cycles, [], (List.append_nil _).symm, ?_, headersUncut_iff.mpr hwhole, by simp⟩
    rw [hp.trace, htrace]
    rfl
  · obtain ⟨ds, rs, rfl, rfl, rfl⟩ := split_cycles he hend
    refine ⟨ds, rs, rfl, ?_, headersUncut_iff.mpr hwhole, fun c _ => ?_⟩
    · rw [hp.trace, htrace]
      rfl
    · refine ⟨_, of_decide_eq_true hcut, ?_⟩
      change 0 + (streamBytes ds).length + i > _ ∧ _ > 0 + (streamBytes ds).length + i
      omega

/-- What a flush did to a list of cycles: one cycle on the wire for each, with the size that
its operations give it. -/
def Laid (p : Port) (ops : List Operation) (c : WireCycle p) : Prop :=
  IsEncoding p ops c.records ∧ c.bytes.length = encodedSize p ops

theorem laid_cycles {opss : List (List Operation)} {groups : List (List Record)}
    (h : List.Forall₂ (fun ops recs => IsEncoding p ops recs ∧
      ∃ rba, recs = (encodeCycle p rba ops).getD []) opss groups) :
    ∃ cycles : List (WireCycle p), streamRecords cycles = groups.flatten ∧
      List.Forall₂ (Laid p) opss cycles := by
  induction h with
  | nil => exact ⟨[], rfl, .nil⟩
  | cons hc _ ih =>
    obtain ⟨henc, rba, hrba⟩ := hc
    have hlen := length_encoding henc hrba
    obtain ⟨c, rfl⟩ := henc.wire
    obtain ⟨cs, hcs, hlaid⟩ := ih
    exact ⟨c :: cs, by rw [streamRecords_cons, hcs, List.flatten_cons], .cons ⟨henc, hlen⟩ hlaid⟩

section Laid

variable {opss : List (List Operation)} {cycles : List (WireCycle p)}

theorem performs_laid (h : List.Forall₂ (Laid p) opss cycles) :
    List.Forall₂ (Performs p) (opss.flatten.filter Operation.isBus) (busEvents (streamAccesses cycles)) := by
  have hrecords : List.Forall₂ (IsEncoding p) opss (cycles.map WireCycle.records) :=
    List.forall₂_map_right_iff.mpr (h.imp fun _ _ hl => hl.1)
  have hflat : (cycles.map WireCycle.records).flatten = streamRecords cycles := List.flatMap_def.symm
  rw [streamAccesses, ← hflat]
  exact performs_cycles hrecords

theorem length_laid (h : List.Forall₂ (Laid p) opss cycles) :
    (streamBytes cycles).length = (opss.map (encodedSize p)).sum := by
  induction h with
  | nil => rfl
  | cons hc _ ih => rw [streamBytes_cons, List.length_append, hc.2, ih, List.map_cons, List.sum_cons]

/-- Cutting the wire between two cycles cuts the queue. -/
theorem laid_append {done rest : List (WireCycle p)} (h : List.Forall₂ (Laid p) opss (done ++ rest)) :
    ∃ ds rs, opss = ds ++ rs ∧ List.Forall₂ (Laid p) ds done ∧ List.Forall₂ (Laid p) rs rest :=
  ⟨_, _, (List.take_append_drop done.length opss).symm, List.forall₂_take_append _ _ _ h,
    List.forall₂_drop_append _ _ _ h⟩

theorem append_laid {ds rs : List (List Operation)} (h : List.Forall₂ (Laid p) (ds ++ rs) cycles) :
    ∃ done rest, cycles = done ++ rest ∧ List.Forall₂ (Laid p) ds done ∧ List.Forall₂ (Laid p) rs rest :=
  ⟨_, _, (List.take_append_drop ds.length cycles).symm,
    (List.forall₂_take_append _ _ _ h.flip).flip, (List.forall₂_drop_append _ _ _ h.flip).flip⟩

end Laid

/-- Chunks of a stream that lose no bus operation: where a chunk ends strictly inside the
first header of a cycle, neither this cycle nor a later one has one. -/
def HeadersReach (p : Port) (opss : List (List Operation)) (chunks : List Bytes) : Prop :=
  ∀ done ops rest, opss = done ++ ops :: rest → (∃ op ∈ (ops :: rest).flatten, op.isBus = true) →
    ∀ o ∈ boundaries chunks, ¬ ((done.map (encodedSize p)).sum < o ∧
      o < (done.map (encodedSize p)).sum + p.recordAlignment)

/-- A stream of cycles reaches the bus whole exactly when no bus operation is behind a cut
header. -/
theorem faithful_laid (sock : σ) {opss : List (List Operation)} {cycles : List (WireCycle p)}
    {chunks : List Bytes} (hlaid : List.Forall₂ (Laid p) opss cycles) (hchunks : ∀ c ∈ chunks, c ≠ [])
    (hstream : chunks.flatten = streamBytes cycles) :
    Faithful p opss.flatten (deliverAll g p (Link.fresh sock) chunks).slave.bus.trace ↔
      HeadersReach p opss chunks := by
  obtain ⟨done, rest, rfl, htrace, huncut, hcut⟩ := stream_busTrace (g := g) sock hchunks hstream
  obtain ⟨ds, rs, rfl, hds, hrs⟩ := laid_append hlaid
  have hperf := performs_laid hds
  rw [Faithful, htrace, List.flatten_append, List.filter_append]
  have hiff : List.Forall₂ (Performs p) (ds.flatten.filter Operation.isBus ++
      rs.flatten.filter Operation.isBus) (busEvents (streamAccesses done)) ↔
      ∀ op ∈ rs.flatten, ¬ op.isBus = true := by
    rw [← List.filter_eq_nil_iff]
    constructor
    · intro h
      have hlen := h.length_eq
      rw [List.length_append, hperf.length_eq] at hlen
      exact List.length_eq_zero_iff.mp (by omega)
    · intro h
      rwa [h, List.append_nil]
  rw [hiff]
  constructor
  · intro hnone d ops r hd hbus o ho hin
    obtain ⟨op, hop, hbus⟩ := hbus
    rcases List.append_eq_append_iff.mp hd with ⟨as, rfl, has⟩ | ⟨bs, hdsd, hbs⟩
    · refine hnone op ?_ hbus
      rw [has, List.flatten_append]
      exact List.mem_append_right _ hop
    · cases bs with
      | nil =>
        refine hnone op ?_ hbus
        rwa [← List.nil_append rs, ← hbs]
      | cons x bs =>
        subst hdsd
        obtain ⟨done', rest', rfl, hd', hrest'⟩ := append_laid hds
        cases hrest' with
        | cons hc hcs =>
          rw [← length_laid hd'] at hin
          exact huncut _ _ _ rfl o ho hin
  · intro h op hop hbus
    cases hrs with
    | nil => simp at hop
    | cons hc hcs =>
      obtain ⟨o, ho, hin⟩ := hcut _ rfl
      rw [length_laid hds] at hin
      exact h ds _ _ rfl ⟨op, hop, hbus⟩ o ho hin

/-- A flush on a stream, as cycles on the wire. -/
theorem flush_stream {rba : ℕ} (hrba : rba < 2 ^ 16) (ready : List Queued) :
    (ebDeviceFlush p 0 rba ready).1.overrun = false ∧
      acceptedOps p ready (ebDeviceFlush p 0 rba ready).2 = (ready.filterMap (formattedOps p)).flatten ∧
      ∃ cycles : List (WireCycle p), List.Forall₂ (Laid p) (ready.filterMap (formattedOps p)) cycles ∧
        ((ebDeviceFlush p 0 rba ready).1.sent.map (Message.bytes p 0)).flatten = streamBytes cycles := by
  obtain ⟨groups, hencs, hstream, hover, hacc⟩ :=
    flushCycles_stream (p := p) (s := FlushState.start rba) hrba ready
  obtain ⟨hsent, hover'⟩ := finish_stream ((FlushState.start rba).flushCycles p 0 ready).1
  obtain ⟨cycles, hcycles, hlaid⟩ := laid_cycles hencs
  refine ⟨hover'.trans hover, hacc, cycles, hlaid, ?_⟩
  have hbytes : ∀ ms : List Message, (ms.map (Message.bytes p 0)).flatten =
      recordBytes p (ms.flatMap Message.records) := by
    intro ms
    induction ms with
    | nil => rfl
    | cons m ms ih => simp [Message.bytes, ih]
  rw [hbytes, streamBytes, hcycles]
  change recordBytes p ((FlushState.finish 0 _).sent.flatMap Message.records) = _
  rw [hsent, hstream]
  rfl

end Stream

section Packets

variable {σ : Type} {g : Glue σ}

theorem laid_packets {opss : List (List Operation)} {packets : List (Packet Record)}
    (h : List.Forall₂ (fun ops recs => IsEncoding p ops recs ∧
      ∃ rba, recs = (encodeCycle p rba ops).getD []) opss (packets.flatMap Packet.groups)) :
    ∃ batches : List (List (WireCycle p)),
      packets.map (fun q => q.groups.flatten) = batches.map streamRecords ∧
      List.Forall₂ (Laid p) opss batches.flatten := by
  induction packets generalizing opss with
  | nil =>
    cases h
    exact ⟨[], rfl, .nil⟩
  | cons q packets ih =>
    rw [List.flatMap_cons] at h
    obtain ⟨cs, hcs, hlaid⟩ := laid_cycles (List.forall₂_take_append _ _ _ h)
    obtain ⟨batches, hbatches, hrest⟩ := ih (List.forall₂_drop_append _ _ _ h)
    refine ⟨cs :: batches, by simp [hcs, hbatches], ?_⟩
    rw [List.flatten_cons, ← List.take_append_drop q.groups.length opss]
    exact List.rel_append hlaid hrest

/-- A flush on a packet transport, as batches of cycles on the wire. -/
theorem flush_packets {mtu rba : ℕ} (hmtu : mtu ≠ 0) (hrba : rba < 2 ^ 16) (ready : List Queued) :
    (ebDeviceFlush p mtu rba ready).1.overrun =
        decide (p.bufferSize < p.headerAlignment + (packing p mtu ready).1.peak) ∧
      acceptedOps p ready (ebDeviceFlush p mtu rba ready).2 =
        (select (ready.filterMap (formattedOps p)) (packing p mtu ready).2).flatten ∧
      ∃ batches : List (List (WireCycle p)),
        (ebDeviceFlush p mtu rba ready).1.sent.map Message.records = batches.map streamRecords ∧
        List.Forall₂ (Laid p) (select (ready.filterMap (formattedOps p)) (packing p mtu ready).2)
          batches.flatten ∧
        ∀ b ∈ batches, (streamBytes b).length ≤ (packing p mtu ready).1.peak := by
  obtain ⟨groups, hencs, hpacks, hacc⟩ :=
    flushCycles_packs (p := p) hmtu (Packs.start p rba) rfl hrba ready
  have hq := packing_eq mtu hencs
  rw [hq]
  dsimp only
  have hclose := hpacks.sendClosed
  have hselect := pack_groups (Record.length p) (mtu - p.headerAlignment) groups
  obtain ⟨hpeaked, -⟩ := packGroups_peaked (mtu - p.headerAlignment)
    (Packing.peaked_empty : Packing.empty.Peaked (Record.length p)) groups
  have hpk := hpeaked.close.2
  rw [Packing.close_peak] at hpk
  rw [pack] at hselect
  have hlaid := forall₂_select hencs
    (packGroups (Record.length p) (mtu - p.headerAlignment) Packing.empty groups).2
  generalize packGroups (Record.length p) (mtu - p.headerAlignment) Packing.empty groups = packed
    at hacc hclose hselect hpk hlaid
  rw [← hselect] at hlaid
  obtain ⟨batches, hbatches, hall⟩ := laid_packets hlaid
  have hfinish : (ebDeviceFlush p mtu rba ready).1 =
      ((FlushState.start rba).flushCycles p mtu ready).1.sendClosed := by
    change FlushState.finish mtu _ = _
    rw [FlushState.finish, if_neg hmtu]
  rw [hfinish]
  refine ⟨?_, hacc, batches, hclose.records.trans hbatches, hall, ?_⟩
  · rw [hclose.overrun, Packing.close_peak]
    rfl
  · intro b hb
    have hmem : streamRecords b ∈ packed.1.close.packets.map fun q => q.groups.flatten := by
      rw [hbatches]
      exact List.mem_map_of_mem hb
    obtain ⟨q, hq, hqb⟩ := List.mem_map.mp hmem
    rw [streamBytes, length_recordBytes (wellFormed_streamRecords b), ← hqb]
    exact hpk q hq

/-- A peer with the same widths executes all messages that fit its buffer. -/
theorem receiveAll_busTrace {mtu socketWidths : ℕ} (hmtu : mtu ≠ 0)
    (hwidths : p.widths &&& socketWidths = p.widths) (bus : Bus σ) {messages : List Message}
    {batches : List (List (WireCycle p))}
    (hrecords : messages.map Message.records = batches.map streamRecords)
    (hsize : ∀ b ∈ batches, p.headerAlignment + (streamBytes b).length ≤ p.bufferSize) :
    (receiveAll g p.word socketWidths bus (messages.map (Message.bytes p mtu))).trace.filter Event.isBus =
      bus.trace.filter Event.isBus ++ busEvents (streamAccesses batches.flatten) := by
  induction messages generalizing bus batches with
  | nil =>
    cases batches with
    | nil => simp [receiveAll, busEvents]
    | cons b bs => simp at hrecords
  | cons m ms ih =>
    cases batches with
    | nil => simp at hrecords
    | cons b bs =>
      rw [List.map_cons, List.map_cons] at hrecords
      obtain ⟨hm, hms⟩ := List.cons.inj hrecords
      obtain ⟨hb, hbs⟩ := List.forall_mem_cons.mp hsize
      have hbytes : m.bytes p mtu = messageHeader p m.noReads ++ recordBytes p (streamRecords b) := by
        rw [Message.bytes, if_neg hmtu, hm]
      have hrun := receiveMessage_records (g := g) hwidths bus m.noReads (wellFormed_streamRecords b)
        (by rw [List.length_append, length_messageHeader]; exact hb)
        (by rw [Session.run_cycleEnd]; exact endsCycle_stream b)
      have htrace := Session.run_busTrace (g := g) (p := p) (Session.opened bus) (streamRecords b)
      have hall := ih (receiveMessage g p.word socketWidths bus (m.bytes p mtu)).bus hms hbs
      rw [List.flatten_cons, streamAccesses_append, busEvents_append, ← List.append_assoc]
      refine hall.trans ?_
      rw [hbytes, hrun.1, htrace]
      rfl

end Packets

/-- What a peer does on the bus with the chunks of a flushed stream is what was queued. -/
def StreamFaithful {σ : Type} (g : Glue σ) (p : Port) (sock : σ) (rba : ℕ) (ready : List Queued)
    (chunks : List Bytes) : Prop :=
  (ebDeviceFlush p 0 rba ready).1.overrun = false ∧
    Faithful p (acceptedOps p ready (ebDeviceFlush p 0 rba ready).2)
      (deliverAll g p (Link.fresh sock) chunks).slave.bus.trace

/-- What a peer does on the bus with the flushed messages is what was queued. -/
def PacketsFaithful {σ : Type} (g : Glue σ) (p : Port) (sock : σ) (mtu socketWidths rba : ℕ)
    (ready : List Queued) : Prop :=
  (ebDeviceFlush p mtu rba ready).1.overrun = false ∧
    Faithful p (acceptedOps p ready (ebDeviceFlush p mtu rba ready).2)
      (receiveAll g p.word socketWidths ⟨sock, 0, []⟩
        ((ebDeviceFlush p mtu rba ready).1.sent.map (Message.bytes p mtu))).trace

/-- The records of a flush lie in its buffer: the cycles that share a packet, with what of the
next cycle fits behind them, and what is formatted of a cycle that is too large. -/
def InsideBuffer (p : Port) (mtu : ℕ) (ready : List Queued) : Prop :=
  ∃ ss, Divides Shape.length (mtu - p.headerAlignment) (shapes p ready) ss ∧
    Inside Shape.length (mtu - p.headerAlignment) (p.bufferSize - p.headerAlignment) ss

theorem headerAlignment_le_bufferSize : p.headerAlignment ≤ p.bufferSize := by
  have hfits := p.record_fits
  have hra : p.headerAlignment = p.recordAlignment := rfl
  omega

/-- No record that a flush formats ends past the end of its buffer. -/
theorem insideBuffer_iff {mtu : ℕ} {ready : List Queued} :
    InsideBuffer p mtu ready ↔ p.headerAlignment + (packing p mtu ready).1.peak ≤ p.bufferSize := by
  have hheader := headerAlignment_le_bufferSize (p := p)
  have hpeak (ss : List (Section Shape))
      (h : Divides Shape.length (mtu - p.headerAlignment) (shapes p ready) ss) :
      Inside Shape.length (mtu - p.headerAlignment) (p.bufferSize - p.headerAlignment) ss ↔
        p.headerAlignment + (packing p mtu ready).1.peak ≤ p.bufferSize := by
    rw [← (pack_sections h).2, packing]
    omega
  constructor
  · rintro ⟨ss, hss, hin⟩
    exact (hpeak ss hss).mp hin
  · intro hle
    obtain ⟨ss, hss⟩ := exists_divides Shape.length (mtu - p.headerAlignment) (shapes p ready)
    exact ⟨ss, hss, (hpeak ss hss).mpr hle⟩

/-- Only a build whose buffer is smaller than a packet can leave it. -/
theorem insideBuffer_of_mtu {mtu : ℕ} (h : mtu ≤ p.bufferSize) (ready : List Queued) :
    InsideBuffer p mtu ready := by
  have hheader := headerAlignment_le_bufferSize (p := p)
  obtain ⟨-, hle⟩ := packGroups_peaked (mtu - p.headerAlignment)
    (Packing.peaked_empty : Packing.empty.Peaked Shape.length) (shapes p ready)
  have hpeak : (packing p mtu ready).1.peak ≤ mtu - p.headerAlignment := hle (Nat.zero_le _)
  rw [insideBuffer_iff]
  omega

/-- The bus sees the queued bus operations, on a stream exactly when none is behind a cut
header, on a packet transport exactly when the flush stays inside its buffer. -/
theorem busFidelity_iff {σ : Type} (g : Glue σ) (p : Port) (sock : σ) (rba : ℕ) (hrba : rba < 2 ^ 16)
    (ready : List Queued) :
    (∀ chunks : List Bytes, (∀ c ∈ chunks, c ≠ []) →
      chunks.flatten = ((ebDeviceFlush p 0 rba ready).1.sent.map (Message.bytes p 0)).flatten →
      (StreamFaithful g p sock rba ready chunks ↔
        HeadersReach p (ready.filterMap (formattedOps p)) chunks)) ∧
    ∀ mtu socketWidths : ℕ, mtu ≠ 0 → p.widths &&& socketWidths = p.widths →
      (PacketsFaithful g p sock mtu socketWidths rba ready ↔ InsideBuffer p mtu ready) := by
  constructor
  · intro chunks hchunks hflat
    obtain ⟨hover, hacc, cycles, hlaid, hbytes⟩ := flush_stream (p := p) hrba ready
    rw [StreamFaithful, hover, hacc, ← faithful_laid (g := g) sock hlaid hchunks (hflat.trans hbytes)]
    exact and_iff_right rfl
  · intro mtu socketWidths hmtu hwidths
    obtain ⟨hover, hacc, batches, hrecords, hlaid, hsize⟩ := flush_packets (p := p) hmtu hrba ready
    rw [PacketsFaithful, hover, hacc, decide_eq_false_iff_not, Nat.not_lt, insideBuffer_iff]
    refine and_iff_left_of_imp fun hin => ?_
    have htrace := receiveAll_busTrace (g := g) hmtu hwidths ⟨sock, 0, []⟩ hrecords
      (fun b hb => (Nat.add_le_add_left (hsize b hb) _).trans hin)
    rw [Faithful, htrace]
    exact performs_laid hlaid

namespace Sample

/-- A queued cycle that writes one word. -/
def queuedWrite : Queued where
  ops := [⟨0x4000, 0x1234, .write, false, false, false, 0x12⟩]

/-- Two such cycles on a stream, received in two chunks: the first ends two bytes into the
second cycle, which never reaches the bus. -/
def cutStream : List Bytes :=
  [[0xA8, 0x03, 0x01, 0x00, 0x40, 0x00, 0x12, 0x34, 0xA8, 0x03],
    [0x01, 0x00, 0x40, 0x00, 0x12, 0x34]]

theorem cut_loses_write :
    cutStream.flatten =
        ((ebDeviceFlush port 0 0x8000 [queuedWrite, queuedWrite]).1.sent.map (Message.bytes port 0)).flatten ∧
      ¬ StreamFaithful glue port () 0x8000 [queuedWrite, queuedWrite] cutStream := by
  refine ⟨by decide +kernel, ?_⟩
  rintro ⟨-, h⟩
  exact absurd h.length_eq (by decide +kernel)

/-- In one chunk, and in one packet, a cycle arrives. -/
theorem write_arrives :
    StreamFaithful glue port () 0x8000 [queuedWrite] [[0xA8, 0x03, 0x01, 0x00, 0x40, 0x00, 0x12, 0x34]] ∧
      PacketsFaithful glue port () 1472 0xFF 0x8000 [queuedWrite] := by
  obtain ⟨hstream, hpackets⟩ := busFidelity_iff glue port () 0x8000 (by decide) [queuedWrite]
  refine ⟨(hstream _ (by decide) (by decide +kernel)).mpr ?_,
    (hpackets 1472 0xFF (by decide) (by decide)).mpr (insideBuffer_of_mtu (by decide) _)⟩
  intro done ops rest hsplit _ o ho hin
  have hdone : done = [] := by
    cases done with
    | nil => rfl
    | cons d ds =>
      have hlen := congrArg List.length hsplit
      have hone : ([queuedWrite].filterMap (formattedOps port)).length = 1 := by decide +kernel
      rw [hone, List.length_append, List.length_cons, List.length_cons] at hlen
      omega
  subst hdone
  have hra : port.recordAlignment = 4 := rfl
  simp only [boundaries, List.inits, List.map_cons, List.map_nil, List.flatten_nil, List.flatten_cons,
    List.length_nil, List.length_append, List.length_cons, List.mem_cons, List.not_mem_nil, or_false,
    List.sum_nil, hra] at ho hin
  omega

end Sample

end WhiteRabbit.Etherbone
