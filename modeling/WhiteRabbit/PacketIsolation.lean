import WhiteRabbit.BusFidelity
import Mathlib.Data.Set.List

/-!
# Packets are isolated from each other

On a packet transport a cycle that fits no packet is called back with an overflow and leaves no
trace: the packets hold the other cycles, whole and in order, as if it had never been queued.
-/

namespace WhiteRabbit.Etherbone
open BigEndian GroupPacking

variable {p : Port} {mtu rba : ℕ}

/-- Whether the encoding of a cycle is too long for a packet. -/
def overflows (p : Port) (mtu : ℕ) (c : Queued) : Bool :=
  match formattedOps p c with
  | none => false
  | some ops => decide (mtu < p.headerAlignment + encodedSize p ops)

/-- The valid cycles that fit a packet. -/
def fittingOps (p : Port) (mtu : ℕ) (ready : List Queued) : List (List Operation) :=
  (ready.filter fun c => !overflows p mtu c).filterMap (formattedOps p)

/-- A cycle on the wire encodes some operations, with some return address. -/
def Encodes (p : Port) (ops : List Operation) (c : WireCycle p) : Prop :=
  ∃ a, encodeCycle p a ops = some c.records

/-- A message of at most `mtu` bytes: a header, and whole cycles. -/
structure Carries (p : Port) (mtu : ℕ) (m : Message) (cycles : List (WireCycle p)) : Prop where
  filled : cycles ≠ []
  bytes : m.bytes p mtu = messageHeader p m.noReads ++ streamBytes cycles
  length_le : (m.bytes p mtu).length ≤ mtu

/-- What a flush on a packet transport sends, and which cycles it calls back. -/
structure Isolated (p : Port) (mtu rba : ℕ) (ready : List Queued) : Prop where
  inside : (ebDeviceFlush p mtu rba ready).1.overrun = false
  fates : List.Forall₂
    (fun c fate => (∃ operation, fate = .callback .overflow operation) ↔ overflows p mtu c = true)
    ready (ebDeviceFlush p mtu rba ready).2
  packets : ∃ batches alone : List (List (WireCycle p)),
    List.Forall₂ (Carries p mtu) (ebDeviceFlush p mtu rba ready).1.sent batches ∧
    List.Forall₂ (Carries p mtu)
      (ebDeviceFlush p mtu rba (ready.filter fun c => !overflows p mtu c)).1.sent alone ∧
    List.Forall₂ (Encodes p) (fittingOps p mtu ready) batches.flatten ∧
    List.Forall₂ (Encodes p) (fittingOps p mtu ready) alone.flatten

theorem encodedSize_eq {ops : List Operation} {recs : List Record} (hne : recs ≠ [])
    (hrecs : ∃ a, recs = (encodeCycle p a ops).getD []) :
    load (Record.length p) recs = encodedSize p ops ∧ 0 < encodedSize p ops := by
  obtain ⟨a, rfl⟩ := hrecs
  rw [encodeCycle_layout] at hne ⊢
  have hload : load (Record.length p) ((layout p ops).map (Record.redirect a)) = encodedSize p ops :=
    load_map _ (fun r => Record.redirect_length a r) _
  refine ⟨hload, ?_⟩
  rw [encodedSize]
  cases hl : layout p ops with
  | nil =>
    rw [hl] at hne
    exact absurd rfl hne
  | cons r rs => exact Nat.add_pos_left (Record.length_pos p r) _

theorem encodedSize_pos {c : Queued} {ops : List Operation} (h : formattedOps p c = some ops) :
    0 < encodedSize p ops := by
  obtain ⟨hne, hf, -⟩ := formattedOps_spec h
  have henc := encodeCycle_isEncoding (Nat.two_pow_pos 16) hne hf
  exact (encodedSize_eq henc.ne_nil ⟨0, rfl⟩).2

theorem le_capacity {m n k : ℕ} (hn : 0 < n) : n ≤ m - k ↔ ¬ m < k + n := by omega

/-- A formatted cycle overflows exactly when its encoding is too long. -/
theorem formatCycle_overflow {s : FlushState} {ops : List Operation}
    (hnot : ¬ (s.formatCycle p mtu ops).2.Kept) :
    ∃ operation, (s.formatCycle p mtu ops).2 = .callback .overflow operation := by
  rw [FlushState.formatCycle] at hnot ⊢
  split
  · exact ⟨_, rfl⟩
  · rename_i hs
    rw [hs] at hnot
    exact absurd (closeCycle_kept _ _) hnot

theorem flushCycles_fates {s : FlushState} {q : Packing Record} (hmtu : mtu ≠ 0) (h : Packs p s q)
    (hcur : q.current = []) (hrba : s.rba < 2 ^ 16) (ready : List Queued) :
    List.Forall₂ (fun c fate => (∃ operation, fate = .callback .overflow operation) ↔
      overflows p mtu c = true) ready (s.flushCycles p mtu ready).2 := by
  induction ready generalizing s q with
  | nil => exact .nil
  | cons c cs ih =>
    rw [FlushState.flushCycles]
    cases hc : formattedOps p c with
    | none =>
      obtain ⟨status, operation, hflush, -, hno⟩ := FlushState.flushCycle_none (s := s) mtu hc
      rw [hflush]
      refine .cons (iff_of_false ?_ ?_) (ih h hcur hrba)
      · rintro ⟨operation', he⟩
        cases he
        exact hno rfl
      · rw [overflows, hc]
        exact Bool.false_ne_true
    | some ops =>
      obtain ⟨hne, hf, -⟩ := formattedOps_spec hc
      have henc := encodeCycle_isEncoding hrba hne hf
      obtain ⟨hpacks, hkept⟩ := formatCycle_packs hmtu h hcur henc
      obtain ⟨-, hcur'⟩ := placeGroup_groups (Record.length p) (mtu - p.headerAlignment)
        hcur ((encodeCycle p s.rba ops).getD [])
      obtain ⟨hload, hpos⟩ := encodedSize_eq henc.ne_nil ⟨s.rba, rfl⟩
      rw [FlushState.flushCycle_some hc]
      refine .cons ?_ (ih hpacks hcur' (formatCycle_rba hrba ops))
      rw [placeGroup_kept (Record.length p) _ hcur, hload, decide_eq_true_iff, le_capacity hpos] at hkept
      rw [overflows, hc, decide_eq_true_iff]
      constructor
      · rintro ⟨operation, he⟩
        by_contra hfits
        rw [he] at hkept
        exact absurd (hkept.mpr hfits) (by simp [CycleFate.Kept])
      · intro hlong
        exact formatCycle_overflow fun hk => hkept.mp hk hlong

theorem fittingOps_eq (ready : List Queued) : fittingOps p mtu ready =
    (ready.filterMap (formattedOps p)).filter fun ops =>
      decide (encodedSize p ops ≤ mtu - p.headerAlignment) := by
  induction ready with
  | nil => rfl
  | cons c cs ih =>
    rw [fittingOps] at ih ⊢
    cases hc : formattedOps p c with
    | none =>
      rw [List.filterMap_cons_none hc, ← ih, List.filter_cons_of_pos (by simp [overflows, hc]),
        List.filterMap_cons_none hc]
    | some ops =>
      have hsame : (!overflows p mtu c) = decide (encodedSize p ops ≤ mtu - p.headerAlignment) := by
        rw [overflows, hc]
        dsimp only
        rw [← decide_not, decide_eq_decide]
        exact (le_capacity (encodedSize_pos hc)).symm
      rw [List.filterMap_cons_some hc, List.filter_cons, List.filter_cons, hsame, ← ih]
      cases decide (encodedSize p ops ≤ mtu - p.headerAlignment) with
      | true =>
        rw [if_pos rfl, if_pos rfl]
        exact List.filterMap_cons_some hc
      | false => rfl

theorem fittingOps_filter (ready : List Queued) :
    fittingOps p mtu (ready.filter fun c => !overflows p mtu c) = fittingOps p mtu ready := by
  rw [fittingOps, List.filter_filter, fittingOps]
  simp only [Bool.and_self]

/-- Groups of encoded cycles are cycles on the wire. -/
theorem exists_batches {packets : List (Packet Record)}
    (h : ∀ q ∈ packets, ∀ g ∈ q.groups, ∃ c : WireCycle p, c.records = g) :
    ∃ batches : List (List (WireCycle p)),
      batches.map (List.map WireCycle.records) = packets.map Packet.groups := by
  have hmem : packets.map Packet.groups ∈ Set.range (List.map (List.map (WireCycle.records (p := p)))) := by
    rw [Set.range_list_map]
    intro gs hgs
    rw [Set.range_list_map]
    intro g hg
    obtain ⟨q, hq, rfl⟩ := List.mem_map.mp hgs
    exact h q hq g hg
  exact hmem

/-- What a message carries, from its records. -/
theorem carries_of_records (hmtu : mtu ≠ 0) {m : Message} {b : List (WireCycle p)}
    (hrecords : m.records = streamRecords b) (hne : b ≠ [])
    (hsize : load (Record.length p) (streamRecords b) ≤ mtu - p.headerAlignment) : Carries p mtu m b := by
  have hbytes : m.bytes p mtu = messageHeader p m.noReads ++ streamBytes b := by
    rw [Message.bytes, if_neg hmtu, hrecords, streamBytes]
  refine ⟨hne, hbytes, ?_⟩
  rw [hbytes, List.length_append, length_messageHeader, streamBytes,
    length_recordBytes (wellFormed_streamRecords b)]
  have hpos : 0 < load (Record.length p) (streamRecords b) := by
    cases b with
    | nil => exact absurd rfl hne
    | cons c cs =>
      have := Record.length_pos p c.last
      rw [streamRecords_cons, WireCycle.records, load_append, load_append, load_singleton]
      omega
  omega

theorem forall₂_carries (hmtu : mtu ≠ 0) {messages : List Message} {batches : List (List (WireCycle p))}
    (h : messages.map Message.records = batches.map streamRecords)
    (hall : ∀ b ∈ batches, b ≠ [] ∧ load (Record.length p) (streamRecords b) ≤ mtu - p.headerAlignment) :
    List.Forall₂ (Carries p mtu) messages batches := by
  have hsame := h.symm
  rw [← List.forall₂_eq_eq_eq, List.forall₂_map_left_iff, List.forall₂_map_right_iff] at hsame
  apply List.Forall₂.flip
  apply ((List.forall₂_and_left _ _).mpr ⟨hall, hsame⟩).imp
  intro b m hb
  exact carries_of_records hmtu hb.2.symm hb.1.1 hb.1.2

/-- A flush sends the fitting cycles, whole and in order. -/
theorem flush_carries (hmtu : mtu ≠ 0) (hrba : rba < 2 ^ 16) (ready : List Queued) :
    ∃ batches : List (List (WireCycle p)),
      List.Forall₂ (Carries p mtu) (ebDeviceFlush p mtu rba ready).1.sent batches ∧
      List.Forall₂ (Encodes p) (fittingOps p mtu ready) batches.flatten := by
  obtain ⟨groups, hencs, hpacks, -⟩ := flushCycles_packs (p := p) hmtu (Packs.start p rba) rfl hrba ready
  have hclose := hpacks.sendClosed
  obtain ⟨hpeaked, hpeak⟩ := packGroups_peaked (mtu - p.headerAlignment)
    (Packing.peaked_empty : Packing.empty.Peaked (Record.length p)) groups
  have hfinish : (ebDeviceFlush p mtu rba ready).1 =
      ((FlushState.start rba).flushCycles p mtu ready).1.sendClosed := by
    change FlushState.finish mtu _ = _
    rw [FlushState.finish, if_neg hmtu]
  -- the packets hold the encodings that fit
  have hfits : groups.map (fun g => decide (load (Record.length p) g ≤ mtu - p.headerAlignment)) =
      (ready.filterMap (formattedOps p)).map fun ops =>
        decide (encodedSize p ops ≤ mtu - p.headerAlignment) := by
    rw [← List.forall₂_eq_eq_eq, List.forall₂_map_left_iff, List.forall₂_map_right_iff]
    apply List.Forall₂.flip
    exact hencs.imp fun ops g h => by rw [flip, (encodedSize_eq h.1.ne_nil h.2).1]
  have hpacked := pack_groups (Record.length p) (mtu - p.headerAlignment) groups
  rw [packGroups_kept (Record.length p) _ rfl, hfits] at hpacked
  have hall := forall₂_select hencs ((ready.filterMap (formattedOps p)).map fun ops =>
    decide (encodedSize p ops ≤ mtu - p.headerAlignment))
  rw [select_map, ← fittingOps_eq, ← hpacked] at hall
  have hwire : ∀ q ∈ pack (Record.length p) (mtu - p.headerAlignment) groups, ∀ g ∈ q.groups,
      ∃ c : WireCycle p, c.records = g := by
    intro q hq g hg
    have hwires :=
      (hall.imp fun ops recs h => (⟨h.1.wire, trivial⟩ : (∃ c : WireCycle p, c.records = recs) ∧ True))
    exact ((List.forall₂_and_left _ _).mp hwires.flip).1 g (List.mem_flatMap.mpr ⟨q, hq, hg⟩)
  obtain ⟨batches, hbatches⟩ := exists_batches hwire
  have hpackets : (pack (Record.length p) (mtu - p.headerAlignment) groups).flatMap Packet.groups =
      batches.flatten.map WireCycle.records := by
    rw [List.map_flatten, hbatches, List.flatMap_def]
  refine ⟨batches, ?_, ?_⟩
  · rw [hfinish]
    apply forall₂_carries hmtu
    · rw [hclose.records]
      have hflat := congrArg (List.map List.flatten) hbatches
      rw [List.map_map, List.map_map] at hflat
      refine Eq.trans hflat.symm (List.map_congr_left fun b _ => ?_)
      exact List.flatMap_def.symm
    · intro b hb
      have hmem : b.map WireCycle.records ∈ (pack (Record.length p) (mtu - p.headerAlignment) groups).map
          Packet.groups := by
        rw [← hbatches]
        exact List.mem_map_of_mem hb
      obtain ⟨q, hq, hqb⟩ := List.mem_map.mp hmem
      constructor
      · rintro rfl
        exact groups_ne_nil _ groups q hq hqb
      · have hload := hpeaked.close.2 q hq
        rw [Packing.close_peak, hqb] at hload
        rw [streamRecords, List.flatMap_def]
        exact Nat.le_trans hload (hpeak (Nat.zero_le _))
  · rw [hpackets, List.forall₂_map_right_iff] at hall
    apply hall.imp
    intro ops c hc
    obtain ⟨henc, a, ha⟩ := hc
    refine ⟨a, ?_⟩
    cases hrun : encodeCycle p a ops with
    | none =>
      rw [hrun] at ha
      exact absurd ha henc.ne_nil
    | some recs =>
      rw [hrun] at ha
      exact congrArg some ha.symm

/-- On a packet transport whose packets the buffer holds, cycles are isolated. -/
theorem packets_isolated (hmtu : mtu ≠ 0) (hbuffer : mtu ≤ p.bufferSize) (hrba : rba < 2 ^ 16)
    (ready : List Queued) : Isolated p mtu rba ready := by
  obtain ⟨batches, hsent, hcycles⟩ := flush_carries hmtu hrba ready
  obtain ⟨alone, hsent', hcycles'⟩ := flush_carries hmtu hrba (ready.filter fun c => !overflows p mtu c)
  rw [fittingOps_filter] at hcycles'
  refine ⟨?_, flushCycles_fates hmtu (Packs.start p rba) rfl hrba ready,
    batches, alone, hsent, hsent', hcycles, hcycles'⟩
  rw [(flush_packets hmtu hrba ready).1, decide_eq_false_iff_not, Nat.not_lt]
  exact insideBuffer_iff.mp (insideBuffer_of_mtu hbuffer ready)

namespace Sample

/-- A cycle of 800 writes to one address, too long for a packet. -/
def crowdedCycle : Queued where
  ops := List.replicate 800 ⟨0x4000, 0x1234, .write, false, false, false, 0x12⟩

/-- Between two cycles that fit. -/
theorem isolated_write : overflows port 1472 crowdedCycle = true ∧
    Isolated port 1472 0x8000 [queuedWrite, crowdedCycle, queuedWrite] :=
  ⟨by decide +kernel, packets_isolated (by decide) (by decide) (by decide) _⟩

end Sample

end WhiteRabbit.Etherbone
