import WhiteRabbit.EncodingShape
import WhiteRabbit.PacketSections

/-!
# The no-reads flag of a packet

The flag in the header promises that no record of the packet has reads. A flush computes it
from the records formatted since the packet before was sent, and never takes it back. Among
those records are some that do not end up in the packet, and a flag once set stays set.
-/

namespace WhiteRabbit.Etherbone
open BigEndian GroupPacking

variable {p : Port}

theorem length_stickyFlags (flag : Bool) (vs : List (List Record)) :
    (stickyFlags flag vs).length = vs.length := by
  induction vs generalizing flag with
  | nil => rfl
  | cons v vs ih => rw [stickyFlags, List.length_cons, List.length_cons, ih]

/-- A flag is set when nothing with reads was formatted for its packet or for an earlier one. -/
theorem stickyFlags_eq_true {flag : Bool} {vs : List (List Record)} {i : ℕ}
    (h : i < (stickyFlags flag vs).length) : (stickyFlags flag vs)[i] = true ↔
      flag = true ∨ ∃ v ∈ vs.take (i + 1), ∀ r ∈ v, ¬ r.HasReads := by
  induction vs generalizing flag i with
  | nil => simp [stickyFlags] at h
  | cons v vs ih =>
    cases i with
    | zero => simp [stickyFlags]
    | succ i =>
      simp only [stickyFlags, List.getElem_cons_succ, ih, List.take_succ_cons, List.mem_cons,
        exists_eq_or_imp, ← or_assoc]
      simp

/-- Some of the records have reads. -/
def AnyReads (rs : List Shape) : Prop := ∃ r ∈ rs, r.reads = true

instance (rs : List Shape) : Decidable (AnyReads rs) := inferInstanceAs (Decidable (∃ r ∈ rs, _))

/-- A packet has reads. -/
def Packet.Reads (q : Packet Shape) : Prop := AnyReads q.groups.flatten

/-- Reads were formatted for a packet, or while it was filled. -/
def Packet.Formats (q : Packet Shape) : Prop := AnyReads q.visited

/-- Each packet has reads exactly when reads were formatted for it and for all before it. -/
def PacketsHonest (packets : List (Packet Shape)) : Prop :=
  ∀ i (h : i < packets.length), Packet.Reads packets[i] ↔ ∀ q ∈ packets.take (i + 1), Packet.Formats q

/-- What is formatted of the cycles of a section that are too large for a packet: their records up to the overflow. -/
def overflowing (cap : ℕ) (s : Section Shape) : List Shape := s.dropped.flatMap (fitting Shape.length cap)

/-- The cycles let the flag be honest. The head of the first cycle of a section, `moved`, straddles the end of the
packet before, and the head of the cycle behind its own straddles the end of its packet. A packet with reads needs a
read behind the first head: in a cycle that overflows, in its own cycles or in the second head. At the first packet
without reads there is none in the cycles that overflow and in the second head, and no later packet has reads. -/
def FlagsHonest (cap : ℕ) : List Shape → List (Section Shape) → Prop
  | _, [] => True
  | moved, s :: rest =>
    if AnyReads s.kept.flatten then
      (AnyReads ((overflowing cap s ++ s.kept.flatten).drop moved.length) ∨
        AnyReads (straddling Shape.length cap s.kept rest)) ∧
        FlagsHonest cap (straddling Shape.length cap s.kept rest) rest
    else
      (s.kept ≠ [] → ¬ AnyReads ((overflowing cap s).drop moved.length) ∧
        ¬ AnyReads (straddling Shape.length cap s.kept rest)) ∧
        ∀ t ∈ rest, ¬ AnyReads t.kept.flatten

/-- Every packet sent has `EB_HEADER_NR` in its header just when none of its records reads. -/
def NoReadsTruthful (p : Port) (mtu rba : ℕ) (ready : List Queued) : Prop :=
  ∀ m ∈ (ebDeviceFlush p mtu rba ready).1.sent,
    (m.bytes p mtu).getD 2 0 &&& ebHeaderNR ≠ 0 ↔ ∀ r ∈ m.records, r.reads = []

instance (mtu rba : ℕ) (ready : List Queued) : Decidable (NoReadsTruthful p mtu rba ready) :=
  inferInstanceAs (Decidable (∀ m ∈ _, (_ ↔ _)))

theorem header_noReads {mtu : ℕ} (hmtu : mtu ≠ 0) (m : Message) :
    (m.bytes p mtu).getD 2 0 &&& ebHeaderNR ≠ 0 ↔ m.noReads = true := by
  have hflag : ∀ b : Bool, ((0x10 : UInt8) ||| if b then ebHeaderNR else 0) &&& ebHeaderNR ≠ 0 ↔
      b = true := by decide
  have hbyte : (m.bytes p mtu).getD 2 0 = (0x10 ||| if m.noReads then ebHeaderNR else 0) := by
    simp [Message.bytes, hmtu, messageHeader]
  rw [hbyte]
  exact hflag m.noReads

/-- The packets of a flush, in the terms of its packing. -/
theorem flush_flags {mtu rba : ℕ} (hmtu : mtu ≠ 0) (hrba : rba < 2 ^ 16) (ready : List Queued) :
    ∃ packets : List (Packet Record),
      packets.map (Packet.map (Record.shape p)) = (packing p mtu ready).1.close.packets ∧
      (ebDeviceFlush p mtu rba ready).1.sent.map Message.records =
        packets.map (fun q => q.groups.flatten) ∧
      (ebDeviceFlush p mtu rba ready).1.sent.map Message.noReads =
        stickyFlags false (packets.map Packet.visited) := by
  obtain ⟨groups, hencs, hpacks, -⟩ :=
    flushCycles_packs (p := p) hmtu (Packs.start p rba) rfl hrba ready
  have hclose := hpacks.sendClosed
  have hfinish : (ebDeviceFlush p mtu rba ready).1 =
      ((FlushState.start rba).flushCycles p mtu ready).1.sendClosed := by
    change FlushState.finish mtu _ = _
    rw [FlushState.finish, if_neg hmtu]
  rw [hfinish, packing_eq mtu hencs]
  exact ⟨_, by rw [Packing.close_map]; rfl, hclose.records, hclose.flags⟩

/-- The flag is truthful exactly when the records formatted for a packet and those before it
agree with the records in it. -/
theorem noReadsTruthful_packets (p : Port) {mtu rba : ℕ} (hmtu : mtu ≠ 0) (hrba : rba < 2 ^ 16)
    (ready : List Queued) :
    NoReadsTruthful p mtu rba ready ↔ PacketsHonest (packing p mtu ready).1.close.packets := by
  obtain ⟨packets, hshape, hrecords, hflags⟩ := flush_flags (p := p) hmtu hrba ready
  rw [NoReadsTruthful, ← hshape]
  generalize (ebDeviceFlush p mtu rba ready).1.sent = sent at hrecords hflags
  have hlen : sent.length = packets.length := by simpa using congrArg List.length hrecords
  have hread : ∀ r : Record, (r.shape p).reads = true ↔ r.HasReads := fun r => decide_eq_true_iff
  -- both sides, packet by packet
  have hpacket : ∀ i (hi : i < sent.length) (hi' : i < packets.length),
      (sent[i].noReads = true ↔ ∀ r ∈ sent[i].records, r.reads = []) ↔
        ((∃ s ∈ (packets[i].map (Record.shape p)).groups.flatten, s.reads = true) ↔
          ∀ q ∈ packets.take (i + 1), ∃ s ∈ (q.map (Record.shape p)).visited, s.reads = true) := by
    intro i hi hi'
    have hrec : sent[i].records = packets[i].groups.flatten := by
      have h := congrArg (fun l => l[i]?) hrecords
      simpa [hi, hi'] using h
    have hflag : sent[i].noReads = true ↔
        ∃ v ∈ (packets.map Packet.visited).take (i + 1), ∀ r ∈ v, ¬ r.HasReads := by
      have hi'' : i < (stickyFlags false (packets.map Packet.visited)).length := by
        rwa [length_stickyFlags, List.length_map]
      have h := congrArg (fun l => l[i]?) hflags
      simp only [List.getElem?_map, List.getElem?_eq_getElem hi, List.getElem?_eq_getElem hi'',
        Option.map_some, Option.some.injEq] at h
      rw [h, stickyFlags_eq_true]
      simp
    rw [hflag, hrec]
    simp only [Packet.map, ← List.map_flatten, List.mem_map, exists_exists_and_eq_and, hread, ← List.map_take,
      Record.HasReads, ne_eq, not_not]
    constructor
    · intro h
      rw [← not_iff_not]
      push Not
      exact h.symm
    · intro h
      rw [← not_iff_not] at h
      push Not at h
      exact h.symm
  constructor
  · intro h i hi
    rw [List.length_map] at hi
    have hm := (header_noReads hmtu _).symm.trans (h _ (List.getElem_mem (hlen ▸ hi)))
    simpa [← List.map_take, Packet.Reads, Packet.Formats, AnyReads] using (hpacket i (hlen ▸ hi) hi).mp hm
  · intro h m hm
    obtain ⟨i, hi, rfl⟩ := List.getElem_of_mem hm
    have hi' : i < packets.length := hlen ▸ hi
    have hp := h i (by rwa [List.length_map])
    apply (header_noReads hmtu _).trans
    apply (hpacket i hi hi').mpr
    simpa [← List.map_take, Packet.Reads, Packet.Formats, AnyReads] using hp

/-- The first packet is honest, and the others are in its light. -/
theorem packetsHonest_cons (q : Packet Shape) (qs : List (Packet Shape)) : PacketsHonest (q :: qs) ↔
    (Packet.Reads q ↔ Packet.Formats q) ∧ (Packet.Formats q → PacketsHonest qs) ∧
      (¬ Packet.Formats q → ∀ r ∈ qs, ¬ Packet.Reads r) := by
  have htail : ∀ i (h : i < qs.length) (hi : i + 1 < (q :: qs).length), (Packet.Reads (q :: qs)[i + 1] ↔
      ∀ r ∈ (q :: qs).take (i + 1 + 1), Packet.Formats r) ↔
        (Packet.Reads qs[i] ↔ Packet.Formats q ∧ ∀ r ∈ qs.take (i + 1), Packet.Formats r) := by
    intro i h _
    rw [List.take_succ_cons, List.forall_mem_cons, List.getElem_cons_succ]
  constructor
  · intro h
    have hfirst := h 0 (Nat.zero_lt_succ _)
    simp only [Nat.zero_add, List.take_succ_cons, List.take_zero, List.forall_mem_singleton,
      List.getElem_cons_zero] at hfirst
    refine ⟨hfirst, fun hformats i hi => ?_, fun hnone r hr hreads => ?_⟩
    · have hi' := (htail i hi (Nat.succ_lt_succ hi)).mp (h (i + 1) (Nat.succ_lt_succ hi))
      exact hi'.trans (and_iff_right hformats)
    · obtain ⟨i, hi, rfl⟩ := List.getElem_of_mem hr
      have hi' := (htail i hi (Nat.succ_lt_succ hi)).mp (h (i + 1) (Nat.succ_lt_succ hi))
      exact hnone (hi'.mp hreads).1
  · rintro ⟨hfirst, hformats, hnone⟩ i hi
    cases i with
    | zero => simpa using hfirst
    | succ i =>
      have hi' : i < qs.length := Nat.lt_of_succ_lt_succ hi
      rw [htail i hi' hi]
      by_cases hq : Packet.Formats q
      · exact (hformats hq i hi').trans (and_iff_right hq).symm
      · exact iff_of_false (hnone hq _ (List.getElem_mem hi')) fun h => hq h.1

theorem mem_sectionPackets {cap : ℕ} {moved : List Shape} {ss : List (Section Shape)} {q : Packet Shape}
    (hq : q ∈ sectionPackets Shape.length cap moved ss) : ∃ s ∈ ss, q.groups = s.kept := by
  induction ss generalizing moved with
  | nil => cases hq
  | cons s ss ih =>
    rw [sectionPackets, List.mem_append] at hq
    rcases hq with hq | hq
    · split at hq
      · cases hq
      · rw [List.mem_singleton.mp hq]
        exact ⟨s, List.mem_cons_self, rfl⟩
    · obtain ⟨t, ht, hgroups⟩ := ih hq
      exact ⟨t, List.mem_cons_of_mem _ ht, hgroups⟩

theorem exists_sectionPacket {cap : ℕ} (moved : List Shape) {ss : List (Section Shape)} {s : Section Shape}
    (hs : s ∈ ss) (hne : s.kept ≠ []) : ∃ q ∈ sectionPackets Shape.length cap moved ss, q.groups = s.kept := by
  induction ss generalizing moved with
  | nil => cases hs
  | cons t ss ih =>
    rw [sectionPackets]
    rcases List.mem_cons.mp hs with rfl | hs
    · rw [if_neg hne]
      exact ⟨_, List.mem_cons_self, rfl⟩
    · obtain ⟨q, hq, hgroups⟩ := ih (straddling Shape.length cap t.kept ss) hs
      exact ⟨q, List.mem_append_right _ hq, hgroups⟩

theorem anyReads_append {rs ts : List Shape} : AnyReads (rs ++ ts) ↔ AnyReads rs ∨ AnyReads ts := by
  simp only [AnyReads, List.mem_append, or_and_right, exists_or]

theorem AnyReads.of_drop {rs : List Shape} {n : ℕ} (h : AnyReads (rs.drop n)) : AnyReads rs := by
  obtain ⟨r, hr, hread⟩ := h
  exact ⟨r, List.mem_of_mem_drop hr, hread⟩

/-- Where a packet has no reads, those that were formatted for it are in the cycles that overflow and in the next one. -/
theorem formatted_quiet {cap : ℕ} {s : Section Shape} (hkept : load Shape.length s.kept.flatten ≤ cap)
    (hquiet : ¬ AnyReads s.kept.flatten) (moved : List Shape) (rest : List (Section Shape)) :
    AnyReads (formatted Shape.length cap moved s rest) ↔ AnyReads ((overflowing cap s).drop moved.length) ∨
      AnyReads (straddling Shape.length cap s.kept rest) := by
  rw [formatted_eq hkept, anyReads_append, List.drop_append, anyReads_append]
  exact or_congr_left (or_iff_left fun h => hquiet h.of_drop)

/-- The packets of later sections have no reads. -/
theorem later_quiet {cap : ℕ} (moved : List Shape) {ss : List (Section Shape)} :
    (∀ q ∈ sectionPackets Shape.length cap moved ss, ¬ Packet.Reads q) ↔ ∀ t ∈ ss, ¬ AnyReads t.kept.flatten := by
  constructor
  · intro h t ht hreads
    have hne : t.kept ≠ [] := by
      rintro hempty
      rw [hempty] at hreads
      obtain ⟨r, hr, -⟩ := hreads
      cases hr
    obtain ⟨q, hq, hgroups⟩ := exists_sectionPacket moved ht hne
    rw [← hgroups] at hreads
    exact h q hq hreads
  · intro h q hq hreads
    obtain ⟨t, ht, hgroups⟩ := mem_sectionPackets hq
    rw [Packet.Reads, hgroups] at hreads
    exact h t ht hreads

/-- The packets of the cycles are honest when the cycles let them be. -/
theorem packetsHonest_sections {cap : ℕ} {moved : List Shape} {ss : List (Section Shape)}
    (hkept : ∀ s ∈ ss, load Shape.length s.kept.flatten ≤ cap)
    (hcloses : ss.IsChain (Section.Closes Shape.length cap)) :
    PacketsHonest (sectionPackets Shape.length cap moved ss) ↔ FlagsHonest cap moved ss := by
  induction ss generalizing moved with
  | nil => exact iff_of_true (fun i hi => absurd hi (Nat.not_lt_zero i)) trivial
  | cons s ss ih =>
    obtain ⟨hfirst, hkept⟩ := List.forall_mem_cons.mp hkept
    have hrest : ss.IsChain (Section.Closes Shape.length cap) := hcloses.tail
    rw [sectionPackets, FlagsHonest]
    by_cases hnil : s.kept = []
    · obtain rfl := eq_nil_of_chain hcloses hnil
      have hhonest : PacketsHonest [] := fun i hi => absurd hi (Nat.not_lt_zero i)
      simp [hnil, sectionPackets, hhonest, AnyReads]
    · have hreads : Packet.Reads ⟨s.kept, formatted Shape.length cap moved s ss⟩ ↔ AnyReads s.kept.flatten := Iff.rfl
      have hformats : Packet.Formats ⟨s.kept, formatted Shape.length cap moved s ss⟩ ↔
          AnyReads (formatted Shape.length cap moved s ss) := Iff.rfl
      rw [if_neg hnil, List.singleton_append, packetsHonest_cons, ih hkept hrest, hreads, hformats,
        later_quiet]
      split
      · rename_i hhas
        rw [formatted_eq hfirst, anyReads_append]
        constructor
        · rintro ⟨hboth, hhonest, -⟩
          exact ⟨hboth.mp hhas, hhonest (hboth.mp hhas)⟩
        · rintro ⟨hformatted, hhonest⟩
          exact ⟨iff_of_true hhas hformatted, fun _ => hhonest, fun hnone => absurd hformatted hnone⟩
      · rename_i hquiet
        rw [formatted_quiet hfirst hquiet]
        constructor
        · rintro ⟨hboth, -, hnone⟩
          have hformatted := hboth.not.mp hquiet
          exact ⟨fun _ => not_or.mp hformatted, hnone hformatted⟩
        · rintro ⟨hnone, hlater⟩
          have hformatted := not_or.mpr (hnone hnil)
          exact ⟨iff_of_false hquiet hformatted, fun h => absurd h hformatted, fun _ => hlater⟩

/-- The flag is truthful exactly when the cycles, as their sizes divide them, let it be. -/
theorem noReadsTruthful_iff (p : Port) (mtu rba : ℕ) (hmtu : mtu ≠ 0) (hrba : rba < 2 ^ 16) (ready : List Queued) :
    NoReadsTruthful p mtu rba ready ↔
      ∃ ss, Divides Shape.length (mtu - p.headerAlignment) (shapes p ready) ss ∧
        FlagsHonest (mtu - p.headerAlignment) [] ss := by
  have hsections : ∀ {ss}, Divides Shape.length (mtu - p.headerAlignment) (shapes p ready) ss →
      (NoReadsTruthful p mtu rba ready ↔ FlagsHonest (mtu - p.headerAlignment) [] ss) := by
    intro ss hss
    rw [noReadsTruthful_packets p hmtu hrba ready, ← packetsHonest_sections hss.kept hss.closes]
    exact iff_of_eq (congrArg PacketsHonest (pack_sections hss).1)
  constructor
  · intro h
    obtain ⟨ss, hss⟩ := exists_divides Shape.length (mtu - p.headerAlignment) (shapes p ready)
    exact ⟨ss, hss, (hsections hss).mp h⟩
  · rintro ⟨ss, hss, hhonest⟩
    exact (hsections hss).mpr hhonest

namespace Sample

/-- A 64-bit bus on a 64-bit build. -/
def widePort : Port := ⟨8, 8, 8, by decide, by decide, by decide, by decide, by decide⟩

/-- One record of 1456 bytes: writes to a FIFO. -/
def fifoWrites : Queued where
  ops := List.replicate 180 ⟨0x4000, 0, .write, false, false, false, 8⟩

def queuedRead : Queued where
  ops := [⟨0x4000, 0, .readVal, false, false, false, 8⟩]

/-- The read goes into a packet of its own, whose header still promises no reads. -/
theorem read_after_writes_hidden : ¬ NoReadsTruthful widePort 1472 0x8000 [fifoWrites, queuedRead] := by
  decide +kernel

/-- The read first, and both packets are truthful. -/
theorem read_before_writes_shown : NoReadsTruthful widePort 1472 0x8000 [queuedRead, fifoWrites] := by
  have hshapes : shapes widePort [queuedRead, fifoWrites] = [[⟨24, true⟩], [⟨1456, false⟩]] := by decide +kernel
  have hcap : 1472 - widePort.headerAlignment = 1464 := by decide
  refine (noReadsTruthful_iff widePort 1472 0x8000 (by decide) (by decide) [queuedRead, fifoWrites]).mpr
    ⟨[⟨[], [[⟨24, true⟩]]⟩, ⟨[], [[⟨1456, false⟩]]⟩], ?_⟩
  rw [hshapes, hcap]
  refine ⟨⟨rfl, by simp, by simp [load], ?_⟩, ?_⟩
  · exact List.isChain_pair.mpr ⟨by simp, [⟨1456, false⟩], rfl, by decide⟩
  · simp [FlagsHonest, AnyReads, overflowing, straddling, fitting, load, Section.groups]

end Sample

end WhiteRabbit.Etherbone
