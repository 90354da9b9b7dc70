import WhiteRabbit.WidthNegotiation

/-!
# Both sides compute the same widths

What the two ends of a negotiation know of each other, at each of its stages. It stays known as long as no probe
response comes late, since one that does replaces the widths of an open device.
-/

namespace WhiteRabbit.Etherbone
open BigEndian StepRuns

namespace Net

/-- Serial numbers are new, and a connection has one passive end at most. -/
structure Structured (n : Net) : Prop where
  serials : (n.devices.map NetDevice.serial).Nodup
  devices : ∀ d ∈ n.devices, d.serial < n.next ∧ d.connection < n.next
  air : ∀ q ∈ n.air, q.asker < n.next
  pending : ∀ c ∈ n.pending, c.1 < n.next
  computed : ∀ c ∈ n.computed, c.1 < n.next
  later : ∀ s, n.next ≤ s → n.up s = [] ∧ n.down s = []
  linked : ∀ d ∈ n.devices, d.stream = false → d.link = true
  packets : ∀ q ∈ n.air, ∀ d ∈ n.devices, d.serial = q.asker → d.stream = false
  accepted : ∀ c ∈ n.pending, ∀ e ∈ n.devices, e.role ≠ .passive c.1
  single : ∀ e ∈ n.devices, ∀ e' ∈ n.devices, ∀ s, e.role = .passive s → e'.role = .passive s →
    e.serial = e'.serial
  handshake : ∀ d ∈ n.devices, ∀ attempts, d.role = .opening attempts → d.stream = true → attempts = 1

/-- There is no more of a connection than before. -/
structure Less (m n : Net) (s : ℕ) : Prop where
  air : ∀ q ∈ m.air, q.asker = s → q ∈ n.air
  computed : ∀ c ∈ m.computed, c.1 = s → c ∈ n.computed
  pending : ∀ c ∈ m.pending, c.1 = s → c ∈ n.pending
  ends : ∀ e ∈ m.devices, e.role = .passive s → e ∈ n.devices
  up : m.up s = n.up s
  down : m.down s = n.down s

variable {n m k : Net} {d e : NetDevice} {serial s : ℕ} {f : NetDevice → NetDevice}

theorem Less.refl (n : Net) (s : ℕ) : Less n n s :=
  ⟨fun _ h _ => h, fun _ h _ => h, fun _ h _ => h, fun _ h _ => h, rfl, rfl⟩

theorem Less.trans (h : Less k m s) (h' : Less m n s) : Less k n s where
  air q hq hs := h'.air q (h.air q hq hs) hs
  computed c hc hs := h'.computed c (h.computed c hc hs) hs
  pending c hc hs := h'.pending c (h.pending c hc hs) hs
  ends e he hs := h'.ends e (h.ends e he hs) hs
  up := h.up.trans h'.up
  down := h.down.trans h'.down

/-- A changed device stays what it was. -/
structure Alike (f : NetDevice → NetDevice) (d : NetDevice) : Prop where
  serial : (f d).serial = d.serial
  stream : (f d).stream = d.stream
  link : d.stream = false → (f d).link = d.link
  connection : (f d).connection = d.connection
  passive : ∀ s, (f d).role = .passive s ↔ d.role = .passive s
  handshake : ∀ attempts, (f d).role = .opening attempts → d.stream = true → d.role = .opening attempts

theorem mem_set (hd : d ∈ (n.set serial f).devices) :
    (d ∈ n.devices ∧ d.serial ≠ serial) ∨ ∃ e ∈ n.devices, e.serial = serial ∧ d = f e := by
  obtain ⟨e, he, rfl⟩ := List.mem_map.mp hd
  by_cases hs : e.serial = serial
  · rw [if_pos hs]
    exact .inr ⟨e, he, hs, rfl⟩
  · rw [if_neg hs]
    exact .inl ⟨he, hs⟩

theorem Less.set (hf : ∀ e ∈ n.devices, e.serial = serial → (f e).role ≠ .passive s) :
    Less (n.set serial f) n s where
  air _ h _ := h
  computed _ h _ := h
  pending _ h _ := h
  ends e he hs := by
    obtain ⟨hmem, -⟩ | ⟨e', he', heq, rfl⟩ := mem_set he
    · exact hmem
    · exact absurd hs (hf e' he' heq)
  up := rfl
  down := rfl

theorem Less.add {pending : List (ℕ × ℕ)} (hpending : ∀ c ∈ pending, c.1 = s → c ∈ n.pending)
    (hrole : d.role ≠ .passive s) :
    Less { n with devices := d :: n.devices, pending := pending, next := n.next + 1 } n s where
  air _ h _ := h
  computed _ h _ := h
  pending := hpending
  ends e he hs := by
    rcases List.mem_cons.mp he with rfl | he
    · exact absurd hs hrole
    · exact he
  up := rfl
  down := rfl

theorem Less.remove (n : Net) (serial s : ℕ) : Less (n.remove serial) n s :=
  ⟨fun _ h _ => h, fun _ h _ => h, fun _ h _ => h, fun _ h _ => (List.mem_filter.mp h).1, rfl, rfl⟩

theorem Less.send {q : Datagram} (hs : q.asker ≠ s) : Less (n.send q) n s where
  air q' hq' heq := by
    rcases List.mem_append.mp hq' with h | h
    · exact h
    · rw [List.mem_singleton.mp h] at heq
      exact absurd heq hs
  computed _ h _ := h
  pending _ h _ := h
  ends _ h _ := h
  up := rfl
  down := rfl

theorem Less.compute {widths : ℕ} (hs : serial ≠ s) : Less (n.compute serial widths) n s where
  air _ h _ := h
  computed c hc heq := by
    rcases List.mem_append.mp hc with h | h
    · exact h
    · rw [List.mem_singleton.mp h] at heq
      exact absurd heq hs
  pending _ h _ := h
  ends _ h _ := h
  up := rfl
  down := rfl

theorem Less.setUp {bytes : Bytes} (hs : serial ≠ s) : Less (n.setUp serial bytes) n s :=
  ⟨fun _ h _ => h, fun _ h _ => h, fun _ h _ => h, fun _ h _ => h, Function.update_of_ne hs.symm _ _, rfl⟩

theorem Less.setDown {bytes : Bytes} (hs : serial ≠ s) : Less (n.setDown serial bytes) n s :=
  ⟨fun _ h _ => h, fun _ h _ => h, fun _ h _ => h, fun _ h _ => h, rfl, Function.update_of_ne hs.symm _ _⟩

theorem Less.kill (hrole : ∀ e ∈ n.devices, e.serial = d.serial → e.isPassive = d.isPassive) :
    Less (n.kill d) n s := by
  rw [Net.kill]
  split
  · exact .remove n _ s
  · rename_i hactive
    apply Less.set
    intro e he heq hpassive
    rw [← hrole e he heq, NetDevice.isPassive, show e.role = .passive s from hpassive] at hactive
    exact hactive rfl

theorem Less.answer {bytes : Bytes} (hs : d.connection ≠ s) : Less (n.answer d bytes) n s := by
  rw [Net.answer]
  split
  · exact .setDown hs
  · exact .setUp hs

theorem Less.setIncoming {bytes : Bytes} (hs : d.connection ≠ s) : Less (n.setIncoming d bytes) n s := by
  rw [Net.setIncoming]
  split
  · exact .setUp hs
  · exact .setDown hs

namespace Structured

theorem set (h : n.Structured) (hf : ∀ d ∈ n.devices, d.serial = serial → Alike f d) :
    (n.set serial f).Structured := by
  have hserials : (n.set serial f).devices.map NetDevice.serial = n.devices.map NetDevice.serial := by
    rw [Net.set, List.map_map]
    apply List.map_congr_left
    intro d hd
    by_cases hs : d.serial = serial
    · rw [Function.comp_apply, if_pos hs, (hf d hd hs).serial]
    · rw [Function.comp_apply, if_neg hs]
  have hold : ∀ d ∈ (n.set serial f).devices, ∃ e ∈ n.devices, d.serial = e.serial ∧ d.stream = e.stream ∧
      (e.stream = false → d.link = e.link) ∧ d.connection = e.connection ∧
        (∀ s, d.role = .passive s ↔ e.role = .passive s) ∧
      ∀ attempts, d.role = .opening attempts → e.stream = true → e.role = .opening attempts := by
    intro d hd
    obtain ⟨hmem, -⟩ | ⟨e, he, hs, rfl⟩ := mem_set hd
    · exact ⟨d, hmem, rfl, rfl, fun _ => rfl, rfl, fun _ => Iff.rfl, fun _ h _ => h⟩
    · have halike := hf e he hs
      exact ⟨e, he, halike.serial, halike.stream, halike.link, halike.connection, halike.passive, halike.handshake⟩
  refine ⟨hserials ▸ h.serials, ?_, h.air, h.pending, h.computed, h.later, ?_, ?_, ?_, ?_, ?_⟩
  · intro d hd
    obtain ⟨e, he, hserial, -, -, hconnection, -⟩ := hold d hd
    rw [hserial, hconnection]
    exact h.devices e he
  · intro d hd hstream
    obtain ⟨e, he, -, hstream', hlink, -⟩ := hold d hd
    rw [hstream'] at hstream
    rw [hlink hstream]
    exact h.linked e he hstream
  · intro q hq d hd hs
    obtain ⟨e, he, hserial, hstream, -⟩ := hold d hd
    rw [hstream]
    exact h.packets q hq e he (hserial ▸ hs)
  · intro c hc d hd hrole
    obtain ⟨e, he, -, -, -, -, hpassive, -⟩ := hold d hd
    exact h.accepted c hc e he ((hpassive _).mp hrole)
  · intro d hd d' hd' t hrole hrole'
    obtain ⟨e, he, hserial, -, -, -, hpassive, -⟩ := hold d hd
    obtain ⟨e', he', hserial', -, -, -, hpassive', -⟩ := hold d' hd'
    rw [hserial, hserial']
    exact h.single e he e' he' t ((hpassive t).mp hrole) ((hpassive' t).mp hrole')
  · intro d hd attempts hrole hstream
    obtain ⟨e, he, -, hstream', -, -, -, hopening⟩ := hold d hd
    rw [hstream'] at hstream
    exact h.handshake e he attempts (hopening attempts hrole hstream) hstream

theorem remove (h : n.Structured) (serial : ℕ) : (n.remove serial).Structured := by
  have hmem : ∀ {d}, d ∈ (n.remove serial).devices → d ∈ n.devices := fun hd => (List.mem_filter.mp hd).1
  refine ⟨h.serials.sublist (List.filter_sublist.map _), fun d hd => h.devices d (hmem hd), h.air, h.pending, h.computed,
    h.later, fun d hd => h.linked d (hmem hd), fun q hq d hd => h.packets q hq d (hmem hd),
    fun c hc e he => h.accepted c hc e (hmem he), fun e he e' he' => h.single e (hmem he) e' (hmem he'),
    fun d hd => h.handshake d (hmem hd)⟩

theorem send (h : n.Structured) {q : Datagram} (hq : q.asker < n.next)
    (hpacket : ∀ d ∈ n.devices, d.serial = q.asker → d.stream = false) : (n.send q).Structured := by
  refine ⟨h.serials, h.devices, ?_, h.pending, h.computed, h.later, h.linked, ?_, h.accepted,
    h.single, h.handshake⟩
  · intro q' hq'
    rcases List.mem_append.mp hq' with hq' | hq'
    · exact h.air q' hq'
    · rw [List.mem_singleton.mp hq']
      exact hq
  · intro q' hq' d hd
    rcases List.mem_append.mp hq' with hq' | hq'
    · exact h.packets q' hq' d hd
    · rw [List.mem_singleton.mp hq']
      exact hpacket d hd

theorem compute (h : n.Structured) (hs : s < n.next) (widths : ℕ) : (n.compute s widths).Structured := by
  refine ⟨h.serials, h.devices, h.air, h.pending, ?_, h.later, h.linked, h.packets, h.accepted,
    h.single, h.handshake⟩
  intro c hc
  rcases List.mem_append.mp hc with hc | hc
  · exact h.computed c hc
  · rw [List.mem_singleton.mp hc]
    exact hs

theorem setUp (h : n.Structured) (hs : s < n.next) (bytes : Bytes) : (n.setUp s bytes).Structured := by
  refine ⟨h.serials, h.devices, h.air, h.pending, h.computed, ?_, h.linked, h.packets,
    h.accepted, h.single, h.handshake⟩
  intro t ht
  have hne : t ≠ s := Nat.ne_of_gt (Nat.lt_of_lt_of_le hs ht)
  exact ⟨(Function.update_of_ne hne _ _).trans (h.later t ht).1, (h.later t ht).2⟩

theorem setDown (h : n.Structured) (hs : s < n.next) (bytes : Bytes) : (n.setDown s bytes).Structured := by
  refine ⟨h.serials, h.devices, h.air, h.pending, h.computed, ?_, h.linked, h.packets,
    h.accepted, h.single, h.handshake⟩
  intro t ht
  have hne : t ≠ s := Nat.ne_of_gt (Nat.lt_of_lt_of_le hs ht)
  exact ⟨(h.later t ht).1, (Function.update_of_ne hne _ _).trans (h.later t ht).2⟩

theorem answer (h : n.Structured) (hd : d.connection < n.next) (bytes : Bytes) :
    (n.answer d bytes).Structured := by
  rw [Net.answer]
  split
  · exact h.setDown hd _
  · exact h.setUp hd _

theorem setIncoming (h : n.Structured) (hd : d.connection < n.next) (bytes : Bytes) :
    (n.setIncoming d bytes).Structured := by
  rw [Net.setIncoming]
  split
  · exact h.setUp hd _
  · exact h.setDown hd _

/-- A new device. -/
theorem add (h : n.Structured) (hserial : d.serial = n.next) (hlink : d.stream = false → d.link = true)
    (hopening : ∀ attempts, d.role = .opening attempts → d.stream = true → attempts = 1) {pending : List (ℕ × ℕ)}
    (hpending : ∀ c ∈ pending, c ∈ n.pending ∨ c.1 = n.next)
    (hends : ∀ s, d.role = .passive s → s < n.next ∧ (∀ c ∈ pending, c.1 ≠ s) ∧ ∀ e ∈ n.devices,
      e.role ≠ .passive s) :
    ({ n with devices := d :: n.devices, pending := pending, next := n.next + 1 } : Net).Structured := by
  have hconnection : d.connection < n.next + 1 := by
    cases hrole : d.role with
    | passive s =>
      rw [NetDevice.connection, hrole]
      exact Nat.lt_succ_of_lt (hends s hrole).1
    | _ =>
      rw [NetDevice.connection, hrole]
      exact hserial ▸ Nat.lt_succ_self _
  have hold : ∀ e ∈ n.devices, e.role ≠ .passive n.next := by
    intro e he hrole
    have hlt := (h.devices e he).2
    rw [NetDevice.connection, hrole] at hlt
    exact Nat.lt_irrefl _ hlt
  refine ⟨?_, ?_, fun q hq => Nat.lt_succ_of_lt (h.air q hq), ?_,
    fun c hc => Nat.lt_succ_of_lt (h.computed c hc), ?_, ?_, ?_, ?_, ?_, ?_⟩
  · rw [List.map_cons, List.nodup_cons]
    refine ⟨fun hmem => ?_, h.serials⟩
    obtain ⟨e, he, hs⟩ := List.mem_map.mp hmem
    have hlt := (h.devices e he).1
    rw [hs, hserial] at hlt
    exact Nat.lt_irrefl _ hlt
  · intro e he
    rcases List.mem_cons.mp he with rfl | he
    · exact ⟨hserial ▸ Nat.lt_succ_self _, hconnection⟩
    · exact ⟨Nat.lt_succ_of_lt (h.devices e he).1, Nat.lt_succ_of_lt (h.devices e he).2⟩
  · intro c hc
    rcases hpending c hc with hc | hc
    · exact Nat.lt_succ_of_lt (h.pending c hc)
    · exact hc ▸ Nat.lt_succ_self _
  · intro s hs
    exact h.later s (Nat.le_of_succ_le hs)
  · intro e he
    rcases List.mem_cons.mp he with rfl | he
    · exact hlink
    · exact h.linked e he
  · intro q hq e he hs
    rcases List.mem_cons.mp he with rfl | he
    · have hlt := h.air q hq
      rw [← hs, hserial] at hlt
      exact absurd hlt (Nat.lt_irrefl _)
    · exact h.packets q hq e he hs
  · intro c hc e he hrole
    rcases List.mem_cons.mp he with rfl | he
    · exact (hends c.1 hrole).2.1 c hc rfl
    · rcases hpending c hc with hc | hc
      · exact h.accepted c hc e he hrole
      · exact hold e he (hc ▸ hrole)
  · intro e he e' he' s hrole hrole'
    rcases List.mem_cons.mp he with rfl | hmem
    · rcases List.mem_cons.mp he' with rfl | hmem'
      · rfl
      · exact absurd hrole' ((hends s hrole).2.2 e' hmem')
    · rcases List.mem_cons.mp he' with rfl | hmem'
      · exact absurd hrole ((hends s hrole').2.2 e hmem)
      · exact h.single e hmem e' hmem' s hrole hrole'
  · intro e he
    rcases List.mem_cons.mp he with rfl | he
    · exact hopening
    · exact h.handshake e he

/-- A device has its serial number alone. -/
theorem device_eq (h : n.Structured) (hd : d ∈ n.devices) (he : e ∈ n.devices)
    (hs : d.serial = e.serial) : d = e :=
  List.inj_on_of_nodup_map h.serials hd he hs

theorem kill (h : n.Structured) (hd : d.stream = true)
    (hmem : ∀ e ∈ n.devices, e.serial = d.serial → e.stream = d.stream) : (n.kill d).Structured := by
  rw [Net.kill]
  split
  · exact h.remove _
  · apply h.set
    intro e he hs
    refine ⟨rfl, rfl, fun hstream => ?_, rfl, fun _ => Iff.rfl, fun _ h _ => h⟩
    rw [hmem e he hs, hd] at hstream
    exact absurd hstream.symm Bool.false_ne_true

end Structured

end Net

/-- It was opened with a probe, or will be. -/
def NetDevice.probed (d : NetDevice) : Bool :=
  match d.role with
  | .opening _ => true
  | .opened probed _ => probed
  | .passive _ => false

/-- It can still end `eb_device_open` with `EB_OK`, or has. -/
def NetDevice.Counts (d : NetDevice) : Prop :=
    d.probed = true ∧ (d.isOpening = true → d.link = true ∨ d.widths ≠ 0)

section Agreement

variable (sock : ℕ → SocketMask)

/-- What the negotiation is about to find. -/
def NetDevice.negotiated (d : NetDevice) : ℕ := ebWidthRefine (d.proposed sock &&& (sock d.peer).mask.toNat)

/-- A datagram of a device or for it. -/
structure NetDevice.Sent (d : NetDevice) (q : Datagram) : Prop where
  src : q.src = d.socket ∨ q.src = d.peer
  dst : q.dst = d.socket ∨ q.dst = d.peer
  header :
    match readHeader q.bytes with
    | .bad => True
    | .probe mask => mask.toNat = d.proposed sock ∧ q.dst = d.peer
    | .response mask _ => mask = (sock d.peer).mask
    | .records mask => mask.toNat = d.negotiated sock ∧ ebWidthPossible (d.negotiated sock) = true

namespace Net

/-- A device of a stream without widths: its probe is on the way, or has been answered, or never will be. -/
inductive Waiting (n : Net) (d : NetDevice) : Prop where
  | asked (hdown : n.down d.serial = []) (hup : n.up d.serial = probeMessage (d.proposed sock) d.handle)
      (hends : ∀ e ∈ n.devices, e.role = .passive d.serial → e.widths = 0)
  | answered
      (hdown : n.down d.serial = [] ∨
        (n.down d.serial).length = 8 ∧ ∃ tag, readHeader (n.down d.serial) = .response (sock d.peer).mask tag)
      (hup : n.up d.serial = []) (hpending : ∀ c ∈ n.pending, c.1 ≠ d.serial)
      (hends : ∀ e ∈ n.devices, e.role = .passive d.serial →
        e.widths = d.negotiated sock ∧ ebWidthPossible (d.negotiated sock) = true)
  | alone (hdown : n.down d.serial = []) (hpending : ∀ c ∈ n.pending, c.1 ≠ d.serial)
      (hends : ∀ e ∈ n.devices, e.role ≠ .passive d.serial)

/-- What is known about a device that counts. -/
structure Tracks (n : Net) (d : NetDevice) : Prop where
  sent : ∀ q ∈ n.air, q.asker = d.serial → d.Sent sock q
  computed : ∀ c ∈ n.computed, c.1 = d.serial → c.2 = d.negotiated sock
  opening : d.isOpening = true → d.widths = 0 ∨ d.widths = (sock d.peer).mask.toNat
  opened : ∀ result, d.role = .opened true result →
    d.widths = d.negotiated sock ∧ result = d.negotiated sock ∧ ebWidthPossible (d.negotiated sock) = true
  called : ∀ c ∈ n.pending, c.1 = d.serial → d.stream = true ∧ c.2 = d.peer
  ends : ∀ e ∈ n.devices, e.role = .passive d.serial → d.stream = true ∧ e.socket = d.peer
  stored : d.stream = true → d.widths ≠ 0 → (∀ c ∈ n.pending, c.1 ≠ d.serial) ∧
    ∀ e ∈ n.devices, e.role = .passive d.serial → e.widths = d.negotiated sock ∧
      ebWidthPossible (d.negotiated sock) = true
  waiting : d.stream = true → d.widths = 0 → n.Waiting sock d

/-- The invariant of the negotiation. -/
structure Consistent (n : Net) : Prop where
  structured : n.Structured
  tracks : ∀ d ∈ n.devices, d.Counts → n.Tracks sock d

end Net

end Agreement

namespace Net

variable {sock : ℕ → SocketMask} {n m : Net} {d e : NetDevice} {serial s : ℕ} {f : NetDevice → NetDevice}

/-- What is known stays known when there is no more of the connection. -/
theorem Tracks.less (h : n.Tracks sock d) (hless : Less m n d.serial) : m.Tracks sock d where
  sent q hq hs := h.sent q (hless.air q hq hs) hs
  computed c hc hs := h.computed c (hless.computed c hc hs) hs
  opening := h.opening
  opened := h.opened
  called c hc hs := h.called c (hless.pending c hc hs) hs
  ends e he hs := h.ends e (hless.ends e he hs) hs
  stored hstream hwidths := by
    obtain ⟨hpending, hends⟩ := h.stored hstream hwidths
    exact ⟨fun c hc hs => hpending c (hless.pending c hc hs) hs, fun e he hs => hends e (hless.ends e he hs) hs⟩
  waiting hstream hwidths := by
    cases h.waiting hstream hwidths with
    | asked hdown hup hends =>
      exact .asked (hless.down.trans hdown) (hless.up.trans hup) fun e he hs => hends e (hless.ends e he hs) hs
    | answered hdown hup hpending hends =>
      refine .answered ?_ (hless.up.trans hup) (fun c hc hs => hpending c (hless.pending c hc hs) hs)
        fun e he hs => hends e (hless.ends e he hs) hs
      rwa [hless.down]
    | alone hdown hpending hends =>
      exact .alone (hless.down.trans hdown) (fun c hc hs => hpending c (hless.pending c hc hs) hs)
        fun e he hs => hends e (hless.ends e he hs) hs

/-- Only one connection is touched, and its own device is looked after. -/
theorem Consistent.of_less {c : ℕ} (h : n.Consistent sock) (hs : m.Structured) (hless : ∀ s, s ≠ c → Less m n s)
    (hold : ∀ d ∈ m.devices, d.serial ≠ c → d.Counts → d ∈ n.devices)
    (hown : ∀ d ∈ m.devices, d.serial = c → d.Counts → m.Tracks sock d) : m.Consistent sock := by
  refine ⟨hs, fun d hd hcounts => ?_⟩
  by_cases hc : d.serial = c
  · exact hown d hd hc hcounts
  · exact (h.tracks d (hold d hd hc hcounts) hcounts).less (hless d.serial hc)

theorem Consistent.remove (h : n.Consistent sock) (serial : ℕ) : (n.remove serial).Consistent sock :=
  ⟨h.structured.remove serial, fun d hd hcounts =>
    (h.tracks d (List.mem_filter.mp hd).1 hcounts).less (.remove n serial d.serial)⟩

end Net

section Widths

variable {sock : ℕ → SocketMask} {d : NetDevice}

theorem proposed_lt (sock : ℕ → SocketMask) (d : NetDevice) : d.proposed sock < 256 :=
  Nat.lt_of_le_of_lt Nat.and_le_left d.asked.toNat_lt

theorem both_lt (sock : ℕ → SocketMask) (d : NetDevice) : d.proposed sock &&& (sock d.peer).mask.toNat < 256 :=
  Nat.lt_of_le_of_lt Nat.and_le_left (proposed_lt sock d)

theorem negotiated_lt (sock : ℕ → SocketMask) (d : NetDevice) : d.negotiated sock < 256 :=
  ebWidthRefine_lt _ (both_lt sock d)

theorem negotiated_refined (h : ebWidthPossible (d.negotiated sock) = true) :
    ebWidthRefined (d.negotiated sock) = true := by
  rw [NetDevice.negotiated, ebWidthPossible_refine _ (both_lt sock d)] at h
  rw [NetDevice.negotiated, ebWidthRefined_refine _ (both_lt sock d), h]

theorem negotiated_ne_zero (h : ebWidthPossible (d.negotiated sock) = true) : d.negotiated sock ≠ 0 := by
  intro hzero
  rw [hzero] at h
  exact absurd h (by decide)

/-- The widths that are found are among those of the caller and of both sockets. -/
theorem negotiated_subset (sock : ℕ → SocketMask) (d : NetDevice) :
    d.negotiated sock &&& d.asked.toNat = d.negotiated sock ∧
      d.negotiated sock &&& (sock d.socket).mask.toNat = d.negotiated sock ∧
      d.negotiated sock &&& (sock d.peer).mask.toNat = d.negotiated sock := by
  have hand := ebWidthRefine_and _ (both_lt sock d)
  rw [← NetDevice.negotiated, NetDevice.proposed] at hand
  generalize d.negotiated sock = w at hand
  generalize d.asked.toNat = a at hand
  generalize (sock d.socket).mask.toNat = b at hand
  generalize (sock d.peer).mask.toNat = c at hand
  refine ⟨?_, ?_, ?_⟩
  · rw [← hand, Nat.and_assoc, Nat.and_comm _ a, ← Nat.and_assoc a, ← Nat.and_assoc a, Nat.and_self]
  · rw [← hand, Nat.and_assoc, Nat.and_assoc a, Nat.and_assoc a, Nat.and_comm (b &&& c),
      ← Nat.and_assoc b b, Nat.and_self]
  · rw [← hand, Nat.and_assoc, Nat.and_assoc (a &&& b), Nat.and_self]

/-- Whoever refines them against one of the sockets finds them again. -/
theorem refine_negotiated (h : ebWidthPossible (d.negotiated sock) = true) {socket : ℕ}
    (hsocket : socket = d.socket ∨ socket = d.peer) :
    ebWidthRefine (d.negotiated sock &&& (sock socket).mask.toNat) = d.negotiated sock := by
  obtain ⟨-, hown, hpeer⟩ := negotiated_subset sock d
  have hand : d.negotiated sock &&& (sock socket).mask.toNat = d.negotiated sock := by
    rcases hsocket with rfl | rfl
    · exact hown
    · exact hpeer
  rw [hand]
  exact ebWidthRefine_of_refined _ (negotiated_lt sock d) (negotiated_refined h)

end Widths

namespace Net

variable {sock : ℕ → SocketMask} {n m : Net} {d e : NetDevice} {serial : ℕ}

theorem device?_mem (h : n.device? serial = some d) : d ∈ n.devices ∧ d.serial = serial :=
  ⟨List.mem_of_find?_eq_some h, by simpa using List.find?_some h⟩

theorem named_mem {socket tag : ℕ} (h : n.named socket tag = some d) : d ∈ n.devices := List.mem_of_find?_eq_some h

/-- The devices after one of them has changed. -/
theorem set_own (h : n.Structured) (hd : d ∈ n.devices) (f : NetDevice → NetDevice) (hf : (f d).serial = d.serial)
    (he : e ∈ (n.set d.serial f).devices) : e ∈ n.devices ∧ e.serial ≠ d.serial ∨ e = f d ∧
      e.serial = d.serial := by
  obtain hold | ⟨e', he', hs, rfl⟩ := mem_set he
  · exact .inl hold
  · rw [h.device_eq he' hd hs]
    exact .inr ⟨rfl, hf⟩

theorem probe_sent (sock : ℕ → SocketMask) (d : NetDevice) {role : Role} :
    ({ d with role := role } : NetDevice).Sent sock ⟨d.socket, d.peer, d.serial, probeMessage (d.proposed sock) d.handle⟩ := by
  refine ⟨.inl rfl, .inr rfl, ?_⟩
  rw [readHeader_probeMessage]
  refine ⟨?_, rfl⟩
  rw [UInt8.toNat_ofNat']
  exact Nat.mod_eq_of_lt (proposed_lt sock d)

/-- A device that is opened has all its widths, or it has sent a probe. -/
inductive Opens (sock : ℕ → SocketMask) (n m : Net) (d : NetDevice) : Prop where
  | unasked (result : ℕ) (hrole : d.role = .opened false result)
      (hm : m = { n with devices := d :: n.devices, pending := n.pending, next := n.next + 1 })
  | asked (attempts : ℕ) (hrole : d.role = .opening attempts) (hstream : d.stream = true → attempts = 1) (hwidths : d.widths = 0)
      (hm : m = ({ n with
        devices := d :: n.devices
        pending := if d.stream then (d.serial, d.peer) :: n.pending else n.pending
        next := n.next + 1 } : Net).probe sock d)

theorem openDevice_spec {socket peer : ℕ} {stream : Bool} {asked : UInt8} {attempts handle : ℕ}
    (hstep : n.openDevice sock socket peer stream asked attempts handle = some m) :
    ∃ d : NetDevice, d.serial = n.next ∧ d.link = true ∧ Opens sock n m d := by
  rw [Net.openDevice] at hstep
  dsimp only at hstep
  split at hstep
  · rename_i hstream
    split at hstep
    · cases hstep
    · rw [if_neg one_ne_zero] at hstep
      cases hstep
      refine ⟨⟨n.next, handle, socket, peer, stream, true, asked, 0, .opening 1⟩, rfl, rfl,
        .asked 1 rfl (fun _ => rfl) rfl ?_⟩
      dsimp only
      rw [if_pos hstream]
  · rename_i hstream
    split at hstep
    · cases hstep
    · split at hstep
      · split at hstep
        · cases hstep
          exact ⟨_, rfl, rfl, .unasked _ rfl rfl⟩
        · cases hstep
      · cases hstep
        refine ⟨⟨n.next, handle, socket, peer, stream, true, asked, 0, .opening attempts⟩, rfl, rfl,
          .asked attempts rfl (fun h => absurd h hstream) rfl ?_⟩
        dsimp only
        rw [if_neg hstream]

theorem Consistent.openDevice {socket peer : ℕ} {stream : Bool} {asked : UInt8} {attempts handle : ℕ}
    (h : n.Consistent sock)
    (hstep : n.openDevice sock socket peer stream asked attempts handle = some m) : m.Consistent sock := by
  obtain ⟨d, hserial, hlink, hopens⟩ := openDevice_spec hstep
  have hlt : ∀ {e : NetDevice}, e ∈ n.devices → e.serial ≠ n.next :=
    fun he => Nat.ne_of_lt (h.structured.devices _ he).1
  cases hopens with
  | unasked result hrole hm =>
    subst hm
    have hpassive : ∀ s, d.role ≠ .passive s := by
      intro s hs
      rw [hrole] at hs
      cases hs
    refine h.of_less (c := n.next) ?_ (fun s hs => .add (fun _ hc _ => hc) (hpassive s)) ?_ ?_
    · exact h.structured.add hserial (fun _ => hlink) (fun a ha _ => by rw [hrole] at ha; cases ha) (fun _ hc => .inl hc)
        fun s hs => absurd hs (hpassive s)
    · intro e he hne _
      rcases List.mem_cons.mp he with rfl | he
      · exact absurd hserial hne
      · exact he
    · intro e he hs hcounts
      rcases List.mem_cons.mp he with rfl | he
      · rw [NetDevice.Counts, NetDevice.probed, hrole] at hcounts
        exact absurd hcounts.1 Bool.false_ne_true
      · exact absurd hs (hlt he)
  | asked attempts hrole hstream hwidths hm =>
    have hpassive : ∀ s, d.role ≠ .passive s := by
      intro s hs
      rw [hrole] at hs
      cases hs
    generalize hpending : (if d.stream then (d.serial, d.peer) :: n.pending else n.pending) = pending at hm
    have hcalls : ∀ c ∈ pending, c ∈ n.pending ∨ d.stream = true ∧ c = (n.next, d.peer) := by
      intro c hc
      rw [← hpending] at hc
      split at hc
      · rename_i hs
        rcases List.mem_cons.mp hc with rfl | hc
        · exact .inr ⟨hs, by rw [hserial]⟩
        · exact .inl hc
      · exact .inl hc
    have hadd : ({ n with devices := d :: n.devices, pending := pending, next := n.next + 1 } : Net).Structured :=
      h.structured.add hserial (fun _ => hlink)
        (fun a ha hs => by rw [hrole] at ha; cases ha; exact hstream hs)
        (fun c hc => (hcalls c hc).imp_right fun heq => by rw [heq.2])
        fun s hs => absurd hs (hpassive s)
    have hless : ∀ s, s ≠ n.next →
        Less { n with devices := d :: n.devices, pending := pending, next := n.next + 1 } n s := by
      intro s hs
      refine .add (fun c hc heq => ?_) (hpassive s)
      rcases hcalls c hc with hc | ⟨-, rfl⟩
      · exact hc
      · exact absurd heq.symm hs
    have hold : ∀ e ∈ d :: n.devices, e.serial ≠ n.next → e ∈ n.devices := by
      intro e he hne
      rcases List.mem_cons.mp he with rfl | he
      · exact absurd hserial hne
      · exact he
    have hown : ∀ e ∈ d :: n.devices, e.serial = n.next → e = d := by
      intro e he hs
      rcases List.mem_cons.mp he with rfl | he
      · rfl
      · exact absurd hs (hlt he)
    have hair : ∀ q ∈ n.air, q.asker ≠ d.serial := fun q hq => hserial ▸ Nat.ne_of_lt (h.structured.air q hq)
    have hcomputed : ∀ c ∈ n.computed, c.1 ≠ d.serial :=
      fun c hc => hserial ▸ Nat.ne_of_lt (h.structured.computed c hc)
    have hcalled : ∀ c ∈ pending, c.1 = d.serial → d.stream = true ∧ c.2 = d.peer := by
      intro c hc heq
      rcases hcalls c hc with hc | ⟨hs, rfl⟩
      · rw [hserial] at heq
        exact absurd heq (Nat.ne_of_lt (h.structured.pending c hc))
      · exact ⟨hs, rfl⟩
    have hends : ∀ e ∈ d :: n.devices, e.role ≠ .passive d.serial := by
      intro e he hs
      rcases List.mem_cons.mp he with rfl | he
      · exact hpassive _ hs
      · have hlt' := (h.structured.devices e he).2
        rw [NetDevice.connection, hs, hserial] at hlt'
        exact Nat.lt_irrefl _ hlt'
    have hopened : ∀ result, d.role ≠ .opened true result := by
      intro result hs
      rw [hrole] at hs
      cases hs
    subst hm
    rw [Net.probe]
    split
    · rename_i hs
      have hd : d.serial < n.next + 1 := hserial ▸ Nat.lt_succ_self _
      refine h.of_less (c := n.next) (hadd.setUp hd _) (fun s hs => .trans (.setUp (hserial ▸ hs.symm)) (hless s hs))
        (fun e he hne _ => hold e he hne) fun e he heq _ => ?_
      rw [hown e he heq]
      have hlater := h.structured.later d.serial (Nat.le_of_eq hserial.symm)
      refine ⟨fun q hq hq' => absurd hq' (hair q hq), fun c hc hc' => absurd hc' (hcomputed c hc), fun _ => .inl hwidths,
        fun result hs => absurd hs (hopened result), hcalled, fun e he hs => absurd hs (hends e he),
        fun _ hne => absurd hwidths hne, fun _ _ => ?_⟩
      exact .asked hlater.2 (Function.update_self _ _ _) fun e he hs => absurd hs (hends e he)
    · rename_i hs
      have hd : d.serial < n.next + 1 := hserial ▸ Nat.lt_succ_self _
      have hpacket : ∀ e ∈ d :: n.devices, e.serial = d.serial → e.stream = false := by
        intro e he heq
        rw [hown e he (heq.trans hserial)]
        exact Bool.not_eq_true _ ▸ hs
      refine h.of_less (c := n.next) (hadd.send hd hpacket) (fun s hs => .trans (.send (hserial ▸ hs.symm)) (hless s hs))
        (fun e he hne _ => hold e he hne) fun e he heq _ => ?_
      rw [hown e he heq]
      refine ⟨fun q hq hq' => ?_, fun c hc hc' => absurd hc' (hcomputed c hc), fun _ => .inl hwidths,
        fun result hs => absurd hs (hopened result), hcalled, fun e he hs => absurd hs (hends e he),
        fun _ hne => absurd hwidths hne, fun hstream' _ => absurd hstream' hs⟩
      rcases List.mem_append.mp hq with hq | hq
      · exact absurd hq' (hair q hq)
      · rw [List.mem_singleton.mp hq]
        exact probe_sent sock d

theorem Consistent.accept {asker handle : ℕ} (h : n.Consistent sock) (hstep : n.accept asker handle = some m) :
    m.Consistent sock := by
  rw [Net.accept] at hstep
  obtain ⟨c, hfind, hstep⟩ := Option.bind_eq_some_iff.mp hstep
  have hc : c ∈ n.pending := List.mem_of_find?_eq_some hfind
  have hasker : c.1 = asker := by simpa using List.find?_some hfind
  split at hstep
  · cases hstep
  · cases hstep
    have hlt : asker < n.next := hasker ▸ h.structured.pending c hc
    have hrest : ∀ c' ∈ n.pending.filter fun c => c.1 ≠ asker, c' ∈ n.pending ∧ c'.1 ≠ asker := fun c' hc' => by
      simpa using List.mem_filter.mp hc'
    refine h.of_less (c := asker) ?_ ?_ ?_ ?_
    · refine h.structured.add rfl (fun hs => absurd hs.symm Bool.false_ne_true) (fun a ha => by cases ha)
        (fun c' hc' => .inl (hrest c' hc').1) fun s hs => ?_
      cases hs
      exact ⟨hlt, fun c' hc' => (hrest c' hc').2, fun e he => hasker ▸ h.structured.accepted c hc e he⟩
    · intro s hs
      exact .add (fun c' hc' _ => (hrest c' hc').1) fun hrole => by cases hrole; exact hs rfl
    · intro d hd hne hcounts
      rcases List.mem_cons.mp hd with rfl | hd
      · exact absurd hcounts.1 Bool.false_ne_true
      · exact hd
    · intro d hd hs hcounts
      rcases List.mem_cons.mp hd with rfl | hd
      · exact absurd hcounts.1 Bool.false_ne_true
      · have htracks := h.tracks d hd hcounts
        have hcalled := htracks.called c hc (hasker.trans hs.symm)
        have hpending : ¬ ∀ c ∈ n.pending, c.1 ≠ d.serial := fun hall => hall c hc (hasker.trans hs.symm)
        refine ⟨htracks.sent, htracks.computed, htracks.opening, htracks.opened,
          fun c' hc' => htracks.called c' (hrest c' hc').1,
          fun e he hrole => ?_, fun hstream hne => absurd (htracks.stored hstream hne).1 hpending,
            fun hstream hzero => ?_⟩
        · rcases List.mem_cons.mp he with rfl | he
          · exact hcalled
          · exact htracks.ends e he hrole
        · cases htracks.waiting hstream hzero with
          | asked hdown hup hends =>
            refine .asked hdown hup fun e he hrole => ?_
            rcases List.mem_cons.mp he with rfl | he
            · rfl
            · exact hends e he hrole
          | answered _ _ hnone | alone _ hnone => exact absurd hnone hpending

/-- A datagram goes out, or once more. -/
theorem Consistent.send {q : Datagram} (h : n.Consistent sock) (hq : q.asker < n.next)
    (hpacket : ∀ d ∈ n.devices, d.serial = q.asker → d.stream = false)
    (hsent : ∀ d ∈ n.devices, d.serial = q.asker → d.Counts → d.Sent sock q) : (n.send q).Consistent sock := by
  refine h.of_less (c := q.asker) (h.structured.send hq hpacket) (fun s hs => .send hs.symm) (fun d hd _ _ => hd) ?_
  intro d hd hs hcounts
  have htracks := h.tracks d hd hcounts
  refine ⟨fun q' hq' heq => ?_, htracks.computed, htracks.opening, htracks.opened, htracks.called,
    htracks.ends, htracks.stored, fun hstream => absurd (hpacket d hd hs ▸ hstream) Bool.false_ne_true⟩
  rcases List.mem_append.mp hq' with hq' | hq'
  · exact htracks.sent q' hq' heq
  · rw [List.mem_singleton.mp hq']
    exact hsent d hd hs hcounts

/-- A message is worked on. -/
theorem Consistent.compute {s widths : ℕ} (h : n.Consistent sock) (hs : s < n.next)
    (hwidths : ∀ d ∈ n.devices, d.serial = s → d.Counts → widths = d.negotiated sock) :
    (n.compute s widths).Consistent sock := by
  refine h.of_less (c := s) (h.structured.compute hs widths) (fun s' hs' => .compute hs'.symm) (fun d hd _ _ => hd) ?_
  intro d hd heq hcounts
  have htracks := h.tracks d hd hcounts
  refine ⟨htracks.sent, fun c hc hc' => ?_, htracks.opening, htracks.opened, htracks.called,
    htracks.ends, htracks.stored, fun hstream hzero => ?_⟩
  · rcases List.mem_append.mp hc with hc | hc
    · exact htracks.computed c hc hc'
    · rw [List.mem_singleton.mp hc]
      exact hwidths d hd heq hcounts
  · cases htracks.waiting hstream hzero with
    | asked hdown hup hends => exact .asked hdown hup hends
    | answered hdown hup hpending hends => exact .answered hdown hup hpending hends
    | alone hdown hpending hends => exact .alone hdown hpending hends

/-- What is on a connection does not matter once its device has widths. -/
theorem Consistent.queues {s : ℕ} (h : n.Consistent sock) (hs : m.Structured) (hdevices : m.devices = n.devices)
    (hair : m.air = n.air) (hpending : m.pending = n.pending) (hcomputed : m.computed = n.computed)
    (hless : ∀ s', s' ≠ s → Less m n s') (hwidths : ∀ d ∈ n.devices, d.serial = s → d.Counts → d.widths ≠ 0) :
    m.Consistent sock := by
  refine h.of_less (c := s) hs hless (fun d hd _ _ => hdevices ▸ hd) ?_
  intro d hd heq hcounts
  rw [hdevices] at hd
  have htracks := h.tracks d hd hcounts
  refine ⟨fun q hq => htracks.sent q (hair ▸ hq), fun c hc => htracks.computed c (hcomputed ▸ hc), htracks.opening,
    htracks.opened, fun c hc => htracks.called c (hpending ▸ hc), fun e he => htracks.ends e (hdevices ▸ he),
    fun hstream hne => ?_, fun _ hzero => absurd hzero (hwidths d hd heq hcounts)⟩
  rw [hpending, hdevices]
  exact htracks.stored hstream hne

/-- An active device changes. -/
theorem Consistent.set {f : NetDevice → NetDevice} (h : n.Consistent sock) (hd : d ∈ n.devices) (hf : Alike f d)
    (hactive : ∀ s, (f d).role ≠ .passive s) (htracks : (f d).Counts → (n.set d.serial f).Tracks sock (f d)) :
    (n.set d.serial f).Consistent sock := by
  have heq : ∀ e ∈ n.devices, e.serial = d.serial → e = d := fun e he hs => h.structured.device_eq he hd hs
  refine h.of_less (c := d.serial) (h.structured.set fun e he hs => heq e he hs ▸ hf)
    (fun s _ => .set fun e he hs => heq e he hs ▸ hactive s) (fun e he hne _ => ?_) fun e he hs hcounts => ?_
  · obtain ⟨hold, -⟩ | ⟨-, hs⟩ := set_own h.structured hd f hf.serial he
    · exact hold
    · exact absurd hs hne
  · obtain ⟨-, hne⟩ | ⟨rfl, -⟩ := set_own h.structured hd f hf.serial he
    · exact absurd hs hne
    · exact htracks hcounts

/-- What is known of a device when its link, its widths and its stage change. -/
theorem Tracks.change (h : n.Tracks sock d) (link : Bool) (widths : ℕ) (role : Role)
    (hopening : ∀ attempts, role = .opening attempts → widths = 0 ∨ widths = (sock d.peer).mask.toNat)
    (hopened : ∀ result, role = .opened true result →
      widths = d.negotiated sock ∧ result = d.negotiated sock ∧ ebWidthPossible (d.negotiated sock) = true)
    (hstored : d.stream = true → widths ≠ 0 → (∀ c ∈ n.pending, c.1 ≠ d.serial) ∧ ∀ e ∈ n.devices,
      e.role = .passive d.serial →
      e.widths = d.negotiated sock ∧ ebWidthPossible (d.negotiated sock) = true)
    (hwaiting : d.stream = true → widths ≠ 0) :
    n.Tracks sock { d with link := link, widths := widths, role := role } where
  sent q hq hs := ⟨(h.sent q hq hs).src, (h.sent q hq hs).dst, (h.sent q hq hs).header⟩
  computed := h.computed
  opening hrole := by
    cases role with
    | opening attempts => exact hopening attempts rfl
    | _ => exact absurd hrole Bool.false_ne_true
  opened := hopened
  called := h.called
  ends := h.ends
  stored := hstored
  waiting hstream hzero := absurd hzero (hwaiting hstream)

theorem less_set {f : NetDevice → NetDevice} (h : n.Structured) (hd : d ∈ n.devices)
    (hactive : ∀ s, (f d).role ≠ .passive s)
    (s : ℕ) : Less (n.set d.serial f) n s :=
  .set fun _ he hs => h.device_eq he hd hs ▸ hactive s

theorem Consistent.retry (h : n.Consistent sock) (hstep : n.retry sock serial = some m) : m.Consistent sock := by
  rw [Net.retry] at hstep
  obtain ⟨d, hd, hstep⟩ := Option.bind_eq_some_iff.mp hstep
  obtain ⟨hmem, rfl⟩ := device?_mem hd
  cases hrole : d.role with
  | opened | passive => simp [hrole] at hstep
  | opening attempts =>
    rw [hrole] at hstep
    dsimp only at hstep
    split at hstep
    · cases hstep
    · split at hstep
      · cases hstep
        exact h.remove d.serial
      · rename_i hwaits hattempts
        cases hstep
        have hpacket : d.stream ≠ true := fun hs => hattempts (h.structured.handshake d hmem attempts hrole hs)
        have hzero : d.widths = 0 := by
          by_contra hne
          exact hwaits (.inr hne)
        have hlink := h.structured.linked d hmem (Bool.not_eq_true _ ▸ hpacket)
        have htracks := h.tracks d hmem ⟨by rw [NetDevice.probed, hrole], fun _ => .inl hlink⟩
        have halike : Alike (fun d => { d with role := .opening (attempts - 1) }) d :=
          ⟨rfl, rfl, fun _ => rfl, by simp [NetDevice.connection, hrole], fun s => by simp [hrole],
            fun _ _ hs => absurd hs hpacket⟩
        have hactive : ∀ s, ({ d with role := .opening (attempts - 1) } : NetDevice).role ≠ .passive s :=
          fun s hs => by cases hs
        have hset := h.set hmem halike hactive fun _ =>
          (htracks.change d.link d.widths (.opening (attempts - 1)) (fun _ _ => .inl hzero)
            (fun _ hr => by cases hr) (fun hs => absurd hs hpacket) fun hs => absurd hs hpacket).less
            (less_set h.structured hmem hactive d.serial)
        have hnew := fun (e : NetDevice) he =>
          set_own (e := e) h.structured hmem (fun d => { d with role := .opening (attempts - 1) }) rfl he
        rw [Net.probe, if_neg hpacket]
        refine hset.send (h.structured.devices d hmem).1 (fun e he hs => ?_) fun e he hs _ => ?_
        · obtain ⟨-, hne⟩ | ⟨rfl, -⟩ := hnew e he
          · exact absurd hs hne
          · exact Bool.not_eq_true _ ▸ hpacket
        · obtain ⟨-, hne⟩ | ⟨rfl, -⟩ := hnew e he
          · exact absurd hs hne
          · exact probe_sent sock d

theorem Consistent.finish (h : n.Consistent sock) (hstep : n.finish sock serial = some m) : m.Consistent sock := by
  rw [Net.finish] at hstep
  obtain ⟨d, hd, hstep⟩ := Option.bind_eq_some_iff.mp hstep
  obtain ⟨hmem, rfl⟩ := device?_mem hd
  cases hrole : d.role with
  | opened | passive => simp [hrole] at hstep
  | opening attempts =>
    rw [hrole] at hstep
    dsimp only at hstep
    split at hstep
    · cases hstep
      exact h.remove d.serial
    · split at hstep
      · cases hstep
      · rename_i hlink hne
        split at hstep
        · rename_i hpossible
          cases hstep
          have htracks := h.tracks d hmem ⟨by rw [NetDevice.probed, hrole], fun _ => .inr hne⟩
          have hmask : d.widths = (sock d.peer).mask.toNat :=
            (htracks.opening (by rw [NetDevice.isOpening, hrole])).resolve_left hne
          have hwidths : d.widths &&& d.proposed sock = d.proposed sock &&& (sock d.peer).mask.toNat := by
            rw [hmask, Nat.and_comm]
          have hnegotiated : ebWidthPossible (d.negotiated sock) = true := by
            rw [NetDevice.negotiated, ebWidthPossible_refine _ (both_lt sock d), ← hwidths]
            exact hpossible
          rw [hwidths]
          refine h.set hmem ?_ (fun s hs => by cases hs) fun _ => ?_
          · exact ⟨rfl, rfl, fun _ => rfl, by simp [NetDevice.connection, hrole], fun s => by simp [hrole], fun _ hr => by cases hr⟩
          · refine Tracks.less (htracks.change _ _ _ (fun _ hr => by cases hr) (fun result hr => ?_) (fun hs _ => htracks.stored hs hne)
              fun _ => negotiated_ne_zero hnegotiated) (less_set h.structured hmem (fun s hs => by cases hs) d.serial)
            cases hr
            exact ⟨rfl, rfl, hnegotiated⟩
        · cases hstep
          exact h.remove d.serial

end Net

end WhiteRabbit.Etherbone
