import WhiteRabbit.WidthAgreement

/-!
# Runs of the negotiation

Messages on the way, bytes on a connection, and the end of one: each keeps what the two sides know of each other.
-/

namespace WhiteRabbit.Etherbone
open BigEndian StepRuns

theorem SocketMask.ne_zero (socket : SocketMask) : socket.mask.toNat ≠ 0 := by
  intro hzero
  have hpossible := socket.possible
  rw [hzero] at hpossible
  exact absurd hpossible (by decide)

namespace NetDevice

variable {sock : ℕ → SocketMask} {d : NetDevice} {q : Datagram} {widths : ℕ}

theorem Counts.of_opening (hopening : d.isOpening = true) (hlink : d.link = true) : d.Counts := by
  refine ⟨?_, fun _ => .inl hlink⟩
  cases hrole : d.role with
  | opening attempts => rw [NetDevice.probed, hrole]
  | opened | passive => simp [NetDevice.isOpening, hrole] at hopening

/-- A datagram of a device is answered for it. -/
theorem Sent.answer {message : Bytes} (h : d.Sent sock q)
    (hanswer : negotiate (sock q.dst) false false q.bytes = .answer widths message) :
    d.Sent sock ⟨q.dst, q.src, q.asker, message⟩ := by
  obtain ⟨mask, hheader, -, -, rfl⟩ := negotiate_answer hanswer
  obtain ⟨-, tag, hresponse⟩ := readHeader_answerMessage (sock q.dst) hheader
  have hprobe := h.header
  rw [hheader] at hprobe
  refine ⟨h.dst, h.src, ?_⟩
  rw [hresponse]
  exact congrArg (fun s => (sock s).mask) hprobe.2

/-- Records are worked on with the widths that were negotiated. -/
theorem Sent.refined (h : d.Sent sock q)
    (hrecords : negotiate (sock q.dst) false false q.bytes = .records widths) : widths = d.negotiated sock := by
  obtain ⟨mask, hheader, rfl⟩ := negotiate_records hrecords
  have hmask := h.header
  rw [hheader] at hmask
  rw [hmask.1]
  exact refine_negotiated hmask.2 h.dst

theorem Sent.reply (h : d.Sent sock q)
    (hrecords : negotiate (sock q.dst) false false q.bytes = .records widths) (payload : Bytes) :
    d.Sent sock ⟨q.dst, q.src, q.asker,
      [0x4E, 0x6F, q.bytes.getD 2 0 ||| ebHeaderNR, q.bytes.getD 3 0] ++ payload⟩ := by
  obtain ⟨mask, hheader, -⟩ := negotiate_records hrecords
  have hmask := h.header
  rw [hheader] at hmask
  refine ⟨h.dst, h.src, ?_⟩
  rw [readHeader_reply hheader]
  exact hmask

end NetDevice

namespace Net

variable {sock : ℕ → SocketMask} {n m : Net} {d e : NetDevice} {serial s : ℕ}

section Connections

/-- A connection that is destroyed has lost its passive end, or the link of its active end. -/
theorem mem_kill (h : n.Structured) (hd : d ∈ n.devices) (he : e ∈ (n.kill d).devices) :
    e ∈ n.devices ∧ e.serial ≠ d.serial ∨ e = { d with link := false } ∧ d.isPassive = false := by
  rw [Net.kill] at he
  split at he
  · obtain ⟨hmem, hne⟩ := List.mem_filter.mp he
    exact .inl ⟨hmem, by simpa using hne⟩
  · rename_i hpassive
    exact (set_own h hd (fun d => { d with link := false }) rfl he).imp_right fun heq =>
      ⟨heq.1, Bool.not_eq_true _ ▸ hpassive⟩

/-- Only a device in `eb_device_open` can be without widths. -/
theorem Tracks.ne_zero (h : n.Tracks sock d) (hprobed : d.probed = true)
    (hopening : d.isOpening = true → d.widths ≠ 0) :
    d.widths ≠ 0 := by
  cases hrole : d.role with
  | opening attempts => exact hopening (by rw [NetDevice.isOpening, hrole])
  | passive s => simp [NetDevice.probed, hrole] at hprobed
  | opened probed result =>
    rw [NetDevice.probed, hrole] at hprobed
    obtain ⟨hwidths, -, hpossible⟩ := h.opened result (hprobed ▸ hrole)
    exact hwidths ▸ negotiated_ne_zero hpossible

theorem Consistent.kill (h : n.Consistent sock) (hd : d ∈ n.devices) (hstream : d.stream = true) :
    (n.kill d).Consistent sock := by
  have hsame : ∀ e ∈ n.devices, e.serial = d.serial → e = d := fun e he hs => h.structured.device_eq he hd hs
  have hless : ∀ s, Less (n.kill d) n s := fun s => .kill fun e he hs => by rw [hsame e he hs]
  refine ⟨h.structured.kill hstream fun e he hs => by rw [hsame e he hs], fun e he hcounts => ?_⟩
  obtain ⟨hmem, -⟩ | ⟨rfl, -⟩ := mem_kill h.structured hd he
  · exact (h.tracks e hmem hcounts).less (hless e.serial)
  · have hopening : d.isOpening = true → d.widths ≠ 0 := fun ho => (hcounts.2 ho).resolve_left Bool.false_ne_true
    have htracks := h.tracks d hd ⟨hcounts.1, fun ho => .inr (hopening ho)⟩
    have hne := htracks.ne_zero hcounts.1 hopening
    have hchanged :=
      htracks.change false d.widths d.role (fun a ha => htracks.opening (by rw [NetDevice.isOpening, ha]))
      htracks.opened htracks.stored fun _ => hne
    exact hchanged.less (hless d.serial)

theorem Consistent.breakLink (h : n.Consistent sock) (hstep : n.breakLink serial = some m) :
    m.Consistent sock := by
  obtain ⟨d, hd, hstep⟩ := Option.bind_eq_some_iff.mp hstep
  split at hstep
  · rename_i hstream
    cases hstep
    exact h.kill (device?_mem hd).1 hstream
  · cases hstep

theorem Consistent.close (h : n.Consistent sock) (hstep : n.close serial = some m) : m.Consistent sock := by
  obtain ⟨d, -, hstep⟩ := Option.bind_eq_some_iff.mp hstep
  split at hstep
  · cases hstep
    exact h.remove serial
  · cases hstep

end Connections

section Packets

/-- A response that comes in time. -/
theorem Consistent.assign {mask : UInt8} (h : n.Consistent sock) (hd : d ∈ n.devices)
    (hopening : d.isOpening = true)
    (hlink : d.link = true) (hmask : mask = (sock d.peer).mask)
    (hends : d.stream = true → (∀ c ∈ n.pending, c.1 ≠ d.serial) ∧ ∀ e ∈ n.devices, e.role = .passive d.serial →
      e.widths = d.negotiated sock ∧ ebWidthPossible (d.negotiated sock) = true) :
    (n.set d.serial fun d => { d with widths := mask.toNat }).Consistent sock := by
  cases hrole : d.role with
  | opened | passive => simp [NetDevice.isOpening, hrole] at hopening
  | opening attempts =>
    have htracks := h.tracks d hd ⟨by rw [NetDevice.probed, hrole], fun _ => .inl hlink⟩
    have hactive : ∀ s, d.role ≠ .passive s := by
      intro s hs
      rw [hrole] at hs
      cases hs
    have hnever : ∀ result, d.role ≠ .opened true result := by
      intro result hr
      rw [hrole] at hr
      cases hr
    have hne : mask.toNat ≠ 0 := hmask ▸ (sock d.peer).ne_zero
    refine h.set hd ⟨rfl, rfl, fun _ => rfl, rfl, fun _ => Iff.rfl, fun _ hr _ => hr⟩ hactive fun _ => ?_
    have hchanged := htracks.change d.link mask.toNat d.role (fun _ _ => .inr (congrArg UInt8.toNat hmask))
      (fun result hr => absurd hr (hnever result)) (fun hs _ => hends hs) fun _ => hne
    exact hchanged.less (less_set h.structured hd hactive d.serial)

theorem set_same (h : n.Structured) (hd : d ∈ n.devices) {mask : UInt8} (hmask : d.widths = mask.toNat) :
    (n.set d.serial fun d => { d with widths := mask.toNat }) = n := by
  have hmap : (n.devices.map fun e => if e.serial = d.serial then { e with widths := mask.toNat } else e) = n.devices := by
    rw [List.map_congr_left (g := id) fun e he => ?_, List.map_id]
    split
    · rename_i hs
      rw [h.device_eq he hd hs, ← hmask]
      rfl
    · rfl
  rw [Net.set, hmap]

theorem Consistent.deliver {i : ℕ} {payload : Option Bytes} (h : n.Consistent sock)
    (hpunctual : n.Punctual sock (.deliver i payload)) (hstep : n.deliver sock i payload = some m) :
    m.Consistent sock := by
  rw [Net.deliver] at hstep
  obtain ⟨q, hi, hstep⟩ := Option.map_eq_some_iff.mp hstep
  have hq : q ∈ n.air := List.mem_of_getElem? hi
  have hsent : ∀ d ∈ n.devices, d.serial = q.asker → d.Counts → d.Sent sock q := fun d hd hs hcounts =>
    (h.tracks d hd hcounts).sent q hq hs.symm
  cases hverdict : negotiate (sock q.dst) false false q.bytes with
  | kill =>
    rw [hverdict] at hstep
    exact hstep ▸ h
  | answer widths message =>
    rw [hverdict] at hstep
    rw [← hstep]
    exact h.send (h.structured.air q hq) (h.structured.packets q hq) fun d hd hs hcounts =>
      (hsent d hd hs hcounts).answer hverdict
  | assign mask tag =>
    rw [hverdict] at hstep
    dsimp only at hstep
    cases hnamed : n.named q.dst tag with
    | none =>
      rw [hnamed] at hstep
      exact hstep ▸ h
    | some d =>
      rw [hnamed] at hstep
      rw [← hstep]
      have hin : n.responseIn sock (.deliver i payload) = some ⟨q.dst, mask, tag, q.asker⟩ := by
        rw [Net.responseIn, hi, Option.bind_some, hverdict]
      have hd := named_mem hnamed
      dsimp only
      obtain ⟨hs, hopening⟩ | hmask := hpunctual _ hin d hnamed
      · have hstream := h.structured.packets q hq d hd hs
        have hlink := h.structured.linked d hd hstream
        have hheader := (hsent d hd hs (.of_opening hopening hlink)).header
        rw [(negotiate_assign hverdict).1] at hheader
        exact h.assign hd hopening hlink hheader fun hs => absurd (hstream ▸ hs) Bool.false_ne_true
      · rw [set_same h.structured hd hmask]
        exact h
  | records widths =>
    rw [hverdict] at hstep
    have hcompute : (n.compute q.asker widths).Consistent sock :=
      h.compute (h.structured.air q hq) fun d hd hs hcounts => (hsent d hd hs hcounts).refined hverdict
    cases payload with
    | none => exact hstep ▸ hcompute
    | some bytes =>
      rw [← hstep]
      exact hcompute.send (h.structured.air q hq) (h.structured.packets q hq) fun d hd hs hcounts =>
        (hsent d hd hs hcounts).reply hverdict bytes

theorem Consistent.flush {noReads : Bool} {payload : Bytes} (h : n.Consistent sock)
    (hstep : n.flush serial noReads payload = some m) : m.Consistent sock := by
  rw [Net.flush] at hstep
  obtain ⟨d, hd, hstep⟩ := Option.bind_eq_some_iff.mp hstep
  obtain ⟨hmem, rfl⟩ := device?_mem hd
  cases hrole : d.role with
  | opening | passive => simp [hrole] at hstep
  | opened probed result =>
    rw [hrole] at hstep
    dsimp only at hstep
    have hsame : ∀ e ∈ n.devices, e.serial = d.serial → e = d := fun e he hs => h.structured.device_eq he hmem hs
    have hopened : d.Counts → d.widths = d.negotiated sock ∧ ebWidthPossible (d.negotiated sock) = true := by
      intro hcounts
      have hprobed := hcounts.1
      rw [NetDevice.probed, hrole] at hprobed
      obtain ⟨hwidths, -, hpossible⟩ := (h.tracks d hmem hcounts).opened result (hprobed ▸ hrole)
      exact ⟨hwidths, hpossible⟩
    have hlt := (h.structured.devices d hmem).1
    split at hstep
    · cases hstep
    · split at hstep
      · cases hstep
        refine h.queues (s := d.serial) (h.structured.setUp hlt _) rfl rfl rfl rfl (fun s hs => .setUp hs.symm) ?_
        intro e he hs hcounts
        rw [hsame e he hs] at hcounts ⊢
        obtain ⟨hwidths, hpossible⟩ := hopened hcounts
        exact hwidths ▸ negotiated_ne_zero hpossible
      · rename_i hstream
        cases hstep
        refine h.send hlt (fun e he hs => ?_) fun e he hs hcounts => ?_
        · rw [hsame e he hs]
          exact Bool.not_eq_true _ ▸ hstream
        · rw [hsame e he hs] at hcounts ⊢
          obtain ⟨hwidths, hpossible⟩ := hopened hcounts
          refine ⟨.inl rfl, .inr rfl, ?_⟩
          have hflags : ((0x10 ||| (if noReads then ebHeaderNR else 0) : UInt8) &&& ebHeaderPF = 0) ∧
              (0x10 ||| (if noReads then ebHeaderNR else 0) : UInt8) &&& ebHeaderPR = 0 ∧
              (0x10 ||| (if noReads then ebHeaderNR else 0) : UInt8) &&& 0xF0 = 0x10 := by
            cases noReads <;> decide
          rw [readHeader_records hflags.1 hflags.2.1 hflags.2.2]
          refine ⟨?_, hpossible⟩
          rw [UInt8.toNat_ofNat', hwidths]
          exact Nat.mod_eq_of_lt (negotiated_lt sock d)

end Packets

section Streams

theorem setIncoming_frame (n : Net) (d : NetDevice) (bytes : Bytes) :
    (n.setIncoming d bytes).devices = n.devices ∧ (n.setIncoming d bytes).air = n.air ∧
      (n.setIncoming d bytes).pending = n.pending ∧ (n.setIncoming d bytes).computed = n.computed := by
  rw [Net.setIncoming]
  split <;> exact ⟨rfl, rfl, rfl, rfl⟩

theorem answer_frame (n : Net) (d : NetDevice) (bytes : Bytes) :
    (n.answer d bytes).devices = n.devices ∧ (n.answer d bytes).air = n.air ∧
      (n.answer d bytes).pending = n.pending ∧ (n.answer d bytes).computed = n.computed := by
  rw [Net.answer]
  split <;> exact ⟨rfl, rfl, rfl, rfl⟩

/-- The device whose connection it is does not wait. -/
def Busy (n : Net) (connection : ℕ) : Prop := ∀ e ∈ n.devices, e.serial = connection → e.Counts → e.widths ≠ 0

theorem Consistent.setIncoming (h : n.Consistent sock) (hd : d.connection < n.next) (hbusy : n.Busy d.connection)
    (bytes : Bytes) : (n.setIncoming d bytes).Consistent sock := by
  obtain ⟨hdevices, hair, hpending, hcomputed⟩ := setIncoming_frame n d bytes
  exact h.queues (s := d.connection) (h.structured.setIncoming hd bytes) hdevices hair hpending hcomputed
    (fun s hs => .setIncoming hs.symm) hbusy

theorem Consistent.answer (h : n.Consistent sock) (hd : d.connection < n.next) (hbusy : n.Busy d.connection)
    (bytes : Bytes) : (n.answer d bytes).Consistent sock := by
  obtain ⟨hdevices, hair, hpending, hcomputed⟩ := answer_frame n d bytes
  exact h.queues (s := d.connection) (h.structured.answer hd bytes) hdevices hair hpending hcomputed
    (fun s hs => .answer hs.symm) hbusy

theorem Consistent.work {widths : ℕ} {reply : Bytes} {kill : Bool} (h : n.Consistent sock) (hd : d ∈ n.devices)
    (hstream : d.stream = true) (hbusy : n.Busy d.connection)
    (hwidths : d.isPassive = true → ∀ e ∈ n.devices,
      e.serial = d.connection → e.Counts → widths = e.negotiated sock) :
    (n.work d widths reply kill).Consistent sock := by
  have hlt := (h.structured.devices d hd).2
  rw [Net.work]
  by_cases hpassive : d.isPassive = true
  · rw [if_pos hpassive]
    have hcompute := (h.compute hlt (hwidths hpassive)).answer (d := d) hlt hbusy reply
    split
    · exact hcompute.kill (by rw [(answer_frame _ _ _).1]; exact hd) hstream
    · exact hcompute
  · rw [if_neg hpassive]
    have hanswer := h.answer hlt hbusy reply
    split
    · exact hanswer.kill (by rw [(answer_frame _ _ _).1]; exact hd) hstream
    · exact hanswer

/-- The passive end of a connection has moved, and the device that asked waits. -/
theorem Consistent.passiveEnd (h : n.Consistent sock) (widths : ℕ) (hd : d ∈ n.devices)
    (hrole : d.role = .passive s)
    (hm : m.Structured) (hless : ∀ s', s' ≠ s → Less m n s') (hair : m.air = n.air)
    (hpending : m.pending = n.pending)
    (hcomputed : m.computed = n.computed)
    (hdevices : ∀ e ∈ m.devices, e ∈ n.devices ∨ e = { d with widths := widths })
    (hwaiting : ∀ c ∈ n.devices, c.serial = s → c.Counts → c.widths = 0 ∧ m.Waiting sock c) :
    m.Consistent sock := by
  have hold : ∀ e ∈ m.devices, e.Counts → e ∈ n.devices := by
    intro e he hcounts
    rcases hdevices e he with he | rfl
    · exact he
    · have hprobed := hcounts.1
      rw [NetDevice.probed, hrole] at hprobed
      exact absurd hprobed Bool.false_ne_true
  refine h.of_less (c := s) hm hless (fun e he _ hcounts => hold e he hcounts) fun c hc hs hcounts => ?_
  have hmem := hold c hc hcounts
  have htracks := h.tracks c hmem hcounts
  obtain ⟨hzero, hwaits⟩ := hwaiting c hmem hs hcounts
  refine ⟨fun q hq => htracks.sent q (hair ▸ hq), fun c' hc' => htracks.computed c' (hcomputed ▸ hc'), htracks.opening,
    htracks.opened, fun c' hc' => htracks.called c' (hpending ▸ hc'), fun e he hpassive => ?_,
    fun _ hne => absurd hzero hne, fun _ _ => hwaits⟩
  rcases hdevices e he with he | rfl
  · exact htracks.ends e he hpassive
  · exact htracks.ends d hd hpassive

/-- What the widths of a passive end say about the device that asked. -/
theorem Tracks.passive_zero (h : n.Tracks sock e) (he : d ∈ n.devices) (hrole : d.role = .passive e.serial)
    (hzero : d.widths = 0) : e.widths = 0 := by
  by_contra hne
  obtain ⟨hwidths, hpossible⟩ := (h.stored (h.ends d he hrole).1 hne).2 d he hrole
  exact negotiated_ne_zero hpossible (hwidths ▸ hzero)

/-- A message that comes to a passive end finds it asked. -/
theorem Tracks.passive_asked (h : n.Tracks sock e) (hd : d ∈ n.devices) (hrole : d.role = .passive e.serial)
    (hzero : e.widths = 0) (hup : n.up e.serial ≠ []) :
    d.widths = 0 ∧ n.down e.serial = [] ∧ n.up e.serial = probeMessage (e.proposed sock) e.handle := by
  cases h.waiting (h.ends d hd hrole).1 hzero with
  | asked hdown hup' hends => exact ⟨hends d hd hrole, hdown, hup'⟩
  | answered _ hup' => exact absurd hup' hup
  | alone _ _ hends => exact absurd hrole (hends d hd)

theorem role_of_passive (h : d.isPassive = true) : d.role = .passive d.connection := by
  cases hrole : d.role with
  | passive s => rw [NetDevice.connection, hrole]
  | opening | opened => simp [NetDevice.isPassive, hrole] at h

theorem connection_of_active (h : d.isPassive = false) : d.connection = d.serial := by
  cases hrole : d.role with
  | opening | opened => rw [NetDevice.connection, hrole]
  | passive s => simp [NetDevice.isPassive, hrole] at h

/-- A passive end that answers a probe. -/
def answeredBy (n : Net) (d : NetDevice) (bytes : Bytes) (widths : ℕ) (message : Bytes) : Net :=
  let rest := ((n.setIncoming d bytes).set d.serial fun d => { d with widths := widths }).answer d message
  if ebWidthPossible widths then rest else rest.kill d

section Answers

variable {bytes message : Bytes} {widths : ℕ}

theorem answeredBy_passive (hrole : d.role = .passive s) : n.answeredBy d bytes widths message =
    let rest :=
      ((n.setUp s bytes).set d.serial fun d => { d with widths := widths }).setDown s (n.down s ++ message)
    if ebWidthPossible widths then rest else rest.remove d.serial := by
  have hpassive : d.isPassive = true := by rw [NetDevice.isPassive, hrole]
  have hconnection : d.connection = s := by rw [NetDevice.connection, hrole]
  rw [answeredBy, Net.setIncoming, Net.answer, Net.kill, if_pos hpassive, if_pos hpassive,
    if_pos hpassive, hconnection]
  rfl

theorem mem_answeredBy (h : n.Structured) (hd : d ∈ n.devices) (hrole : d.role = .passive s)
    (he : e ∈ (n.answeredBy d bytes widths message).devices) :
    (e ∈ n.devices ∧ e.serial ≠ d.serial) ∨ e = { d with widths := widths } ∧ ebWidthPossible widths = true := by
  have hset := fun he => set_own (e := e) h hd (fun d => { d with widths := widths }) rfl he
  rw [answeredBy_passive hrole] at he
  dsimp only at he
  split at he
  · rename_i hpossible
    exact (hset he).imp_right fun heq => ⟨heq.1, hpossible⟩
  · obtain ⟨hmem, hne⟩ := List.mem_filter.mp he
    obtain hold | ⟨-, heq⟩ := hset hmem
    · exact .inl hold
    · simp [heq] at hne

theorem Structured.answeredBy (h : n.Structured) (hd : d ∈ n.devices) (hrole : d.role = .passive s) :
    (n.answeredBy d bytes widths message).Structured := by
  have hlt : s < n.next := by
    have hconnection := (h.devices d hd).2
    rwa [NetDevice.connection, hrole] at hconnection
  have hset : ((n.setUp s bytes).set d.serial fun d => { d with widths := widths }).Structured :=
    (h.setUp hlt bytes).set fun _ _ _ => ⟨rfl, rfl, fun _ => rfl, rfl, fun _ => Iff.rfl, fun _ hr _ => hr⟩
  have hrest := hset.setDown hlt (n.down s ++ message)
  rw [answeredBy_passive hrole]
  dsimp only
  split
  · exact hrest
  · exact hrest.remove d.serial

theorem Less.answeredBy (h : n.Structured) (hd : d ∈ n.devices) (hrole : d.role = .passive s)
    {s' : ℕ} (hs : s' ≠ s) :
    Less (n.answeredBy d bytes widths message) n s' := by
  have hset : Less ((n.setUp s bytes).set d.serial fun d => { d with widths := widths }) n s' := by
    refine .trans (.set fun e he heq hpassive => ?_) (.setUp hs.symm)
    rw [h.device_eq he hd heq] at hpassive
    rw [hrole] at hpassive
    cases hpassive
    exact hs rfl
  have hdown : Less (((n.setUp s bytes).set d.serial fun d => { d with widths := widths }).setDown s (n.down s ++ message))
      ((n.setUp s bytes).set d.serial fun d => { d with widths := widths }) s' := .setDown hs.symm
  have hrest := hdown.trans hset
  rw [answeredBy_passive hrole]
  dsimp only
  split
  · exact hrest
  · exact .trans (.remove _ d.serial s') hrest

theorem answeredBy_frame (n : Net) (bytes : Bytes) (widths : ℕ) (message : Bytes) (hrole : d.role = .passive s) :
    (n.answeredBy d bytes widths message).air = n.air ∧ (n.answeredBy d bytes widths message).pending = n.pending ∧
      (n.answeredBy d bytes widths message).computed = n.computed ∧
      (n.answeredBy d bytes widths message).up s = bytes ∧
      (n.answeredBy d bytes widths message).down s = n.down s ++ message := by
  rw [answeredBy_passive hrole]
  dsimp only
  split <;> exact ⟨rfl, rfl, rfl, Function.update_self _ _ _, Function.update_self _ _ _⟩

/-- The passive end of a connection answers. -/
theorem Consistent.answeredBy (h : n.Consistent sock) (hd : d ∈ n.devices) (hrole : d.role = .passive s)
    (hwaiting : ∀ c ∈ n.devices, c.serial = s → c.Counts →
      c.widths = 0 ∧ (n.answeredBy d bytes widths message).Waiting sock c) :
    (n.answeredBy d bytes widths message).Consistent sock := by
  obtain ⟨hair, hpending, hcomputed, -⟩ := answeredBy_frame n bytes widths message hrole
  exact h.passiveEnd widths hd hrole (h.structured.answeredBy hd hrole)
    (fun s' hs => .answeredBy h.structured hd hrole hs) hair hpending hcomputed
    (fun e he => (mem_answeredBy h.structured hd hrole he).imp And.left And.left) hwaiting

end Answers

/-- What becomes of bytes that a device takes off its connection. -/
inductive Polled (sock : ℕ → SocketMask) (n : Net) (d : NetDevice) (k : ℕ) (reply : Bytes)
    (kill : Bool) (m : Net) : Prop where
  | data (hne : d.widths ≠ 0) (hm : m = (n.setIncoming d ((n.incoming d).drop k)).work d d.widths reply kill)
  | killed (hzero : d.widths = 0)
      (hverdict : ∀ widths message,
        negotiate (sock d.socket) d.isPassive (!d.isPassive) ((n.incoming d).take k) ≠ .answer widths message)
      (hm : m = (n.setIncoming d ((n.incoming d).drop k)).kill d)
  | answered (widths : ℕ) (message : Bytes) (hzero : d.widths = 0)
      (hverdict : negotiate (sock d.socket) d.isPassive (!d.isPassive) ((n.incoming d).take k) = .answer widths message)
      (hm : m = n.answeredBy d ((n.incoming d).drop k) widths message)
  | assigned (mask : UInt8) (tag : ℕ) (e : NetDevice) (hzero : d.widths = 0)
      (hverdict : negotiate (sock d.socket) d.isPassive (!d.isPassive) ((n.incoming d).take k) = .assign mask tag)
      (hnamed : n.named d.socket tag = some e)
      (hm : m = (n.setIncoming d ((n.incoming d).drop k)).set e.serial fun e => { e with widths := mask.toNat })
  | recorded (widths : ℕ) (hzero : d.widths = 0)
      (hverdict : negotiate (sock d.socket) d.isPassive (!d.isPassive) ((n.incoming d).take k) = .records widths)
      (hm : m = (n.setIncoming d ((n.incoming d).drop k)).work d widths reply kill)

theorem poll_spec {k : ℕ} {reply : Bytes} {kill : Bool} (hstep : n.poll sock serial k reply kill = some m) :
    ∃ d ∈ n.devices, n.device? serial = some d ∧ d.stream = true ∧ d.link = true ∧ k ≠ 0 ∧
      k ≤ (n.incoming d).length ∧
      Polled sock n d k reply kill m := by
  rw [Net.poll] at hstep
  obtain ⟨d, hd, hstep⟩ := Option.bind_eq_some_iff.mp hstep
  obtain ⟨hmem, rfl⟩ := device?_mem hd
  dsimp only at hstep
  split at hstep
  · cases hstep
  · rename_i hready
    simp only [not_or, Bool.not_eq_false, Nat.not_lt] at hready
    obtain ⟨hstream, hlink, hk, hlength⟩ := hready
    refine ⟨d, hmem, hd, hstream, hlink, hk, hlength, ?_⟩
    split at hstep
    · rename_i hzero
      cases hverdict : negotiate (sock d.socket) d.isPassive (!d.isPassive) ((n.incoming d).take k) with
      | kill =>
        rw [hverdict] at hstep
        cases hstep
        exact .killed hzero (by rw [hverdict]; exact fun _ _ heq => by cases heq) rfl
      | answer widths message =>
        rw [hverdict] at hstep
        cases hstep
        exact .answered widths message hzero hverdict rfl
      | assign mask tag =>
        rw [hverdict] at hstep
        have hnamed : (n.setIncoming d ((n.incoming d).drop k)).named d.socket tag = n.named d.socket tag := by
          rw [Net.named, (setIncoming_frame _ _ _).1, Net.named]
        dsimp only at hstep
        rw [hnamed] at hstep
        cases hfound : n.named d.socket tag with
        | none =>
          rw [hfound] at hstep
          cases hstep
          exact .killed hzero (by rw [hverdict]; exact fun _ _ heq => by cases heq) rfl
        | some e =>
          rw [hfound] at hstep
          cases hstep
          exact .assigned mask tag e hzero hverdict hfound rfl
      | records widths =>
        rw [hverdict] at hstep
        cases hstep
        exact .recorded widths hzero hverdict rfl
    · rename_i hne
      cases hstep
      exact .data hne rfl

/-- The connection of a device that does not wait. -/
theorem Consistent.poll_busy {k : ℕ} {reply : Bytes} {kill : Bool} (h : n.Consistent sock) (hd : d ∈ n.devices)
    (hstream : d.stream = true) (hlink : d.link = true) (hbusy : n.Busy d.connection)
    (hpunctual : ∀ mask tag e, d.widths = 0 →
      negotiate (sock d.socket) d.isPassive (!d.isPassive) ((n.incoming d).take k) = .assign mask tag →
      n.named d.socket tag = some e → (e.serial = d.connection ∧ e.isOpening = true) ∨ e.widths = mask.toNat)
    (hpolled : Polled sock n d k reply kill m) : m.Consistent sock := by
  have hrest := h.setIncoming (h.structured.devices d hd).2 hbusy ((n.incoming d).drop k)
  have hdevices := (setIncoming_frame n d ((n.incoming d).drop k)).1
  have hmem : d ∈ (n.setIncoming d ((n.incoming d).drop k)).devices := by rwa [hdevices]
  have hasker : ∀ e ∈ n.devices, e.serial = d.connection → d.isPassive = true → d.role = .passive e.serial := by
    intro e he hs hpassive
    rw [hs]
    exact role_of_passive hpassive
  have hidle : d.widths = 0 → d.isPassive = true → ∀ e ∈ n.devices, e.serial = d.connection → ¬e.Counts := by
    intro hzero hpassive e he hs hcounts
    exact hbusy e he hs hcounts ((h.tracks e he hcounts).passive_zero hd (hasker e he hs hpassive) hzero)
  cases hpolled with
  | data hne hm =>
    rw [hm]
    refine hrest.work hmem hstream (fun e he => hbusy e (hdevices ▸ he)) fun hpassive e he hs hcounts => ?_
    rw [hdevices] at he
    have htracks := h.tracks e he hcounts
    have hrole := hasker e he hs hpassive
    exact ((htracks.stored (htracks.ends d hd hrole).1 (hbusy e he hs hcounts)).2 d hd hrole).1
  | killed hzero hverdict hm =>
    rw [hm]
    exact hrest.kill hmem hstream
  | answered widths message hzero hverdict hm =>
    obtain ⟨-, -, hactive, -⟩ := negotiate_answer hverdict
    have hpassive : d.isPassive = true := by simpa using hactive
    rw [hm]
    exact h.answeredBy hd (role_of_passive hpassive) fun c hc hs hcounts =>
      absurd hcounts (hidle hzero hpassive c hc hs)
  | assigned mask tag e hzero hverdict hnamed hm =>
    obtain ⟨hs, hopening⟩ | hmask := hpunctual mask tag e hzero hverdict hnamed
    · have hactive := (negotiate_assign hverdict).2
      rw [connection_of_active hactive] at hs
      have heq := h.structured.device_eq (named_mem hnamed) hd hs
      subst heq
      exact absurd hzero (hbusy e hd (connection_of_active hactive).symm (.of_opening hopening hlink))
    · rw [hm, set_same hrest.structured (hdevices ▸ named_mem hnamed) hmask]
      exact hrest
  | recorded widths hzero hverdict hm =>
    rw [hm]
    refine hrest.work hmem hstream (fun e he => hbusy e (hdevices ▸ he)) fun hpassive e he hs hcounts => ?_
    exact absurd hcounts (hidle hzero hpassive e (hdevices ▸ he) hs)

/-- The first message at the passive end of a connection whose device waits. -/
theorem Consistent.poll_passive {c : NetDevice} {k : ℕ} {reply : Bytes} {kill : Bool} (h : n.Consistent sock)
    (hd : d ∈ n.devices) (hrole : d.role = .passive c.serial) (hc : c ∈ n.devices)
    (hcounts : c.Counts) (hzero : c.widths = 0)
    (hk : k ≠ 0) (hlength : k ≤ (n.incoming d).length) (hpolled : Polled sock n d k reply kill m) :
    m.Consistent sock := by
  have hpassive : d.isPassive = true := by rw [NetDevice.isPassive, hrole]
  have hconnection : d.connection = c.serial := by rw [NetDevice.connection, hrole]
  have hincoming : n.incoming d = n.up c.serial := by rw [Net.incoming, if_pos hpassive, hconnection]
  have htracks := h.tracks c hc hcounts
  have hup : n.up c.serial ≠ [] := by
    intro hnil
    rw [hincoming, hnil] at hlength
    exact hk (Nat.le_zero.mp hlength)
  obtain ⟨hzero', hdown, hprobe⟩ := htracks.passive_asked hd hrole hzero hup
  have hsocket := (htracks.ends d hd hrole).2
  rw [hincoming, hprobe, length_probeMessage] at hlength
  have hchunk := negotiate_probe_take (sock d.socket) true (c.proposed sock) c.handle hlength
  have hpending : ∀ c' ∈ n.pending, c'.1 ≠ c.serial :=
    fun c' hc' hs => h.structured.accepted c' hc' d hd (hs ▸ hrole)
  have hsame : ∀ e ∈ n.devices, e.role = .passive c.serial → e.serial = d.serial := fun e he hs =>
    h.structured.single e he d hd c.serial hs hrole
  have hunique : ∀ c' ∈ n.devices, c'.serial = c.serial → c' = c :=
    fun c' hc' hs => h.structured.device_eq hc' hc hs
  rw [← hprobe, ← hincoming] at hchunk
  cases hpolled with
  | data hne => exact absurd hzero' hne
  | killed _ hverdict hm =>
    have hm' : m = (n.setUp c.serial ((n.incoming d).drop k)).remove d.serial := by
      rw [hm, Net.setIncoming, Net.kill, if_pos hpassive, if_pos hpassive, hconnection]
    have hlt := (h.structured.devices c hc).1
    rw [hm']
    refine h.passiveEnd d.widths hd hrole ((h.structured.setUp hlt _).remove d.serial)
      (fun s' hs => .trans (.remove _ d.serial s') (.setUp hs.symm)) rfl rfl rfl
      (fun e he => .inl (List.mem_filter.mp he).1) fun c' hc' hs _ => ?_
    rw [hunique c' hc' hs]
    refine ⟨hzero, .alone hdown hpending fun e he hrole' => ?_⟩
    obtain ⟨hmem, hne⟩ := List.mem_filter.mp he
    simp [hsame e hmem hrole'] at hne
  | answered widths message _ hverdict hm =>
    rw [hpassive, Bool.not_true, hchunk] at hverdict
    split at hverdict
    · cases hverdict
    · rename_i hlast
      have hwidths : widths = c.negotiated sock := by
        cases hverdict
        rw [hsocket, UInt8.toNat_ofNat', Nat.mod_eq_of_lt (proposed_lt sock c), NetDevice.negotiated]
      have hmessage : message = answerMessage (sock c.peer) (probeMessage (c.proposed sock) c.handle) := by
        cases hverdict
        rw [hincoming, hprobe, hsocket]
      obtain ⟨hanswer, hheader⟩ := readHeader_answerMessage (sock c.peer)
        (readHeader_probeMessage (c.proposed sock) c.handle)
      have hnothing : (n.incoming d).drop k = [] := by
        rw [hincoming, hprobe]
        exact List.drop_of_length_le (by rw [length_probeMessage]; exact Nat.not_lt.mp hlast)
      rw [hm, hnothing]
      refine h.answeredBy hd hrole fun c' hc' hs _ => ?_
      rw [hunique c' hc' hs]
      obtain ⟨-, hpending', -, hup', hdown'⟩ :=
        answeredBy_frame n [] widths message hrole
      rw [hdown, List.nil_append, hmessage] at hdown'
      refine ⟨hzero, .answered (.inr ⟨?_, ?_⟩) hup' (fun c'' hc'' => hpending c'' (hpending' ▸ hc'')) fun e he hrole' => ?_⟩
      · rwa [hmessage, hdown']
      · rwa [hmessage, hdown']
      · obtain ⟨hmem, hne⟩ | ⟨rfl, hpossible⟩ := mem_answeredBy h.structured hd hrole he
        · exact absurd (hsame e hmem hrole') hne
        · exact ⟨hwidths, hwidths ▸ hpossible⟩
  | assigned mask tag e _ hverdict =>
    rw [hpassive, Bool.not_true, hchunk] at hverdict
    split at hverdict <;> cases hverdict
  | recorded widths _ hverdict =>
    rw [hpassive, Bool.not_true, hchunk] at hverdict
    split at hverdict <;> cases hverdict

/-- The device that waits loses its connection. -/
theorem Consistent.active_killed (h : n.Consistent sock) (hd : d ∈ n.devices) (hactive : d.isPassive = false)
    (hcounts : d.Counts) (hstream : d.stream = true) (bytes : Bytes) :
    ((n.setIncoming d bytes).kill d).Consistent sock := by
  have hnot : ¬d.isPassive = true := Bool.eq_false_iff.mp hactive
  have hswap : (n.setIncoming d bytes).kill d = (n.kill d).setIncoming d bytes := by
    rw [Net.setIncoming, Net.setIncoming, Net.kill, Net.kill, if_neg hnot, if_neg hnot, if_neg hnot, if_neg hnot]
    rfl
  have hnext : (n.kill d).next = n.next := by
    rw [Net.kill, if_neg hnot]
    rfl
  rw [hswap]
  refine (h.kill hd hstream).setIncoming (hnext ▸ (h.structured.devices d hd).2) (fun e he hs hcounts' => ?_) _
  rw [connection_of_active hactive] at hs
  obtain ⟨-, hne⟩ | ⟨rfl, -⟩ := mem_kill h.structured hd he
  · exact absurd hs hne
  · exact (h.tracks d hd hcounts).ne_zero hcounts.1 fun ho => (hcounts'.2 ho).resolve_left Bool.false_ne_true

/-- The device that waits takes its answer in. -/
theorem Consistent.active_assigned (h : n.Consistent sock) (hd : d ∈ n.devices) (hactive : d.isPassive = false)
    (hopening : d.isOpening = true) (hlink : d.link = true) (bytes : Bytes)
    (hends : (∀ c ∈ n.pending, c.1 ≠ d.serial) ∧ ∀ e ∈ n.devices, e.role = .passive d.serial →
      e.widths = d.negotiated sock ∧ ebWidthPossible (d.negotiated sock) = true) :
    ((n.setIncoming d bytes).set d.serial fun e => { e with widths := (sock d.peer).mask.toNat }).Consistent sock := by
  have hnot : ¬d.isPassive = true := Bool.eq_false_iff.mp hactive
  have hswap : ((n.setIncoming d bytes).set d.serial fun e => { e with widths := (sock d.peer).mask.toNat }) =
      (n.set d.serial fun e => { e with widths := (sock d.peer).mask.toNat }).setIncoming d bytes := by
    rw [Net.setIncoming, Net.setIncoming, if_neg hnot, if_neg hnot]
    rfl
  rw [hswap]
  refine (h.assign hd hopening hlink rfl fun _ => hends).setIncoming (h.structured.devices d hd).2 (fun e he hs _ => ?_) _
  rw [connection_of_active hactive] at hs
  obtain ⟨-, hother⟩ | ⟨heq, -⟩ :=
    set_own h.structured hd (fun e => { e with widths := (sock d.peer).mask.toNat }) rfl he
  · exact absurd hs hother
  · rw [heq]
    exact (sock d.peer).ne_zero

/-- The answer for the device that waits is lost on another one. -/
theorem Consistent.active_lost (h : n.Consistent sock) (hd : d ∈ n.devices) (hactive : d.isPassive = false)
    (hcounts : d.Counts) (hzero : d.widths = 0) (hup : n.up d.serial = [])
    (hends : (∀ c ∈ n.pending, c.1 ≠ d.serial) ∧ ∀ e ∈ n.devices, e.role = .passive d.serial →
      e.widths = d.negotiated sock ∧ ebWidthPossible (d.negotiated sock) = true) :
    (n.setIncoming d []).Consistent sock := by
  have htracks := h.tracks d hd hcounts
  rw [Net.setIncoming, if_neg (Bool.eq_false_iff.mp hactive), connection_of_active hactive]
  refine h.of_less (c := d.serial) (h.structured.setDown (h.structured.devices d hd).1 [])
    (fun s hs => .setDown hs.symm) (fun e he _ _ => he) fun e he hs _ => ?_
  rw [h.structured.device_eq he hd hs]
  exact ⟨htracks.sent, htracks.computed, htracks.opening, htracks.opened, htracks.called, htracks.ends,
    fun _ hnone => absurd hzero hnone, fun _ _ =>
      .answered (.inl (Function.update_self _ _ _)) hup hends.1 hends.2⟩

/-- The first message at the device that waits. -/
theorem Consistent.poll_active {k : ℕ} {reply : Bytes} {kill : Bool} (h : n.Consistent sock) (hd : d ∈ n.devices)
    (hactive : d.isPassive = false) (hcounts : d.Counts) (hlink : d.link = true) (hzero : d.widths = 0)
    (hstream : d.stream = true)
    (hk : k ≠ 0) (hlength : k ≤ (n.incoming d).length)
    (hpunctual : ∀ mask tag e, d.widths = 0 →
      negotiate (sock d.socket) d.isPassive (!d.isPassive) ((n.incoming d).take k) = .assign mask tag →
      n.named d.socket tag = some e → (e.serial = d.connection ∧ e.isOpening = true) ∨ e.widths = mask.toNat)
    (hpolled : Polled sock n d k reply kill m) : m.Consistent sock := by
  have hincoming : n.incoming d = n.down d.serial := by
    rw [Net.incoming, if_neg (Bool.eq_false_iff.mp hactive), connection_of_active hactive]
  have hlt := (h.structured.devices d hd).2
  have hdown : n.down d.serial ≠ [] := by
    intro hnil
    rw [hincoming, hnil] at hlength
    exact hk (Nat.le_zero.mp hlength)
  cases (h.tracks d hd hcounts).waiting hstream hzero with
  | asked hnil | alone hnil => exact absurd hnil hdown
  | answered hdown' hup hpending hends =>
    obtain ⟨hdown8, tag', hheader⟩ := hdown'.resolve_left hdown
    rw [hincoming, hdown8] at hlength
    have hchunk := negotiate_response_take (sock d.socket) hdown8 hheader hlength
    rw [← hincoming] at hchunk
    cases hpolled with
    | data hne => exact absurd hzero hne
    | killed _ _ hm => exact hm ▸ h.active_killed hd hactive hcounts hstream _
    | answered widths message _ hverdict =>
      obtain ⟨-, -, hresponds, -⟩ := negotiate_answer hverdict
      rw [hactive] at hresponds
      cases hresponds
    | assigned mask tag e _ hverdict hnamed hm =>
      rw [hactive, Bool.not_false, hchunk] at hverdict
      split at hverdict
      · cases hverdict
      · rename_i hlast
        cases hverdict
        rw [hm]
        obtain ⟨hs, hopening⟩ | hmask :=
          hpunctual _ _ e hzero (by rw [hactive, Bool.not_false, hchunk, if_neg hlast]) hnamed
        · have heq := h.structured.device_eq (named_mem hnamed) hd (hs.trans (connection_of_active hactive))
          subst heq
          exact h.active_assigned hd hactive hopening hlink _ ⟨hpending, hends⟩
        · have hstructured := h.structured.setIncoming hlt ((n.incoming d).drop k)
          have hdevices := (setIncoming_frame n d ((n.incoming d).drop k)).1
          have hnothing : (n.incoming d).drop k = [] := by
            rw [hincoming]
            exact List.drop_of_length_le (by omega)
          rw [set_same hstructured (hdevices ▸ named_mem hnamed) hmask, hnothing]
          exact h.active_lost hd hactive hcounts hzero hup ⟨hpending, hends⟩
    | recorded widths _ hverdict =>
      rw [hactive, Bool.not_false, hchunk] at hverdict
      split at hverdict <;> cases hverdict

theorem Consistent.poll {k : ℕ} {reply : Bytes} {kill : Bool} (h : n.Consistent sock)
    (hpunctual : n.Punctual sock (.poll serial k reply kill)) (hstep : n.poll sock serial k reply kill = some m) :
    m.Consistent sock := by
  obtain ⟨d, hd, hdevice, hstream, hlink, hk, hlength, hpolled⟩ := poll_spec hstep
  have hfound : ∀ mask tag e, d.widths = 0 →
      negotiate (sock d.socket) d.isPassive (!d.isPassive) ((n.incoming d).take k) = .assign mask tag →
      n.named d.socket tag = some e → (e.serial = d.connection ∧ e.isOpening = true) ∨ e.widths = mask.toNat := by
    intro mask tag e hzero hverdict hnamed
    have hin : n.responseIn sock (.poll serial k reply kill) = some ⟨d.socket, mask, tag, d.connection⟩ := by
      rw [Net.responseIn, hdevice, Option.bind_some, if_neg (not_not.mpr hzero), hverdict]
    exact hpunctual _ hin e hnamed
  by_cases hbusy : n.Busy d.connection
  · exact h.poll_busy hd hstream hlink hbusy hfound hpolled
  · obtain ⟨c, hc, hs, hcounts, hzero⟩ : ∃ c ∈ n.devices, c.serial = d.connection ∧ c.Counts ∧ c.widths = 0 := by
      simpa [Busy] using hbusy
    cases hpassive : d.isPassive with
    | true => exact h.poll_passive hd (hs ▸ role_of_passive hpassive) hc hcounts hzero hk hlength hpolled
    | false =>
      rw [connection_of_active hpassive] at hs
      have heq := h.structured.device_eq hc hd hs
      subst heq
      exact h.poll_active hd hpassive hcounts hlink hzero hstream hk hlength hfound hpolled

end Streams

section Runs

/-- A step in which no probe response changes a device for which it comes too late. -/
theorem Consistent.step {a : NetAct} (h : n.Consistent sock) (hpunctual : n.Punctual sock a)
    (hstep : n.step sock a = some m) : m.Consistent sock := by
  cases a with
  | openDevice => exact h.openDevice hstep
  | accept => exact h.accept hstep
  | retry => exact h.retry hstep
  | finish => exact h.finish hstep
  | deliver => exact h.deliver hpunctual hstep
  | flush => exact h.flush hstep
  | poll => exact h.poll hpunctual hstep
  | breakLink => exact h.breakLink hstep
  | close => exact h.close hstep

theorem consistent_start (sock : ℕ → SocketMask) : Consistent sock {} := by
  refine ⟨⟨List.nodup_nil, ?_, ?_, ?_, ?_, fun _ _ => ⟨rfl, rfl⟩, ?_, ?_, ?_, ?_, ?_⟩, ?_⟩ <;>
    exact fun _ h => absurd h List.not_mem_nil

/-- What is known of an open device is what it agrees on. -/
theorem Consistent.agreed (h : n.Consistent sock) : n.WidthsAgreed sock := by
  intro d hd result hrole
  have hcounts : d.Counts :=
    ⟨by rw [NetDevice.probed, hrole], fun ho => by simp [NetDevice.isOpening, hrole] at ho⟩
  have htracks := h.tracks d hd hcounts
  obtain ⟨hwidths, hresult, hpossible⟩ := htracks.opened result hrole
  obtain ⟨hasked, hsocket, hpeer⟩ := negotiated_subset sock d
  rw [← hwidths] at hasked hsocket hpeer
  refine ⟨hwidths.trans hresult.symm, hwidths ▸ negotiated_refined hpossible, hasked, hsocket,
    hpeer, ?_, fun e he hs => ?_, fun c hc hs => (htracks.computed c hc hs).trans hwidths.symm⟩
  · rw [hwidths]
    exact refine_negotiated hpossible (.inr rfl)
  · obtain ⟨hstream, -⟩ := htracks.ends e he hs
    rw [hwidths]
    exact ((htracks.stored hstream (hwidths ▸ negotiated_ne_zero hpossible)).2 e he hs).1

/-- A response that finds an open device takes its widths away, unless they are all the socket has. -/
theorem late_response {i : ℕ} {payload : Option Bytes} {q : Datagram} {mask : UInt8}
    {tag result : ℕ} (hi : n.air[i]? = some q)
    (hassign : negotiate (sock q.dst) false false q.bytes = .assign mask tag) (hnamed : n.named q.dst tag = some d)
    (hrole : d.role = .opened true result) (hmask : mask.toNat ≠ result) :
    ∃ m, n.step sock (.deliver i payload) = some m ∧ ¬m.WidthsAgreed sock := by
  refine ⟨n.set d.serial fun d => { d with widths := mask.toNat }, ?_, fun hagreed => ?_⟩
  · rw [Net.step, Net.deliver, hi, Option.map_some, hassign]
    dsimp only
    rw [hnamed]
  · have hmem : { d with widths := mask.toNat } ∈ (n.set d.serial fun d => { d with widths := mask.toNat }).devices :=
      List.mem_map.mpr ⟨d, named_mem hnamed, if_pos rfl⟩
    exact hmask (hagreed _ hmem result hrole).unchanged

/-- Along every run in which no probe response changes a device for which it comes too late, every device that a
probe has opened agrees with its peer on the widths that were negotiated. -/
theorem widths_agreed_run {acts : List NetAct} (hobeys : Obeys (Net.step sock) (Net.Punctual sock) {} acts)
    (hrun : run (Net.step sock) {} acts = some n) : n.WidthsAgreed sock :=
  (run_invariant (fun h hc hs => h.step hc hs) (consistent_start sock) hobeys hrun).agreed

end Runs

end Net

namespace Sample

def allWidths : ℕ → SocketMask := fun _ => ⟨0xFF, by decide⟩

/-- Two attempts on a packet transport, with an answer to each. -/
def twoAttempts : List NetAct :=
  [.openDevice 0 1 false 0x44 2 7, .retry 0, .deliver 0 none, .deliver 1 none, .deliver 2 none]

def streamHandshake : List NetAct :=
  [.openDevice 0 1 true 0x66 1 7, .accept 0 7, .poll 1 8 [] false, .poll 0 8 [] false, .finish 0,
    .flush 0 false [1, 2, 3], .poll 1 3 [4] false]

theorem punctual_agreed :
    (∃ n, run (Net.step allWidths) {} (twoAttempts ++ [.deliver 3 none, .finish 0, .flush 0 false [1, 2], .deliver 4 (some [5]),
        .deliver 5 none]) = some n ∧ n.computed = [(0, 0x44), (0, 0x44)] ∧ n.WidthsAgreed allWidths) ∧
      ∃ n, run (Net.step allWidths) {} streamHandshake = some n ∧ n.computed = [(0, 0x44)] ∧
        n.WidthsAgreed allWidths := by
  constructor
  · have hcomputed : (run (Net.step allWidths) {} (twoAttempts ++ [.deliver 3 none, .finish 0, .flush 0 false [1, 2],
        .deliver 4 (some [5]), .deliver 5 none])).map Net.computed = some [(0, 0x44), (0, 0x44)] := by decide
    obtain ⟨n, hrun, hwidths⟩ := Option.map_eq_some_iff.mp hcomputed
    exact ⟨n, hrun, hwidths, Net.widths_agreed_run (by decide) hrun⟩
  · have hcomputed : (run (Net.step allWidths) {} streamHandshake).map Net.computed = some [(0, 0x44)] := by decide
    obtain ⟨n, hrun, hwidths⟩ := Option.map_eq_some_iff.mp hcomputed
    exact ⟨n, hrun, hwidths, Net.widths_agreed_run (by decide) hrun⟩

/-- The answer to the second attempt comes when the device is open. -/
theorem late_answer :
    ¬∀ acts n, run (Net.step allWidths) {} acts = some n → n.WidthsAgreed allWidths := by
  intro hagreed
  have hfound : (run (Net.step allWidths) {} (twoAttempts ++ [.finish 0])).map (fun n =>
      (n.air[3]?.map fun q => (q.dst, negotiate (allWidths q.dst) false false q.bytes), n.named 0 7)) =
      some (some (0, .assign 0xFF 7), some ⟨0, 7, 0, 1, false, true, 0x44, 0x44, .opened true 0x44⟩) := by decide
  obtain ⟨n, hrun, hfound⟩ := Option.map_eq_some_iff.mp hfound
  obtain ⟨hair, hnamed⟩ := Prod.mk.inj hfound
  obtain ⟨q, hq, hq'⟩ := Option.map_eq_some_iff.mp hair
  obtain ⟨hdst, hassign⟩ := Prod.mk.inj hq'
  obtain ⟨m, hstep, hbroken⟩ : ∃ m, n.step allWidths (.deliver 3 none) = some m ∧ ¬m.WidthsAgreed allWidths :=
    Net.late_response hq hassign (hdst.symm ▸ hnamed) rfl (by decide)
  have hlate : run (Net.step allWidths) {} ((twoAttempts ++ [.finish 0]) ++ [.deliver 3 none]) = some m := by
    rw [run_append, hrun, Option.bind_some, run_cons, hstep]
    rfl
  exact hbroken (hagreed _ m hlate)

end Sample

end WhiteRabbit.Etherbone
