import WhiteRabbit.DeviceFlush
import WhiteRabbit.RecordExecution

/-!
# The slave on a packet transport

A message starts with a header: two magic bytes, the version with its flags, and a mask of
widths. The widths of a message with records are refined against those of the socket. All
its records are worked on in one session, and the cycle must end with the message.
-/

namespace WhiteRabbit.Etherbone
open BigEndian

/-- What a header announces. -/
inductive Header where
  | bad
  | probe (widths : UInt8)
  | response (widths : UInt8) (tag : ℕ)
  | records (widths : UInt8)
  deriving DecidableEq

def readHeader (buffer : Bytes) : Header :=
  let byte (i : ℕ) : UInt8 := buffer.getD i 0
  if byte 0 ≠ 0x4E ∨ byte 1 ≠ 0x6F ∨ buffer.length < 4 then .bad
  else if byte 2 &&& ebHeaderPF ≠ 0 then
    if buffer.length ≠ 8 then .bad else .probe (byte 3)
  else if byte 2 &&& ebHeaderPR ≠ 0 then
    if buffer.length ≠ 8 then .bad else .response (byte 3) (decode ((buffer.drop 4).take 4))
  else if byte 2 &&& 0xF0 ≠ 0x10 then .bad
  else .records (byte 3)

/-- A refined width as a port, on a build with words of `word` bytes. -/
def Port.ofWidths (word widths : ℕ) : Option Port :=
  if h : (word = 2 ∨ word = 4 ∨ word = 8) ∧ IsSize (widths >>> 4) ∧ IsSize (widths &&& ebDataX) ∧
      widths >>> 4 ≤ word ∧ widths &&& ebDataX ≤ word then
    some ⟨word, widths >>> 4, widths &&& ebDataX, h.1, h.2.1, h.2.2.1, h.2.2.2.1, h.2.2.2.2⟩
  else none

/-- `sizeof(buffer)` on such a build. -/
def wordBuffer (word : ℕ) : ℕ := word * (255 + 255 + 1 + 1) + 8

/-- The bus after a message, the replies sent, and the return value. -/
structure Received (σ : Type) where
  bus : Bus σ
  sent : List Bytes
  again : Bool

section Message

variable {σ : Type} (g : Glue σ)

/-- After the payload loop on a message. -/
def settleMessage (r : Slave σ × Stop) : Received σ :=
  let (s, stop) := r
  match stop with
  | .incomplete => ⟨s.bus, s.sent, false⟩
  | .drained =>
    let s := s.flush
    if s.cycleEnd = false ∨ s.buf.unread ≠ [] then ⟨s.bus, s.sent, false⟩ else ⟨s.bus, s.sent, true⟩

/-- The records of a message on a port. The reply starts with the header, which then
promises no reads. -/
def processMessage (p : Port) (bus : Bus σ) (buffer : Bytes) : Received σ :=
  let header := (buffer.set 2 (buffer.getD 2 0 ||| ebHeaderNR)).take p.headerAlignment
  if buffer.length < p.headerAlignment then ⟨bus, [], false⟩
  else
    settleMessage (slaveLoop g p (buffer.length + 1)
      ⟨{ bus with error := 0 }, ⟨header, 0, buffer.drop p.headerAlignment, false⟩, true, false, false, []⟩)

/-- `eb_device_slave` on a message that reached a transport of a socket. -/
def receiveMessage (word socketWidths : ℕ) (bus : Bus σ) (message : Bytes) : Received σ :=
  let buffer := message.take (wordBuffer word)
  if buffer.length < 2 then ⟨bus, [], false⟩
  else
    match readHeader buffer with
    | .bad => ⟨bus, [], false⟩
    | .probe widths =>
      let reply := [0x4E, 0x6F, 0x10 ||| ebHeaderPR ||| ebHeaderNR, UInt8.ofNat socketWidths] ++
        buffer.drop 4
      ⟨bus, [reply], ebWidthPossible (ebWidthRefine (widths.toNat &&& socketWidths))⟩
    | .response _ _ => ⟨bus, [], false⟩
    | .records mask =>
      let widths := ebWidthRefine (mask.toNat &&& socketWidths)
      if ebWidthPossible widths = false then ⟨bus, [], false⟩
      else
        match Port.ofWidths word widths with
        | none => ⟨bus, [], false⟩
        | some p => processMessage g p bus buffer

/-- Several messages, one after the other. -/
def receiveAll (word socketWidths : ℕ) (bus : Bus σ) (messages : List Bytes) : Bus σ :=
  messages.foldl (fun bus m => (receiveMessage g word socketWidths bus m).bus) bus

end Message

theorem Port.ofWidths_widths (p : Port) : Port.ofWidths p.word p.widths = some p := by
  have hd := p.widths_data
  have ha := p.widths_addr
  rw [ofWidths, dif_pos (by rw [ha, hd]; exact ⟨p.word_mem, p.addr_mem, p.data_mem, p.addr_le, p.data_le⟩)]
  simp only [ha, hd]

theorem length_messageHeader (p : Port) (noReads : Bool) :
    (messageHeader p noReads).length = p.headerAlignment := by
  have hra : p.headerAlignment = p.recordAlignment := rfl
  have := p.recordAlignment_mem
  simp only [messageHeader, List.length_append, List.length_cons, List.length_nil,
    List.length_replicate]
  omega

theorem readHeader_messageHeader (p : Port) (noReads : Bool) (rest : Bytes) :
    readHeader (messageHeader p noReads ++ rest) = .records (UInt8.ofNat p.widths) := by
  have hlen : ¬ (messageHeader p noReads ++ rest).length < 4 := by
    simp [messageHeader]
  have hflags : ∀ b : Bool, ((0x10 : UInt8) ||| if b then ebHeaderNR else 0) &&& ebHeaderPF = 0 ∧
      ((0x10 : UInt8) ||| if b then ebHeaderNR else 0) &&& ebHeaderPR = 0 ∧
      ((0x10 : UInt8) ||| if b then ebHeaderNR else 0) &&& 0xF0 = 0x10 := by decide
  obtain ⟨hpf, hpr, hversion⟩ := hflags noReads
  have hbyte : (messageHeader p noReads ++ rest).getD 0 0 = 0x4E ∧
      (messageHeader p noReads ++ rest).getD 1 0 = 0x6F ∧
      (messageHeader p noReads ++ rest).getD 2 0 = (0x10 ||| if noReads then ebHeaderNR else 0) ∧
      (messageHeader p noReads ++ rest).getD 3 0 = UInt8.ofNat p.widths := by simp [messageHeader]
  obtain ⟨h0, h1, h2, h3⟩ := hbyte
  simp only [readHeader, h0, h1, h2, h3, hlen, hpf, hpr, hversion]
  simp

section Session

variable {σ : Type} {g : Glue σ} {p : Port}

/-- The session of a fresh call on a bus. -/
def Session.opened (bus : Bus σ) : Session σ := ⟨{ bus with error := 0 }, true, false, false⟩

/-- Whole cycles in a message are executed in one session, and replied to in one message. -/
theorem processMessage_eq (bus : Bus σ) {buffer header : Bytes} {rs : List Record}
    (hbuffer : buffer = header ++ recordBytes p rs) (hheader : header.length = p.headerAlignment)
    (hwf : ∀ r ∈ rs, r.WellFormed p) (hend : ((Session.opened bus).run g p rs).1.cycleEnd = true) :
    processMessage g p bus buffer =
      { bus := ((Session.opened bus).run g p rs).1.bus
        sent :=
          if ((Session.opened bus).run g p rs).1.reply then
            [(buffer.set 2 (buffer.getD 2 0 ||| ebHeaderNR)).take p.headerAlignment ++
              recordBytes p ((Session.opened bus).run g p rs).2]
          else []
        again := true } := by
  have hlen : ¬ buffer.length < p.headerAlignment := by
    rw [hbuffer, List.length_append]
    omega
  have hrs : rs.length ≤ (recordBytes p rs).length := by
    clear hbuffer hend
    induction rs with
    | nil => rfl
    | cons r rs ih =>
      obtain ⟨hr, hwf'⟩ := List.forall_mem_cons.mp hwf
      have := Record.recordAlignment_le hr
      have := p.recordAlignment_mem
      have := ih hwf'
      simp only [recordBytes_cons, List.length_append, List.length_cons]
      omega
  have hdrop : buffer.drop p.headerAlignment = recordBytes p rs := by
    rw [hbuffer, List.drop_left' hheader]
  obtain ⟨fuel, hfuel⟩ : ∃ fuel, buffer.length + 1 = fuel + rs.length :=
    ⟨buffer.length + 1 - rs.length, by rw [hbuffer, List.length_append]; omega⟩
  rw [processMessage, if_neg hlen, hdrop]
  generalize (buffer.set 2 (buffer.getD 2 0 ||| ebHeaderNR)).take p.headerAlignment = header'
  obtain ⟨gap, hloop⟩ := slaveLoop_records (g := g) hwf (Session.opened bus) header' 0 [] false [] fuel
  rw [List.append_nil, ← hfuel] at hloop
  have hdrained := slaveLoop_drained (g := g) (p := p)
    (((Session.opened bus).run g p rs).1.slave
      ⟨header' ++ recordBytes p ((Session.opened bus).run g p rs).2, gap, [], false⟩ [])
    (by have := p.recordAlignment_mem; simp only [Session.slave, List.length_nil]; omega) fuel
  change settleMessage (slaveLoop g p (buffer.length + 1)
    ((Session.opened bus).slave ⟨header', 0, recordBytes p rs, false⟩ [])) = _
  rw [hloop, hdrained]
  cases hreply : ((Session.opened bus).run g p rs).1.reply with
  | _ => simp [settleMessage, Slave.flush, Session.slave, hreply, hend]

/-- A peer with the same widths works on the records of a message. -/
theorem receiveMessage_eq {socketWidths : ℕ} (hwidths : p.widths &&& socketWidths = p.widths) (bus : Bus σ)
    (noReads : Bool) {rs : List Record}
    (hsize : (messageHeader p noReads ++ recordBytes p rs).length ≤ p.bufferSize) :
    receiveMessage g p.word socketWidths bus (messageHeader p noReads ++ recordBytes p rs) =
      processMessage g p bus (messageHeader p noReads ++ recordBytes p rs) := by
  have hsize' : (messageHeader p noReads ++ recordBytes p rs).length ≤ wordBuffer p.word := hsize
  have hlen : ¬ (messageHeader p noReads ++ recordBytes p rs).length < 2 := by
    simp [messageHeader]
  have hmask : (UInt8.ofNat p.widths).toNat = p.widths := by
    rw [UInt8.toNat_ofNat']
    exact Nat.mod_eq_of_lt p.widths_lt
  have hrefine : ebWidthRefine (p.widths &&& socketWidths) = p.widths := by
    rw [hwidths]
    exact ebWidthRefine_of_refined _ p.widths_lt p.widths_refined
  have hpossible := ebWidthPossible_of_refined p.widths p.widths_refined
  rw [receiveMessage, List.take_of_length_le hsize']
  simp only [hlen, if_false, readHeader_messageHeader, hmask, hrefine, hpossible, Port.ofWidths_widths,
    Bool.true_eq_false]

/-- A peer with the same widths executes the records of a message. -/
theorem receiveMessage_records {socketWidths : ℕ} (hwidths : p.widths &&& socketWidths = p.widths)
    (bus : Bus σ) (noReads : Bool) {rs : List Record} (hwf : ∀ r ∈ rs, r.WellFormed p)
    (hsize : (messageHeader p noReads ++ recordBytes p rs).length ≤ p.bufferSize)
    (hend : ((Session.opened bus).run g p rs).1.cycleEnd = true) :
    (receiveMessage g p.word socketWidths bus (messageHeader p noReads ++ recordBytes p rs)).bus =
        ((Session.opened bus).run g p rs).1.bus ∧
      (receiveMessage g p.word socketWidths bus (messageHeader p noReads ++ recordBytes p rs)).again =
        true := by
  rw [receiveMessage_eq hwidths bus noReads hsize,
    processMessage_eq bus rfl (length_messageHeader p noReads) hwf hend]
  exact ⟨rfl, rfl⟩

end Session

end WhiteRabbit.Etherbone
