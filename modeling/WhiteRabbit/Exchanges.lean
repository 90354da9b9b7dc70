import WhiteRabbit.FlushedCycles
import WhiteRabbit.PacketIsolation
import WhiteRabbit.ReturnAddresses

/-!
# A flush and its replies

On a packet transport a flush sends whole cycles. The peer works on the messages and sends replies, and the socket
that flushed takes them in: every cycle with reads is called back once, in the order of the flush, with the answers
of the peer to its operations.
-/

namespace WhiteRabbit.Etherbone
open BigEndian StepRuns

variable {σ : Type} {g : Glue σ} {p : Port}

section Sizes

/-- A reply is not longer than its request. -/
theorem repliesSize_le {rs : List Record} (h : ∀ r ∈ rs, r.WellFormed p) (o : Bool) :
    repliesSize p o rs ≤ (recordBytes p rs).length := by
  induction rs generalizing o with
  | nil => exact Nat.zero_le _
  | cons r rs ih =>
    obtain ⟨hr, hrs⟩ := List.forall_mem_cons.mp h
    rw [repliesSize, recordBytes_cons, List.length_append, Record.length_bytes hr, Record.length, Record.length_words,
      replySize]
    have hrest := ih hrs (if r.reads = [] then o else !r.cyc)
    by_cases hreads : r.reads = []
    · rw [if_pos hreads, if_pos hreads] at *
      split
      · omega
      · omega
    · have hpos : 0 < r.reads.length := List.length_pos_iff.mpr hreads
      have hclosed : (!r.cyc && r.cyc) = false := Bool.not_and_self _
      rw [if_neg hreads] at hrest
      rw [if_neg hreads, if_neg hreads, hclosed, if_neg Bool.false_ne_true, if_pos hpos]
      have hwords : (r.writes.length + r.reads.length + (if 0 < r.writes.length then 1 else 0) + 1) * p.alignment =
          (r.writes.length + if 0 < r.writes.length then 1 else 0) * p.alignment + r.reads.length * p.alignment +
            p.alignment := by ring
      rw [hwords]
      omega

theorem endsCycle_append (fresh : Bool) (rs rs' : List Record) :
    endsCycle fresh (rs ++ rs') = endsCycle (endsCycle fresh rs) rs' := List.foldl_append

/-- A reply ends with a cycle, like its request. -/
theorem endsCycle_replies (s : Session σ) (cycles : List (WireCycle p)) {fresh : Bool} (hfresh : fresh = true) :
    endsCycle fresh (s.run g p (streamRecords cycles)).2 = true := by
  induction cycles generalizing s fresh with
  | nil => exact hfresh
  | cons c cycles ih =>
    rw [streamRecords_cons, Session.run_append, endsCycle_append]
    apply ih
    by_cases hreads : c.HasReads
    · obtain ⟨final, hfinal, hcyc⟩ := (run_replyCycle (g := g) s hreads).last
      rw [← List.dropLast_append_getLast? final hfinal, endsCycle_append]
      exact hcyc
    · rw [run_noReads s hreads]
      cases s.cycleOpen with
      | true => exact terminator_cyc p
      | false => exact hfresh

end Sizes

section Messages

/-- The replies of a peer to some messages, and its bus after them. -/
def replyAll (g : Glue σ) (word socketWidths : ℕ) : Bus σ → List Bytes → Bus σ × List Bytes
  | bus, [] => (bus, [])
  | bus, message :: messages =>
    let got := receiveMessage g word socketWidths bus message
    let (bus, sent) := replyAll g word socketWidths got.bus messages
    (bus, got.sent ++ sent)

/-- The cycles of some messages that wait for replies, with their answers. The error register is cleared for each
message. -/
def answeredAll (g : Glue σ) (p : Port) : σ → List (List SentCycle) → List (ℕ × List Operation)
  | _, [] => []
  | s, xs :: batches =>
    answered g p s 0 xs ++
      answeredAll g p (sockAll g s ((xs.flatMap SentCycle.ops).map (Operation.access p))) batches

theorem header_reply (p : Port) (noReads : Bool) (rest : Bytes) :
    ((messageHeader p noReads ++ rest).set 2 ((messageHeader p noReads ++ rest).getD 2 0 ||| ebHeaderNR)).take
      p.headerAlignment = messageHeader p true := by
  have hflags : ∀ b : Bool, ((0x10 : UInt8) ||| if b then ebHeaderNR else 0) ||| ebHeaderNR = 0x10 ||| ebHeaderNR := by
    decide
  have hset : (messageHeader p noReads ++ rest).set 2 ((messageHeader p noReads ++ rest).getD 2 0 ||| ebHeaderNR) =
      messageHeader p true ++ rest := by
    simp [messageHeader, hflags]
  rw [hset, List.take_left' (length_messageHeader p true)]

/-- Some sent cycles as they are on the wire. -/
theorem wire_records {xs : List SentCycle} (hvalid : ∀ x ∈ xs, x.Valid p) :
    ∃ cycles : List (WireCycle p), streamRecords cycles = xs.flatMap (SentCycle.records p) := by
  induction xs with
  | nil => exact ⟨[], rfl⟩
  | cons x xs ih =>
    obtain ⟨hx, hxs⟩ := List.forall_mem_cons.mp hvalid
    obtain ⟨segs, -, henc⟩ := hx.encoded
    obtain ⟨c, hc⟩ := henc.wire
    obtain ⟨cycles, hcycles⟩ := ih hxs
    exact ⟨c :: cycles, by rw [streamRecords_cons, List.flatMap_cons, hc, hcycles]⟩

theorem performed_records {xs : List SentCycle} (hvalid : ∀ x ∈ xs, x.Valid p) {sock : σ} {error : ℕ} {B : List Operation}
    {s : Session σ} (hs : Performed g p sock error B s) :
    Performed g p sock error (B ++ xs.flatMap SentCycle.ops) (s.run g p (xs.flatMap (SentCycle.records p))).1 := by
  induction xs generalizing B s with
  | nil => rwa [List.flatMap_nil, List.append_nil]
  | cons x xs ih =>
    obtain ⟨hx, hxs⟩ := List.forall_mem_cons.mp hvalid
    obtain ⟨segs, hops, henc⟩ := hx.encoded
    have hstep := henc.performed hs
    rw [hops] at hstep
    have hrest := ih hxs hstep
    rwa [List.flatMap_cons, List.flatMap_cons, Session.run_append, ← List.append_assoc]

variable {m : Machine} {l : List Handed} {older fs later : List Flight} {gm : Glue (Machine × List Handed)}
  {socketWidths homeWidths : ℕ}

/-- One message, and the reply to it. -/
theorem message_finish {xs : List SentCycle} (hgm : gm.writeConfig = takeIn) (hvalid : ∀ x ∈ xs, x.Valid p)
    (hwidths : p.widths &&& socketWidths = p.widths) (hhome : p.widths &&& homeWidths = p.widths) (noReads : Bool)
    (hsize : (messageHeader p noReads ++ recordBytes p (xs.flatMap (SentCycle.records p))).length ≤ p.bufferSize)
    (bus : Bus σ) {home : Bus (Machine × List Handed)} (hsock : home.sock = (m, l))
    (hqueue : m.queue = older ++ (fs ++ later))
    (hawaits : List.Forall₂ SentCycle.Awaits (xs.filter fun x => x.Waits p) fs)
    (hother : ∀ f ∈ older, ∀ x ∈ xs, x.Waits p → f.response.address ≠ x.address) :
    (receiveMessage g p.word socketWidths bus
        (messageHeader p noReads ++ recordBytes p (xs.flatMap (SentCycle.records p)))).bus.sock =
      sockAll g bus.sock ((xs.flatMap SentCycle.ops).map (Operation.access p)) ∧
    Finished (m, l) (older ++ later) (answered g p bus.sock 0 xs)
      (receiveAll gm p.word homeWidths home (receiveMessage g p.word socketWidths bus
        (messageHeader p noReads ++ recordBytes p (xs.flatMap (SentCycle.records p)))).sent).sock := by
  obtain ⟨cycles, hcycles⟩ := wire_records hvalid
  have hwf : ∀ r ∈ xs.flatMap (SentCycle.records p), r.WellFormed p := by
    rw [← hcycles]
    exact wellFormed_streamRecords cycles
  have hend : ((Session.opened bus).run g p (xs.flatMap (SentCycle.records p))).1.cycleEnd = true := by
    rw [Session.run_cycleEnd, ← hcycles]
    exact endsCycle_stream cycles
  have hperformed := performed_records (g := g) (B := []) (s := Session.opened bus) hvalid ⟨rfl, rfl⟩
  have hfinish := replies_finish (g := g) (l := l) hgm hvalid (Session.opened bus) hqueue hawaits hother
  rw [receiveMessage_eq hwidths bus noReads hsize, processMessage_eq bus rfl (length_messageHeader p noReads) hwf hend]
  refine ⟨hperformed.sock_eq, ?_⟩
  dsimp only
  cases hreply : ((Session.opened bus).run g p (xs.flatMap (SentCycle.records p))).1.reply with
  | false =>
    have hnone := ((Session.run_ok g p (fun _ => rfl : (Session.opened bus).Ok) (xs.flatMap (SentCycle.records p))).2
      hreply).2
    rw [hnone] at hfinish
    rw [if_neg Bool.false_ne_true, receiveAll, List.foldl_nil, hsock]
    exact hfinish
  | true =>
    have hreplies : ∀ r ∈ ((Session.opened bus).run g p (xs.flatMap (SentCycle.records p))).2, r.WellFormed p :=
      fun r hr => (run_wellFormed (Session.opened bus) hwf r hr).1
    have hreplySize : (messageHeader p true ++
        recordBytes p ((Session.opened bus).run g p (xs.flatMap (SentCycle.records p))).2).length ≤ p.bufferSize := by
      have hle := repliesSize_le hwf (Session.opened bus).cycleOpen
      rw [List.length_append, length_messageHeader] at hsize ⊢
      rw [Session.run_size]
      omega
    have hclosed : ((Session.opened home).run gm p
        ((Session.opened bus).run g p (xs.flatMap (SentCycle.records p))).2).1.cycleEnd = true := by
      rw [Session.run_cycleEnd, ← hcycles]
      exact endsCycle_replies _ cycles rfl
    rw [if_pos rfl, header_reply, receiveAll, List.foldl_cons, List.foldl_nil,
      receiveMessage_eq hhome home true hreplySize,
      processMessage_eq home rfl (length_messageHeader p true) hreplies hclosed, Session.run_bus, performAll_eq]
    change Finished _ _ _ (sockAll gm home.sock _)
    rw [hsock]
    exact hfinish

theorem receiveAll_append (g : Glue σ) (word widths : ℕ) (bus : Bus σ) (ms ms' : List Bytes) :
    receiveAll g word widths bus (ms ++ ms') = receiveAll g word widths (receiveAll g word widths bus ms) ms' :=
  List.foldl_append

/-- Messages with whole cycles, and all replies to them. -/
theorem messages_finish {batches : List (List SentCycle)} {messages : List Bytes} (hgm : gm.writeConfig = takeIn)
    (hmessages : List.Forall₂ (fun xs bytes => ∃ noReads,
      bytes = messageHeader p noReads ++ recordBytes p (xs.flatMap (SentCycle.records p)) ∧ bytes.length ≤ p.bufferSize)
      batches messages)
    (hvalid : ∀ x ∈ batches.flatten, x.Valid p)
    (hwidths : p.widths &&& socketWidths = p.widths) (hhome : p.widths &&& homeWidths = p.widths)
    (bus : Bus σ) {home : Bus (Machine × List Handed)} (hsock : home.sock = (m, l)) (hqueue : m.queue = older ++ fs)
    (hawaits : List.Forall₂ SentCycle.Awaits (batches.flatten.filter fun x => x.Waits p) fs)
    (hother : ∀ f ∈ older, ∀ x ∈ batches.flatten, x.Waits p → f.response.address ≠ x.address) :
    Finished (m, l) older (answeredAll g p bus.sock batches)
      (receiveAll gm p.word homeWidths home (replyAll g p.word socketWidths bus messages).2).sock := by
  induction hmessages generalizing bus home m l fs with
  | nil =>
    cases hawaits
    rw [replyAll, receiveAll, List.foldl_nil, hsock]
    exact ⟨m.first, m.last, by simp [answeredAll, calledBack, handedOver], by rw [← hqueue.trans (List.append_nil _)]; rfl⟩
  | @cons xs bytes batches messages hmessage _ ih =>
    obtain ⟨noReads, rfl, hsize⟩ := hmessage
    rw [List.flatten_cons] at hvalid hawaits hother
    rw [List.filter_append] at hawaits
    obtain ⟨fs₁, fs₂, rfl, h₁, h₂⟩ : ∃ fs₁ fs₂, fs = fs₁ ++ fs₂ ∧
        List.Forall₂ SentCycle.Awaits (xs.filter fun x => x.Waits p) fs₁ ∧
        List.Forall₂ SentCycle.Awaits (batches.flatten.filter fun x => x.Waits p) fs₂ :=
      ⟨_, _, (List.take_append_drop _ fs).symm, (List.forall₂_take_append _ _ _ hawaits.flip).flip,
        (List.forall₂_drop_append _ _ _ hawaits.flip).flip⟩
    obtain ⟨hbus, hfirst⟩ := message_finish (g := g) (l := l) hgm (fun x hx => hvalid x (List.mem_append_left _ hx)) hwidths
      hhome noReads hsize bus hsock hqueue h₁ fun f hf x hx => hother f hf x (List.mem_append_left _ hx)
    rw [replyAll, receiveAll_append, answeredAll, ← hbus]
    apply hfirst.trans
    exact ih (fun x hx => hvalid x (List.mem_append_right _ hx)) _ rfl hfirst.queue_eq h₂
      fun f hf x hx => hother f hf x (List.mem_append_right _ hx)

end Messages

section Flush

variable {mtu socketWidths homeWidths d : ℕ} {gm : Glue (Machine × List Handed)} {acts : List SocketAct} {m m' : Machine}
  {ready : List Waiting} {stack : List Frame}

/-- The messages of a flush, as its cycles and as bytes that the buffer of a peer holds. -/
theorem flush_messages (hmtu : mtu ≠ 0) {rba : ℕ} (hrba : rba < 2 ^ 16) (ready : List Waiting) :
    ∃ batches : List (List SentCycle), batches.flatten = sentCycles p mtu (FlushState.start rba) ready ∧
      List.Forall₂ (fun xs bytes => ∃ noReads,
        bytes = messageHeader p noReads ++ recordBytes p (xs.flatMap (SentCycle.records p)) ∧ bytes.length ≤ mtu)
        batches ((ebDeviceFlush p mtu rba (ready.map Waiting.content)).1.sent.map (Message.bytes p mtu)) := by
  obtain ⟨batches, hflat, hrecords⟩ := flush_batches (p := p) hmtu hrba ready
  obtain ⟨packets, hcarries, -⟩ := flush_carries (p := p) hmtu hrba (ready.map Waiting.content)
  have hsize : ∀ message ∈ (ebDeviceFlush p mtu rba (ready.map Waiting.content)).1.sent,
      (message.bytes p mtu).length ≤ mtu :=
    ((List.forall₂_and_left (R := fun _ _ => True) _ _).mp (hcarries.imp fun message cycles h => ⟨h.length_le, trivial⟩)).1
  rw [← List.forall₂_eq_eq_eq, List.forall₂_map_left_iff, List.forall₂_map_right_iff] at hrecords
  refine ⟨batches, hflat, ?_⟩
  rw [List.forall₂_map_right_iff]
  apply ((List.forall₂_and_left _ _).mpr ⟨hsize, hrecords⟩).flip.imp
  intro xs message h
  refine ⟨message.noReads, ?_, h.1⟩
  rw [Message.bytes, if_neg hmtu, h.2]

/-- A flush on a packet transport, the replies of the peer to its messages, and the socket that takes these in: the
cycles that wait are called back in order with the answers of the peer, and nothing of the flush is left in the queue. -/
theorem flush_answered (hgm : gm.writeConfig = takeIn) (hmtu : mtu ≠ 0) (hbuffer : mtu ≤ p.bufferSize)
    (hwidths : p.widths &&& socketWidths = p.widths) (hhome : p.widths &&& homeWidths = p.widths)
    (hreach : run Machine.step {} acts = some m)
    (hstack : m.stack = .flush d p mtu ready (FlushState.start m.rba) :: stack)
    (hlength : ∀ c ∈ ready, c.content.ops.length < 2 ^ 32 - 1)
    (hrun : run Machine.step m (flushActs p mtu (FlushState.start m.rba) ready) = some m')
    (hidentify : m'.AddressesIdentify) (bus : Bus σ) {home : Bus (Machine × List Handed)} {l : List Handed}
    (hsock : home.sock = (m', l)) :
    ∃ batches : List (List SentCycle), batches.flatten = sentCycles p mtu (FlushState.start m.rba) ready ∧
      Finished (m', l) m.queue (answeredAll g p bus.sock batches)
        (receiveAll gm p.word homeWidths home (replyAll g p.word socketWidths bus
          ((ebDeviceFlush p mtu m.rba (ready.map Waiting.content)).1.sent.map (Message.bytes p mtu))).2).sock := by
  have hnumbered : m.Numbered := run_keeps (fun hI hs => Machine.Numbered.step hI hs) Machine.start_numbered hreach
  obtain ⟨hlt, heven⟩ : m.rba < 2 ^ 16 ∧ m.rba % 2 = 0 := by
    rw [hnumbered.rba, returnAddress]
    omega
  obtain ⟨m₁, fs, hrun₁, -, hqueue, hawaits⟩ := flush_run hstack rfl
  obtain rfl : m₁ = m' := Option.some.inj (hrun₁.symm.trans hrun)
  obtain ⟨batches, hflat, hmessages⟩ := flush_messages (p := p) hmtu hlt ready
  have hvalid : ∀ x ∈ batches.flatten, x.Valid p := by
    rw [hflat]
    exact sentCycles_valid hlt heven hlength
  rw [← hflat] at hawaits
  -- a response that waits already has another address than the new ones
  have hother : ∀ f ∈ m.queue, ∀ x ∈ batches.flatten, x.Waits p → f.response.address ≠ x.address := by
    intro f hf x hx hwaits heq
    have hnew : x ∈ batches.flatten.filter fun x => x.Waits p := List.mem_filter.mpr ⟨hx, by simpa using hwaits⟩
    obtain ⟨f', hf', haddr⟩ := awaits_mem hawaits hnew
    have hdistinct := hidentify.distinct
    rw [hqueue, List.map_append, List.nodup_append] at hdistinct
    exact hdistinct.2.2 _ (List.mem_map_of_mem hf) _ (List.mem_map_of_mem hf') (heq.trans haddr.symm)
  refine ⟨batches, hflat, ?_⟩
  apply messages_finish hgm _ hvalid hwidths hhome bus hsock hqueue hawaits hother
  exact hmessages.imp fun xs bytes h => by
    obtain ⟨noReads, hbytes, hsize⟩ := h
    exact ⟨noReads, hbytes, hsize.trans hbuffer⟩

end Flush

namespace Sample

/-- A device on a packet transport flushes a read. -/
def flushRead : List SocketAct :=
  .openDevice narrowPort 1472 :: (queueRead 0 1 ++ [.check 0, .next true, .next true, .next true, .next true])

def readyRead : Waiting := ⟨1, { ops := [{ wordRead with checked := false }] }⟩

def flushingRead : Machine where
  devices := [{ id := 0, port := narrowPort, mtu := 1472 }]
  nextId := 2
  stack := [.flush 0 narrowPort 1472 [readyRead] (FlushState.start 0x8000), .check 0 (.devices none)]
  log := [.closed 1]

/-- The response that waits afterwards. -/
def flushedRead : Machine := (run Machine.step flushingRead [.next true]).getD flushingRead

theorem flushedRead_identify : flushedRead.AddressesIdentify := by
  have hnumbered : flushedRead.Numbered :=
    run_keeps (fun hI hs => Machine.Numbered.step hI hs) Machine.start_numbered
      (show run Machine.step {} (flushRead ++ [.next true]) = some flushedRead from rfl)
  exact hnumbered.identify (by decide)

def takeInGlue : Glue (Machine × List Handed) where
  read x _ _ _ := (x, 0, false)
  write x _ _ _ _ := (x, false)
  writeConfig := takeIn

theorem read_answered : ∃ batches : List (List SentCycle),
    batches.flatten = sentCycles narrowPort 1472 (FlushState.start 0x8000) [readyRead] ∧
      Finished (flushedRead, []) [] (answeredAll sensorGlue narrowPort () batches)
        (receiveAll takeInGlue narrowPort.word narrowPort.widths ⟨(flushedRead, []), 0, []⟩
          (replyAll sensorGlue narrowPort.word narrowPort.widths ⟨(), 0, []⟩
            ((ebDeviceFlush narrowPort 1472 0x8000 [readyRead.content]).1.sent.map
              (Message.bytes narrowPort 1472))).2).sock :=
  flush_answered rfl (by decide) (by decide) (by decide) (by decide)
    (show run Machine.step {} flushRead = some flushingRead from rfl)
    (show flushingRead.stack = .flush 0 narrowPort 1472 [readyRead] (FlushState.start flushingRead.rba) ::
      [.check 0 (.devices none)] from rfl)
    (by decide) rfl flushedRead_identify ⟨(), 0, []⟩ rfl

end Sample

end WhiteRabbit.Etherbone
