import WhiteRabbit.RecordDecoder

/-!
# The slave, record by record

`Session.step` says what the slave does with one complete record: the accesses, and the
records it replies with. The payload loop on bytes is the iteration of this step, and the
reply never overtakes the request in the shared buffer.
-/

namespace WhiteRabbit.Etherbone
open BigEndian

/-- The session state of a slave, without its buffer. -/
structure Session (σ : Type) where
  bus : Bus σ
  cycleEnd : Bool
  cycleOpen : Bool
  reply : Bool

/-- The reply to a record with reads: a write of the values to the base return address. -/
def replyRecord (p : Port) (r : Record) (values : List ℕ) : Record where
  flags := cycleFlag r.cyc ||| (if r.bconfig then ebRecordWCA else 0) |||
    (if r.rfifo then ebRecordWFF else 0)
  select := r.select
  pad := List.replicate (p.recordAlignment - 4) 0
  base := r.ret
  writes := values.map (replyWord p r.select)
  ret := 0
  reads := []

/-- An empty record that ends the cycle. -/
def terminator (p : Port) : Record where
  flags := ebRecordCYC
  select := 0
  pad := List.replicate (p.recordAlignment - 4) 0
  base := 0
  writes := []
  ret := 0
  reads := []

section Step

variable {σ : Type} (g : Glue σ) (p : Port)

def Session.step (s : Session σ) (r : Record) : Session σ × List Record :=
  let (bus, _) := performAll g s.bus (r.writeList p)
  let (bus, values) := performAll g bus (r.readList p)
  let cycleOpen := if r.reads = [] then s.cycleOpen else !r.cyc
  (⟨bus, r.cyc, cycleOpen, s.reply || decide (r.reads ≠ [])⟩,
    (if r.reads = [] then [] else [replyRecord p r values]) ++
      (if cycleOpen && r.cyc then [terminator p] else []))

/-- Several records, with all their replies. -/
def Session.run : Session σ → List Record → Session σ × List Record
  | s, [] => (s, [])
  | s, r :: rs =>
    let (s, out) := s.step g p r
    let (s, outs) := Session.run s rs
    (s, out ++ outs)

@[simp] theorem Session.run_nil (s : Session σ) : s.run g p [] = (s, []) := rfl

theorem Session.run_cons (s : Session σ) (r : Record) (rs : List Record) :
    s.run g p (r :: rs) = (((s.step g p r).1.run g p rs).1,
      (s.step g p r).2 ++ ((s.step g p r).1.run g p rs).2) := rfl

theorem Session.run_append (s : Session σ) (rs ts : List Record) :
    s.run g p (rs ++ ts) = (((s.run g p rs).1.run g p ts).1,
      (s.run g p rs).2 ++ ((s.run g p rs).1.run g p ts).2) := by
  induction rs generalizing s with
  | nil => rfl
  | cons r rs ih => simp [run_cons, ih]

/-- The bus after a step does not depend on how the record is split in halves. -/
theorem Session.step_bus (s : Session σ) (r : Record) :
    (s.step g p r).1.bus = (performAll g s.bus (r.accesses p)).1 := by
  rw [Record.accesses, performAll_append]
  rfl

theorem Session.run_bus (s : Session σ) (rs : List Record) :
    (s.run g p rs).1.bus = (performAll g s.bus (recordAccesses p rs)).1 := by
  induction rs generalizing s with
  | nil => rfl
  | cons r rs ih => rw [run_cons, ih, step_bus, recordAccesses_cons, performAll_append]

/-- The slave in a session, with a buffer and what it sent. -/
def Session.slave (s : Session σ) (buf : Buffer) (sent : List Bytes) : Slave σ :=
  ⟨s.bus, buf, s.cycleEnd, s.cycleOpen, s.reply, sent⟩

end Step

section Loops

variable {σ : Type} {g : Glue σ} {p : Port}

private theorem load_word {w gap : _} {c : Bool} {v : ℕ} {rest : Bytes} (h : v < 256 ^ p.alignment) :
    Buffer.load ⟨w, gap, encode p.alignment v ++ rest, c⟩ p.alignment = v := by
  rw [Buffer.load, List.take_left' (length_encode _ _), decode_encode_of_lt h]

private theorem skip_word {w gap : _} {c : Bool} {v : ℕ} {rest : Bytes} :
    Buffer.skip ⟨w, gap, encode p.alignment v ++ rest, c⟩ p.alignment =
      ⟨w, gap + p.alignment, rest, c⟩ := by
  rw [Buffer.skip, List.drop_left' (length_encode _ _)]

private theorem store_fits {w bs rest : Bytes} {gap : ℕ} {c : Bool} (h : bs.length ≤ gap) :
    Buffer.store ⟨w, gap, rest, c⟩ bs = ⟨w ++ bs, gap - bs.length, rest, c⟩ := by
  simp [Buffer.store, Nat.not_lt.mpr h]

theorem writeLoop_eq (select : UInt8) (wconfig wfifo : Bool) (words : List ℕ) (bwa bwaB bwaL : ℕ)
    (bus : Bus σ) (w : Bytes) (gap : ℕ) (rest : Bytes) (c : Bool)
    (h : ∀ v ∈ words, v < 256 ^ p.alignment) :
    writeLoop g p select wconfig wfifo words.length bwa bwaB bwaL
        (bus, ⟨w, gap, encodeAll p.alignment words ++ rest, c⟩) =
      ((performAll g bus (writeAccesses p select wconfig wfifo bwa bwaB bwaL words)).1,
        ⟨w, gap + words.length * p.alignment, rest, c⟩) := by
  induction words generalizing bwa bwaB bwaL bus gap with
  | nil => simp [writeLoop, writeAccesses]
  | cons v words ih =>
    obtain ⟨hv, hwords⟩ := List.forall_mem_cons.mp h
    simp only [List.length_cons, writeLoop, encodeAll_cons, List.append_assoc, load_word hv,
      skip_word, writeAccesses, performAll_cons]
    rw [ih _ _ _ _ _ hwords, Nat.add_mul, Nat.one_mul, Nat.add_assoc, Nat.add_comm p.alignment]

theorem readLoop_eq (select : UInt8) (rconfig : Bool) (words : List ℕ) (bus : Bus σ) (w : Bytes)
    (gap : ℕ) (rest : Bytes) (c : Bool) (h : ∀ v ∈ words, v < 256 ^ p.alignment) :
    readLoop g p select rconfig words.length (bus, ⟨w, gap, encodeAll p.alignment words ++ rest, c⟩) =
      ((performAll g bus (words.map (readAccess p select rconfig))).1,
        ⟨w ++ encodeAll p.alignment ((performAll g bus (words.map (readAccess p select rconfig))).2.map
          (replyWord p select)), gap, rest, c⟩) := by
  induction words generalizing bus w with
  | nil => simp [readLoop]
  | cons v words ih =>
    obtain ⟨hv, hwords⟩ := List.forall_mem_cons.mp h
    simp only [List.length_cons, readLoop, encodeAll_cons, List.append_assoc, load_word hv, skip_word,
      List.map_cons, performAll_cons]
    rw [store_fits (by simp), length_encode, Nat.add_sub_cancel, ih _ _ hwords, List.append_assoc]

private theorem replyHeader_eq (r : Record) (values : List ℕ) :
    replyHeader p r.flags r.select r.cyc values.length = (replyRecord p r values).header := by
  simp [replyHeader, replyRecord, Record.header, Record.bconfig, Record.rfifo]

private theorem length_replyHeader (flags select : UInt8) (cycleEnd : Bool) (rcount : ℕ) :
    (replyHeader p flags select cycleEnd rcount).length = p.recordAlignment := by
  rcases p.recordAlignment_mem with h | h <;> simp [replyHeader, h]

theorem bytes_replyRecord (r : Record) {values : List ℕ} (h : values ≠ []) :
    (replyRecord p r values).bytes p = replyHeader p r.flags r.select r.cyc values.length ++
      encode p.alignment r.ret ++ encodeAll p.alignment (values.map (replyWord p r.select)) := by
  rw [Record.bytes, replyHeader_eq, List.append_assoc]
  simp [replyRecord, Record.words, Record.writeWords, Record.readWords, h]

theorem bytes_terminator : (terminator p).bytes p =
    cycleFlag true :: List.replicate (p.recordAlignment - 1) 0 := by
  rcases p.recordAlignment_mem with h | h <;>
    simp [terminator, Record.bytes, Record.header, Record.words, Record.writeWords,
      Record.readWords, h, cycleFlag, List.replicate]

theorem slaveWrites_eq (r : Record) (bus : Bus σ) (w : Bytes) (gap : ℕ) (rest : Bytes) (c : Bool)
    (h : ∀ v ∈ r.writeWords, v < 256 ^ p.alignment) :
    slaveWrites g p r.flags r.select r.writes.length
        (bus, ⟨w, gap, encodeAll p.alignment r.writeWords ++ rest, c⟩) =
      ((performAll g bus (r.writeList p)).1,
        ⟨w, gap + r.writeWords.length * p.alignment, rest, c⟩) := by
  rw [Record.writeWords] at h ⊢
  cases hw : r.writes with
  | nil => simp [slaveWrites, Record.writeList, hw, writeAccesses]
  | cons v words =>
    simp only [hw, List.cons_ne_nil, if_false] at h ⊢
    obtain ⟨hb, hws⟩ := List.forall_mem_cons.mp h
    simp only [slaveWrites, List.length_cons, Nat.zero_lt_succ, if_true]
    rw [encodeAll_cons, List.append_assoc, load_word hb, skip_word]
    have hloop := writeLoop_eq (g := g) (p := p) r.select r.wconfig r.wfifo (v :: words)
      (writeBase p r.select r.wconfig r.base).1 (writeBase p r.select r.wconfig r.base).2.1
      (writeBase p r.select r.wconfig r.base).2.2 bus w (gap + p.alignment) rest c hws
    rw [List.length_cons] at hloop
    simp only [Record.writeList, hw]
    refine Eq.trans hloop ?_
    congr 2
    ring

theorem slaveReads_eq (r : Record) (hr : r.reads ≠ []) (bus : Bus σ) (w : Bytes) (gap : ℕ)
    (rest : Bytes) (c : Bool) (h : ∀ v ∈ r.readWords, v < 256 ^ p.alignment)
    (hgap : p.recordAlignment ≤ gap) :
    slaveReads g p r.flags r.select r.cyc r.reads.length
        (bus, ⟨w, gap, encodeAll p.alignment r.readWords ++ rest, c⟩) =
      ((performAll g bus (r.readList p)).1,
        ⟨w ++ (replyRecord p r (performAll g bus (r.readList p)).2).bytes p,
          gap - p.recordAlignment, rest, c⟩) := by
  rw [Record.readWords, if_neg hr] at h ⊢
  obtain ⟨hb, hws⟩ := List.forall_mem_cons.mp h
  have hlen : (performAll g bus (r.readList p)).2.length = r.reads.length := by
    simp [Record.readList]
  have hne : (performAll g bus (r.readList p)).2 ≠ [] := by
    rw [← List.length_pos_iff, hlen]
    exact List.length_pos_iff.mpr hr
  rw [bytes_replyRecord r hne, hlen]
  have hhead : (replyHeader p r.flags r.select r.cyc r.reads.length).length = p.recordAlignment :=
    length_replyHeader _ _ _ _
  have hstore : ∀ bs, Buffer.store ⟨w, gap, bs, c⟩
      (replyHeader p r.flags r.select r.cyc r.reads.length) =
        ⟨w ++ replyHeader p r.flags r.select r.cyc r.reads.length, gap - p.recordAlignment, bs, c⟩ := by
    intro bs
    rw [store_fits (by rw [hhead]; exact hgap), hhead]
  simp only [slaveReads, hstore, encodeAll_cons, List.append_assoc, load_word hb, skip_word]
  rw [store_fits (by simp), length_encode, Nat.add_sub_cancel]
  have hloop := readLoop_eq (g := g) r.select r.rconfig r.reads bus
    (w ++ replyHeader p r.flags r.select r.cyc r.reads.length ++ encode p.alignment r.ret)
    (gap - p.recordAlignment) rest c hws
  refine Eq.trans hloop ?_
  simp [Record.readList, List.append_assoc]

theorem slaveBody_eq (s : Session σ) (r : Record) (w : Bytes) (gap : ℕ) (rest : Bytes) (c : Bool)
    (sent : List Bytes) (h : ∀ v ∈ r.words, v < 256 ^ p.alignment) (hgap : p.recordAlignment ≤ gap) :
    ∃ gap', slaveBody g p r.flags r.select r.writes.length r.reads.length
        (s.slave ⟨w, gap, encodeAll p.alignment r.words ++ rest, c⟩ sent) =
      (s.step g p r).1.slave ⟨w ++ recordBytes p (s.step g p r).2, gap', rest, c⟩ sent := by
  have hw : ∀ v ∈ r.writeWords, v < 256 ^ p.alignment := fun v hv => h v (by simp [Record.words, hv])
  have hr : ∀ v ∈ r.readWords, v < 256 ^ p.alignment := fun v hv => h v (by simp [Record.words, hv])
  have hwrites := slaveWrites_eq (g := g) r s.bus w gap (encodeAll p.alignment r.readWords ++ rest) c hw
  rw [Record.words, encodeAll_append, List.append_assoc]
  have hcyc : (r.flags &&& ebRecordCYC != 0) = r.cyc := rfl
  simp only [slaveBody, Session.slave, hwrites, hcyc]
  by_cases hreads : r.reads = []
  · have hword : r.readWords = [] := if_pos hreads
    have hlist : r.readList p = [] := by rw [Record.readList, hreads]; rfl
    simp only [hreads, hword, List.length_nil, lt_self_iff_false, if_false, encodeAll_nil,
      List.nil_append, Session.step, hlist, performAll_nil, ne_eq, not_true_eq_false, decide_false,
      Bool.or_false, if_true]
    by_cases hterm : (s.cycleOpen && r.cyc) = true
    · have hcyc : r.cyc = true := (Bool.and_eq_true_iff.mp hterm).2
      have hfit : (cycleFlag r.cyc :: List.replicate (p.recordAlignment - 1) 0).length ≤
          gap + r.writeWords.length * p.alignment := by
        rcases p.recordAlignment_mem with h | h <;> simp [h] <;> omega
      simp only [hterm, if_true, recordBytes_cons, recordBytes_nil, List.append_nil]
      rw [store_fits hfit, bytes_terminator, ← hcyc]
      exact ⟨_, rfl⟩
    · simp only [hterm]
      exact ⟨_, by simp [recordBytes]; rfl⟩
  · have hpos : 0 < r.reads.length := List.length_pos_iff.mpr hreads
    have hread := slaveReads_eq (g := g) r hreads (performAll g s.bus (r.writeList p)).1 w
      (gap + r.writeWords.length * p.alignment) rest c hr (by omega)
    simp only [hpos, if_true, hread, Session.step, hreads, if_false, Bool.not_and_self,
      Bool.false_eq_true, List.append_nil, ne_eq, not_false_eq_true, decide_true, Bool.or_true,
      recordBytes_cons, recordBytes_nil]
    exact ⟨_, rfl⟩

private theorem header_bytes (r : Record) (p : Port) : r.bytes p =
    r.flags :: r.select :: UInt8.ofNat r.writes.length :: UInt8.ofNat r.reads.length ::
      (r.pad ++ encodeAll p.alignment r.words) := rfl

private theorem exists_four {l : Bytes} (h : 4 ≤ l.length) :
    ∃ b₀ b₁ b₂ b₃ tail, l = b₀ :: b₁ :: b₂ :: b₃ :: tail := by
  obtain ⟨b₀, l, rfl⟩ := List.exists_cons_of_length_pos (Nat.lt_of_lt_of_le (by omega) h)
  obtain ⟨b₁, l, rfl⟩ := List.exists_cons_of_length_pos (show 0 < l.length by simp at h; omega)
  obtain ⟨b₂, l, rfl⟩ := List.exists_cons_of_length_pos (show 0 < l.length by simp at h; omega)
  obtain ⟨b₃, l, rfl⟩ := List.exists_cons_of_length_pos (show 0 < l.length by simp at h; omega)
  exact ⟨b₀, b₁, b₂, b₃, l, rfl⟩

private theorem count_byte {n : ℕ} (h : n ≤ 255) : (UInt8.ofNat n).toNat = n := by
  rw [UInt8.toNat_ofNat']
  omega

theorem Record.drop_header {r : Record} (h : r.WellFormed p) (rest : Bytes) :
    (r.bytes p ++ rest).drop p.recordAlignment = encodeAll p.alignment r.words ++ rest := by
  rw [Record.bytes, List.append_assoc, List.drop_left' (Record.length_header h)]

/-- One complete record at the read pointer. -/
theorem slaveLoop_record {r : Record} (h : r.WellFormed p) (s : Session σ) (w : Bytes) (gap : ℕ)
    (rest : Bytes) (c : Bool) (sent : List Bytes) (fuel : ℕ) :
    ∃ gap', slaveLoop g p (fuel + 1) (s.slave ⟨w, gap, r.bytes p ++ rest, c⟩ sent) =
      slaveLoop g p fuel
        ((s.step g p r).1.slave ⟨w ++ recordBytes p (s.step g p r).2, gap', rest, c⟩ sent) := by
  obtain ⟨gap', hbody⟩ := slaveBody_eq (g := g) s r w (gap + p.recordAlignment) rest c sent h.words_lt
    (Nat.le_add_left _ _)
  refine ⟨gap', ?_⟩
  have hlen : ¬ (r.bytes p ++ rest).length < p.recordAlignment := by
    have := Record.length_bytes h
    rw [List.length_append, this, Record.length]
    omega
  have htotal : ¬ (encodeAll p.alignment r.words ++ rest).length <
      (r.writes.length + r.reads.length + (if 0 < r.writes.length then 1 else 0) +
        (if 0 < r.reads.length then 1 else 0)) * p.alignment := by
    rw [List.length_append, length_encodeAll, Record.length_words]
    omega
  rw [slaveLoop]
  simp only [Session.slave, hlen, if_false, Buffer.skip, Record.drop_header h]
  simp only [header_bytes, List.cons_append, List.getD_cons_zero, List.getD_cons_succ,
    count_byte h.writes_le, count_byte h.reads_le, htotal, if_false]
  exact congrArg (slaveLoop g p fuel) hbody

theorem slaveLoop_records {rs : List Record} (h : ∀ r ∈ rs, r.WellFormed p) (s : Session σ)
    (w : Bytes) (gap : ℕ) (rest : Bytes) (c : Bool) (sent : List Bytes) (fuel : ℕ) :
    ∃ gap', slaveLoop g p (fuel + rs.length) (s.slave ⟨w, gap, recordBytes p rs ++ rest, c⟩ sent) =
      slaveLoop g p fuel
        ((s.run g p rs).1.slave ⟨w ++ recordBytes p (s.run g p rs).2, gap', rest, c⟩ sent) := by
  induction rs generalizing s w gap with
  | nil => exact ⟨gap, by simp [recordBytes]⟩
  | cons r rs ih =>
    obtain ⟨hr, hrs⟩ := List.forall_mem_cons.mp h
    obtain ⟨gap₁, h₁⟩ := slaveLoop_record (g := g) hr s w gap (recordBytes p rs ++ rest) c sent
      (fuel + rs.length)
    obtain ⟨gap₂, h₂⟩ := ih hrs (s.step g p r).1 (w ++ recordBytes p (s.step g p r).2) gap₁
    refine ⟨gap₂, ?_⟩
    rw [recordBytes_cons, List.append_assoc, List.length_cons, ← Nat.add_assoc, h₁, h₂,
      Session.run_cons, recordBytes_append, List.append_assoc]

/-- With less than a header left, the loop ends. -/
theorem slaveLoop_drained (s : Slave σ) (h : s.buf.unread.length < p.recordAlignment) (fuel : ℕ) :
    slaveLoop g p fuel s = (s, .drained) := by
  cases fuel with
  | zero => rfl
  | succ fuel => rw [slaveLoop, if_pos h]

/-- With a header but not all words of its record, the record is kept. -/
theorem slaveLoop_incomplete {r : Record} (h : r.WellFormed p) (s : Session σ) (buf : Buffer)
    (sent : List Bytes) {more : Bytes} (hbytes : buf.unread ++ more = r.bytes p) (hmore : more ≠ [])
    (hlen : p.recordAlignment ≤ buf.unread.length) (fuel : ℕ) :
    slaveLoop g p (fuel + 1) (s.slave buf sent) =
      (({ s with cycleEnd := r.cyc } : Session σ).slave buf sent, .incomplete) := by
  obtain ⟨w, gap, unread, c⟩ := buf
  dsimp only at hbytes hlen
  have hpos := List.length_pos_iff.mpr hmore
  have hsum := congrArg List.length hbytes
  rw [List.length_append, Record.length_bytes h, Record.length, Record.length_words] at hsum
  have hra : 4 ≤ p.recordAlignment := by rcases p.recordAlignment_mem with h | h <;> omega
  obtain ⟨b₀, b₁, b₂, b₃, tail, rfl⟩ := exists_four (Nat.le_trans hra hlen)
  rw [header_bytes] at hbytes
  simp only [List.cons_append, List.cons.injEq] at hbytes
  obtain ⟨rfl, rfl, rfl, rfl, -⟩ := hbytes
  rw [slaveLoop]
  simp only [Session.slave, Nat.not_lt.mpr hlen, if_false, Buffer.skip, List.getD_cons_zero,
    List.getD_cons_succ, count_byte h.writes_le, count_byte h.reads_le, List.length_drop]
  rw [if_pos (by omega)]
  rfl

end Loops

end WhiteRabbit.Etherbone
