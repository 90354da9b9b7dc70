import WhiteRabbit.MessageDecoder
import WhiteRabbit.StreamFragmentation

/-!
# The cycles of a reply

The reply to a message of cycles, parsed again into records. A cycle with reads should be answered by one
cycle of writes, a cycle without reads by nothing. The flag of an open cycle is not cleared when a
terminator is written, so a cycle without reads that follows can be answered by a terminator of its own.
-/

namespace WhiteRabbit.Etherbone
open BigEndian

section Parser

/-- The words of `n` bytes at the front of some bytes. -/
def decodeWords (n : ℕ) : ℕ → Bytes → List ℕ
  | 0, _ => []
  | count + 1, bytes => decode (bytes.take n) :: decodeWords n count (bytes.drop n)

/-- An address and the words that follow it, or nothing. -/
def parseHalf (n count : ℕ) (bytes : Bytes) : ℕ × List ℕ :=
  if count = 0 then (0, []) else (decode (bytes.take n), decodeWords n count (bytes.drop n))

def halfLength (n count : ℕ) : ℕ := if count = 0 then 0 else (count + 1) * n

/-- The record at the front of some bytes, and the bytes behind it. -/
def parseRecord (p : Port) (bytes : Bytes) : Option (Record × Bytes) :=
  let wcount := (bytes.getD 2 0).toNat
  let rcount := (bytes.getD 3 0).toNat
  let payload := bytes.drop p.recordAlignment
  let behind := payload.drop (halfLength p.alignment wcount)
  let writes := parseHalf p.alignment wcount payload
  let reads := parseHalf p.alignment rcount behind
  if bytes.length < p.recordAlignment + halfLength p.alignment wcount + halfLength p.alignment rcount then none
  else
    some
      ({ flags := bytes.getD 0 0
         select := bytes.getD 1 0
         pad := (bytes.take p.recordAlignment).drop 4
         base := writes.1
         writes := writes.2
         ret := reads.1
         reads := reads.2 },
        behind.drop (halfLength p.alignment rcount))

/-- The records that some bytes are made of. -/
def parseRecords (p : Port) : ℕ → Bytes → Option (List Record)
  | 0, bytes => if bytes = [] then some [] else none
  | fuel + 1, bytes =>
    if bytes = [] then some []
    else (parseRecord p bytes).bind fun r => (parseRecords p fuel r.2).map fun rs => r.1 :: rs

/-- Addresses without words are zero. -/
structure Record.Plain (r : Record) : Prop where
  base : r.writes = [] → r.base = 0
  ret : r.reads = [] → r.ret = 0

variable {p : Port} {r : Record}

theorem decodeWords_encodeAll {n : ℕ} {words : List ℕ} (h : ∀ v ∈ words, v < 256 ^ n) (rest : Bytes) :
    decodeWords n words.length (encodeAll n words ++ rest) = words := by
  induction words with
  | nil => rfl
  | cons v words ih =>
    obtain ⟨hv, hwords⟩ := List.forall_mem_cons.mp h
    rw [List.length_cons, decodeWords, encodeAll_cons, List.append_assoc, List.take_left' (length_encode n v),
      List.drop_left' (length_encode n v), decode_encode_of_lt hv, ih hwords]

/-- Half of a record is parsed as it was written. -/
theorem parseHalf_encodeAll {n base : ℕ} {words : List ℕ} (hbase : words = [] → base = 0)
    (h : ∀ v ∈ (if words = [] then [] else base :: words), v < 256 ^ n) (rest : Bytes) :
    parseHalf n words.length (encodeAll n (if words = [] then [] else base :: words) ++ rest) = (base, words) ∧
      (encodeAll n (if words = [] then [] else base :: words) ++ rest).drop (halfLength n words.length) = rest := by
  cases words with
  | nil => exact ⟨by rw [hbase rfl]; rfl, rfl⟩
  | cons v words =>
    rw [if_neg (List.cons_ne_nil v words)] at h ⊢
    obtain ⟨hbase, hwords⟩ := List.forall_mem_cons.mp h
    have hlength : (encodeAll n (base :: v :: words)).length = ((v :: words).length + 1) * n := by
      rw [length_encodeAll, List.length_cons]
    constructor
    · rw [parseHalf, if_neg (by simp), encodeAll_cons, List.append_assoc, List.take_left' (length_encode n base),
        List.drop_left' (length_encode n base), decode_encode_of_lt hbase, decodeWords_encodeAll hwords]
    · rw [halfLength, if_neg (by simp), List.drop_left' hlength]

theorem parseRecord_bytes (h : r.WellFormed p) (hplain : r.Plain) (rest : Bytes) :
    parseRecord p (r.bytes p ++ rest) = some (r, rest) := by
  have hw : ∀ v ∈ r.writeWords, v < 256 ^ p.alignment := fun v hv => h.words_lt v (List.mem_append_left _ hv)
  have hr : ∀ v ∈ r.readWords, v < 256 ^ p.alignment := fun v hv => h.words_lt v (List.mem_append_right _ hv)
  have hheader : (r.bytes p ++ rest).take p.recordAlignment = r.header := by
    rw [Record.bytes, List.append_assoc, List.take_left' (Record.length_header h)]
  have hwcount : (UInt8.ofNat r.writes.length).toNat = r.writes.length := by
    rw [UInt8.toNat_ofNat']
    exact Nat.mod_eq_of_lt (Nat.lt_succ_of_le h.writes_le)
  have hrcount : (UInt8.ofNat r.reads.length).toNat = r.reads.length := by
    rw [UInt8.toNat_ofNat']
    exact Nat.mod_eq_of_lt (Nat.lt_succ_of_le h.reads_le)
  have hbytes : (r.bytes p ++ rest).getD 0 0 = r.flags ∧ (r.bytes p ++ rest).getD 1 0 = r.select ∧
      ((r.bytes p ++ rest).getD 2 0).toNat = r.writes.length ∧
      ((r.bytes p ++ rest).getD 3 0).toNat = r.reads.length := by
    simp [Record.bytes, Record.header, hwcount, hrcount]
  obtain ⟨hflags, hselect, hwlength, hrlength⟩ := hbytes
  obtain ⟨hwrites, hbehind⟩ := parseHalf_encodeAll hplain.base hw (encodeAll p.alignment r.readWords ++ rest)
  obtain ⟨hreads, hrest⟩ := parseHalf_encodeAll hplain.ret hr rest
  have hlength : (r.bytes p ++ rest).length =
      p.recordAlignment + halfLength p.alignment r.writes.length + halfLength p.alignment r.reads.length + rest.length := by
    have hhalf : ∀ n, halfLength p.alignment n = (n + if 0 < n then 1 else 0) * p.alignment := by
      intro n
      rw [halfLength]
      cases n with
      | zero => simp
      | succ n => simp
    rw [List.length_append, Record.length_bytes h, Record.length, Record.length_words, hhalf, hhalf]
    ring
  rw [parseRecord]
  rw [hflags, hselect, hwlength, hrlength, Record.drop_header h, hheader, Record.words, encodeAll_append, List.append_assoc,
    Record.writeWords, hwrites, hbehind, Record.readWords, hreads, hrest, if_neg (by omega)]
  rfl

/-- Records are found again in their bytes. -/
theorem parseRecords_bytes {rs : List Record} (h : ∀ r ∈ rs, r.WellFormed p ∧ r.Plain) {fuel : ℕ}
    (hfuel : rs.length ≤ fuel) :
    parseRecords p fuel (recordBytes p rs) = some rs := by
  induction rs generalizing fuel with
  | nil =>
    cases fuel with
    | _ => rfl
  | cons r rs ih =>
    obtain ⟨⟨hwf, hplain⟩, hrs⟩ := List.forall_mem_cons.mp h
    cases fuel with
    | zero => exact absurd hfuel (Nat.not_succ_le_zero _)
    | succ fuel =>
      have hne : recordBytes p (r :: rs) ≠ [] := by simp [recordBytes, Record.bytes, Record.header]
      rw [parseRecords, if_neg hne, recordBytes_cons, parseRecord_bytes hwf hplain, Option.bind_some,
        ih hrs (Nat.le_of_succ_le_succ hfuel)]
      rfl

end Parser

section Replies

variable {σ : Type} {g : Glue σ} {p : Port} {rs : List Record}

/-- A write record that answers a record with reads. -/
structure Record.Replies (reply request : Record) : Prop where
  count : reply.writes.length = request.reads.length
  select : reply.select = request.select
  base : reply.base = request.ret

/-- The words of a reply fit, also the ones that are not on valid lanes. -/
theorem replyWord_lt (r : Record) (bus : Bus σ) :
    ∀ value ∈ (performAll g bus (r.readList p)).2, replyWord p r.select value < 256 ^ p.alignment := by
  have hzero : ∀ (words : List ℕ) (bus : Bus σ), (decodeSelect p.data r.select).ok = false →
      ∀ value ∈ (performAll g bus (words.map (readAccess p r.select r.rconfig))).2, value = 0 := by
    intro words bus hbad
    induction words generalizing bus with
    | nil => simp
    | cons word words ih =>
      intro value hvalue
      rw [List.map_cons, performAll_cons, List.mem_cons] at hvalue
      rcases hvalue with rfl | hvalue
      · rw [readAccess, hbad]
        cases r.rconfig with
        | _ => rfl
      · exact ih _ value hvalue
  intro value hvalue
  cases hok : (decodeSelect p.data r.select).ok with
  | false =>
    rw [hzero r.reads bus hok value hvalue, replyWord]
    simp
  | true =>
    rw [replyWord]
    apply Nat.lt_of_le_of_lt (Nat.mod_le _ _)
    exact (laneWord_lt hok value).trans_le (Nat.pow_le_pow_right (by decide) p.data_le_alignment)

/-- What the reply to a record with reads looks like. -/
structure ReadAnswer (p : Port) (request reply : Record) : Prop extends reply.Replies request where
  cyc : reply.cyc = request.cyc
  writes : reply.writes ≠ []
  reads : reply.reads = []
  wellFormed : reply.WellFormed p
  plain : reply.Plain

theorem readAnswer_replyRecord {r : Record} (h : r.WellFormed p) (hreads : r.reads ≠ []) (bus : Bus σ) :
    ReadAnswer p r (replyRecord p r (performAll g bus (r.readList p)).2) := by
  have hlength : (performAll g bus (r.readList p)).2.length = r.reads.length := by simp [Record.readList]
  have hne : (performAll g bus (r.readList p)).2 ≠ [] := by
    rw [← List.length_pos_iff, hlength]
    exact List.length_pos_iff.mpr hreads
  have hflag : ∀ cyc bca rff : Bool, ((cycleFlag cyc ||| (if bca then ebRecordWCA else 0) |||
      (if rff then ebRecordWFF else 0)) &&& ebRecordCYC != 0) = cyc := by decide
  have hwrites : (replyRecord p r (performAll g bus (r.readList p)).2).writes ≠ [] := by simpa [replyRecord] using hne
  refine ⟨⟨by simp [replyRecord, hlength], rfl, rfl⟩, hflag r.cyc r.bconfig r.rfifo, hwrites, rfl, ?_,
    fun hnil => absurd hnil hwrites, fun _ => rfl⟩
  refine ⟨?_, by simp [replyRecord, hlength, h.reads_le], Nat.zero_le _, ?_⟩
  · have := p.recordAlignment_mem
    simp only [replyRecord, List.length_replicate]
    omega
  · intro w hw
    simp only [Record.words, Record.writeWords, Record.readWords, if_neg hwrites] at hw
    simp only [replyRecord, if_true, List.append_nil, List.mem_cons, List.mem_map] at hw
    rcases hw with rfl | ⟨value, hvalue, rfl⟩
    · exact h.words_lt _ (List.mem_append_right _ (by rw [Record.readWords, if_neg hreads]; exact List.mem_cons_self))
    · exact replyWord_lt r bus value hvalue

theorem terminator_wellFormed (p : Port) : (terminator p).WellFormed p ∧ (terminator p).Plain := by
  have := p.recordAlignment_mem
  refine ⟨⟨?_, Nat.zero_le _, Nat.zero_le _, fun w hw => absurd hw List.not_mem_nil⟩, fun _ => rfl, fun _ => rfl⟩
  simp only [terminator, List.length_replicate]
  omega

theorem terminator_cyc (p : Port) : (terminator p).cyc = true := by
  change (ebRecordCYC &&& ebRecordCYC != 0) = true
  decide

/-- The reply to a record: an answer to its reads, and a terminator if the cycle is still open. -/
theorem step_reply (s : Session σ) {r : Record} (h : r.WellFormed p) :
    ∃ answers, (s.step g p r).2 = answers ++ (if (s.step g p r).1.cycleOpen && r.cyc then [terminator p] else []) ∧
      List.Forall₂ (ReadAnswer p) ([r].filter fun r => r.reads ≠ []) answers := by
  by_cases hreads : r.reads = []
  · refine ⟨[], ?_, ?_⟩
    · simp [Session.step, hreads]
    · simp [hreads]
  · refine ⟨[replyRecord p r (performAll g (performAll g s.bus (r.writeList p)).1 (r.readList p)).2], ?_, ?_⟩
    · simp [Session.step, hreads]
    · simpa [hreads] using readAnswer_replyRecord h hreads _

/-- Inside a cycle only answers are written. -/
theorem run_open (s : Session σ) (h : ∀ r ∈ rs, r.WellFormed p) (hopen : ∀ r ∈ rs, r.cyc = false) :
    List.Forall₂ (ReadAnswer p) (rs.filter fun r => r.reads ≠ []) (s.run g p rs).2 := by
  induction rs generalizing s with
  | nil => exact .nil
  | cons r rs ih =>
    obtain ⟨hr, hrs⟩ := List.forall_mem_cons.mp h
    obtain ⟨hcyc, hopens⟩ := List.forall_mem_cons.mp hopen
    obtain ⟨answers, hstep, hanswers⟩ := step_reply (g := g) s hr
    rw [hcyc, Bool.and_false, if_neg Bool.false_ne_true, List.append_nil] at hstep
    rw [Session.run_cons, hstep, ← List.singleton_append, List.filter_append]
    exact List.rel_append hanswers (ih _ hrs hopens)

end Replies

section Cycles

variable {σ : Type} {g : Glue σ} {p : Port} {cycles : List (WireCycle p)}

/-- The records are one cycle of writes, which answers the reads of a cycle record by record. -/
structure ReplyCycle (c : WireCycle p) (group : List Record) : Prop where
  body : ∀ r ∈ group.dropLast, r.cyc = false
  last : ∃ r ∈ group.getLast?, r.cyc = true
  writes : List.Forall₂ (fun request reply : Record => reply.Replies request) (c.records.filter fun r => r.reads ≠ [])
    (group.filter fun r => r.writes ≠ [])
  reads : ∀ r ∈ group, r.reads = []

/-- The reply is one cycle for each cycle with reads. -/
def Framed (cycles : List (WireCycle p)) (reply : Bytes) : Prop :=
  ∃ groups : List (List Record), parseRecords p reply.length reply = some groups.flatten ∧
    List.Forall₂ ReplyCycle (cycles.filter fun c => c.HasReads) groups

/-- Before a cycle without reads, the last record with reads ends its cycle. -/
def ReadsEnded (cycles : List (WireCycle p)) : Prop :=
  ∀ done c rest, cycles = done ++ c :: rest → ¬ c.HasReads → ∀ r ∈ lastReader (streamRecords done), r.cyc = true

/-- How many terminators of earlier cycles are written again. -/
def stale : Bool → List (WireCycle p) → ℕ
  | _, [] => 0
  | o, c :: cs => (if o = true ∧ ¬ c.HasReads then 1 else 0) + stale (openAfter o c.records) cs

theorem openAfter_open {rs : List Record} (hreads : ∃ r ∈ rs, r.reads ≠ [])
    (hopen : ∀ r ∈ rs, r.cyc = false) (o : Bool) :
    openAfter o rs = true := by
  induction rs generalizing o with
  | nil => simp at hreads
  | cons r rs ih =>
    obtain ⟨hr, hrs⟩ := List.forall_mem_cons.mp hopen
    rw [openAfter_cons]
    by_cases hlater : ∃ r ∈ rs, r.reads ≠ []
    · exact ih hlater hrs _
    · have hnone : ∀ r ∈ rs, r.reads = [] := by simpa using hlater
      obtain ⟨first, hmem, hne⟩ := hreads
      rcases List.mem_cons.mp hmem with rfl | hmem
      · rw [openAfter_noReads hnone, if_neg hne, hr]
        rfl
      · exact absurd (hnone first hmem) hne

theorem WireCycle.noReads {c : WireCycle p} (h : ¬ c.HasReads) : ∀ r ∈ c.records, r.reads = [] := by
  simpa [WireCycle.HasReads] using h

/-- A cycle without reads is answered by a terminator while the flag is set. -/
theorem run_noReads (s : Session σ) {c : WireCycle p} (h : ¬ c.HasReads) :
    (s.run g p c.records).2 = if s.cycleOpen then [terminator p] else [] := by
  have hnone := WireCycle.noReads h
  have hbody : ∀ r ∈ c.body, r.reads = [] := fun r hr => hnone r (List.mem_append_left _ hr)
  have hlast : c.last.reads = [] := hnone _ (List.mem_append_right _ (List.mem_singleton_self _))
  have hwf : ∀ r ∈ c.body, r.WellFormed p := fun r hr => c.wellFormed r (List.mem_append_left _ hr)
  have hquiet : (s.run g p c.body).2 = [] := by
    have hanswers := run_open (g := g) s hwf c.body_open
    rw [List.filter_eq_nil_iff.mpr (by simpa using hbody)] at hanswers
    exact List.forall₂_nil_left_iff.mp hanswers
  have hopen : (s.run g p c.body).1.cycleOpen = s.cycleOpen := by rw [Session.run_cycleOpen, openAfter_noReads hbody]
  rw [WireCycle.records, Session.run_append, hquiet, Session.run_cons]
  simp [Session.step, hlast, hopen, c.last_cyc]

/-- Every answer has its record. -/
theorem answers_mem {requests answers : List Record} (h : List.Forall₂ (ReadAnswer p) requests answers) :
    ∀ reply ∈ answers, ∃ request ∈ requests, ReadAnswer p request reply := by
  induction h with
  | nil => simp
  | cons hanswer _ ih =>
    intro reply hreply
    rcases List.mem_cons.mp hreply with rfl | hreply
    · exact ⟨_, List.mem_cons_self, hanswer⟩
    · obtain ⟨request, hmem, hrequest⟩ := ih reply hreply
      exact ⟨request, List.mem_cons_of_mem _ hmem, hrequest⟩

theorem answers_writes {requests answers : List Record} (h : List.Forall₂ (ReadAnswer p) requests answers) :
    (answers.filter fun r => r.writes ≠ []) = answers := by
  apply List.filter_eq_self.mpr
  intro reply hreply
  obtain ⟨request, -, hanswer⟩ := answers_mem h reply hreply
  exact decide_eq_true hanswer.writes

/-- Answers inside a cycle, and one record that ends it. -/
theorem replyCycle_of {c : WireCycle p} {answers : List Record} {ends : List Record} {final : Record}
    (hanswers : List.Forall₂ (ReadAnswer p) (c.body.filter fun r => r.reads ≠ []) answers)
    (hends : List.Forall₂ (ReadAnswer p) ([c.last].filter fun r => r.reads ≠ []) ends)
    (hwrites : ([final].filter fun r => r.writes ≠ []) = ends) (hcyc : final.cyc = true)
    (hreads : final.reads = []) :
    ReplyCycle c (answers ++ [final]) where
  body r hr := by
    rw [List.dropLast_concat] at hr
    obtain ⟨request, hmem, hanswer⟩ := answers_mem hanswers r hr
    rw [hanswer.cyc]
    exact c.body_open request (List.mem_of_mem_filter hmem)
  last := ⟨final, by simp, hcyc⟩
  writes := by
    have hall : List.Forall₂ (ReadAnswer p) (c.records.filter fun r => r.reads ≠ []) (answers ++ ends) := by
      rw [WireCycle.records, List.filter_append]
      exact List.rel_append hanswers hends
    rw [List.filter_append, answers_writes hanswers, hwrites]
    exact hall.imp fun request reply hanswer => hanswer.toReplies
  reads r hr := by
    rcases List.mem_append.mp hr with hr | hr
    · obtain ⟨request, -, hanswer⟩ := answers_mem hanswers r hr
      exact hanswer.reads
    · rw [List.mem_singleton.mp hr]
      exact hreads

/-- A cycle with reads is answered by a cycle, whatever the flag is. -/
theorem run_replyCycle (s : Session σ) {c : WireCycle p} (h : c.HasReads) :
    ReplyCycle c (s.run g p c.records).2 := by
  have hanswers := run_open (g := g) s (fun r hr => c.wellFormed r (List.mem_append_left _ hr)) c.body_open
  obtain ⟨ends, hstep, hends⟩ := step_reply (g := g) (s.run g p c.body).1
    (c.wellFormed c.last (List.mem_append_right _ (List.mem_singleton_self _)))
  have hrun : (s.run g p c.records).2 = (s.run g p c.body).2 ++ ((s.run g p c.body).1.step g p c.last).2 := by
    rw [WireCycle.records, Session.run_append, Session.run_cons, Session.run_nil, List.append_nil]
  by_cases hlast : c.last.reads = []
  · have hbody : ∃ r ∈ c.body, r.reads ≠ [] := by
      obtain ⟨r, hr, hne⟩ := h
      rcases List.mem_append.mp hr with hr | hr
      · exact ⟨r, hr, hne⟩
      · rw [List.mem_singleton.mp hr] at hne
        exact absurd hlast hne
    have hopen : ((s.run g p c.body).1.step g p c.last).1.cycleOpen = true := by
      have hbefore : (s.run g p c.body).1.cycleOpen = true := by
        rw [Session.run_cycleOpen, openAfter_open hbody c.body_open]
      simp [Session.step, hlast, hbefore]
    have hnil : ends = [] := by
      rw [List.filter_cons_of_neg (by simp [hlast])] at hends
      exact List.forall₂_nil_left_iff.mp hends
    subst hnil
    rw [hrun, hstep, hopen, c.last_cyc]
    exact replyCycle_of hanswers hends rfl (terminator_cyc p) rfl
  · have hopen : ((s.run g p c.body).1.step g p c.last).1.cycleOpen = false := by
      simp [Session.step, hlast, c.last_cyc]
    rw [hopen, Bool.false_and, if_neg Bool.false_ne_true, List.append_nil] at hstep
    obtain ⟨final, rfl⟩ : ∃ final, ends = [final] := by
      rw [List.filter_cons_of_pos (by simpa using hlast)] at hends
      obtain ⟨final, rest, -, hrest, rfl⟩ := List.forall₂_cons_left_iff.mp hends
      exact ⟨final, by rw [List.forall₂_nil_left_iff.mp hrest]⟩
    obtain ⟨request, hmem, hanswer⟩ := answers_mem hends final (List.mem_singleton_self _)
    rw [List.mem_singleton.mp (List.mem_of_mem_filter hmem)] at hanswer
    rw [hrun, hstep]
    exact replyCycle_of hanswers hends (answers_writes hends) (hanswer.cyc.trans c.last_cyc) hanswer.reads

theorem ReplyCycle.countP_cyc {c : WireCycle p} {group : List Record} (h : ReplyCycle c group) :
    group.countP Record.cyc = 1 := by
  obtain ⟨final, hfinal, hcyc⟩ := h.last
  have hsplit := List.dropLast_append_getLast? final hfinal
  have hbody : group.dropLast.countP Record.cyc = 0 := by
    apply List.countP_eq_zero.mpr
    intro r hr
    rw [h.body r hr]
    exact Bool.false_ne_true
  rw [← hsplit, List.countP_append, hbody, List.countP_singleton, if_pos hcyc]

theorem countP_groups {groups : List (List Record)} {readers : List (WireCycle p)}
    (h : List.Forall₂ ReplyCycle readers groups) :
    groups.flatten.countP Record.cyc = readers.length := by
  induction h with
  | nil => rfl
  | cons hc _ ih =>
    rw [List.flatten_cons, List.countP_append, hc.countP_cyc, ih, List.length_cons, Nat.add_comm]

/-- Every cycle with reads ends once in the reply, and a stale flag ends more. -/
theorem countP_run (s : Session σ) (cycles : List (WireCycle p)) :
    (s.run g p (streamRecords cycles)).2.countP Record.cyc =
      (cycles.filter fun c => c.HasReads).length + stale s.cycleOpen cycles := by
  induction cycles generalizing s with
  | nil => rfl
  | cons c cycles ih =>
    rw [streamRecords_cons, Session.run_append, List.countP_append, ih, Session.run_cycleOpen, stale]
    by_cases hreads : c.HasReads
    · rw [(run_replyCycle s hreads).countP_cyc, List.filter_cons_of_pos (by simpa using hreads), List.length_cons]
      simp only [hreads, not_true_eq_false, and_false, if_false]
      omega
    · rw [run_noReads s hreads, List.filter_cons_of_neg (by simpa using hreads)]
      cases ho : s.cycleOpen with
      | false => simp
      | true =>
        have hterm : [terminator p].countP Record.cyc = 1 := by
          rw [List.countP_singleton, if_pos (terminator_cyc p)]
        simp only [if_true, hterm, hreads, not_false_eq_true, and_self]
        omega

/-- Without stale flags the reply consists of the answers. -/
theorem run_groups (s : Session σ) {cycles : List (WireCycle p)} (h : stale s.cycleOpen cycles = 0) :
    ∃ groups : List (List Record), (s.run g p (streamRecords cycles)).2 = groups.flatten ∧
      List.Forall₂ ReplyCycle (cycles.filter fun c => c.HasReads) groups := by
  induction cycles generalizing s with
  | nil => exact ⟨[], rfl, .nil⟩
  | cons c cycles ih =>
    rw [stale, ← Session.run_cycleOpen (g := g) s c.records, Nat.add_eq_zero_iff] at h
    obtain ⟨groups, hflat, hgroups⟩ := ih (s.run g p c.records).1 h.2
    rw [streamRecords_cons, Session.run_append, hflat]
    by_cases hreads : c.HasReads
    · refine ⟨(s.run g p c.records).2 :: groups, rfl, ?_⟩
      rw [List.filter_cons_of_pos (by simpa using hreads)]
      exact .cons (run_replyCycle s hreads) hgroups
    · refine ⟨groups, ?_, by rwa [List.filter_cons_of_neg (by simpa using hreads)]⟩
      have hclosed : ¬ s.cycleOpen = true := by
        intro ho
        have hone := h.1
        rw [if_pos ⟨ho, hreads⟩] at hone
        exact absurd hone one_ne_zero
      rw [run_noReads s hreads, if_neg hclosed, List.nil_append]

theorem stale_eq_zero {o : Bool} {cycles : List (WireCycle p)} :
    stale o cycles = 0 ↔ ∀ done c rest, cycles = done ++ c :: rest → ¬ c.HasReads →
      openAfter o (streamRecords done) = false := by
  induction cycles generalizing o with
  | nil => simp [stale]
  | cons c cycles ih =>
    rw [stale, Nat.add_eq_zero_iff, ih]
    constructor
    · rintro ⟨hc, hcs⟩ done c' rest he hreads
      cases done with
      | nil =>
        cases he
        cases o with
        | false => rfl
        | true => simp [hreads] at hc
      | cons d done =>
        cases he
        rw [streamRecords_cons, openAfter_append]
        exact hcs done c' rest rfl hreads
    · intro h
      constructor
      · rw [if_neg]
        rintro ⟨rfl, hreads⟩
        exact absurd (h [] c cycles rfl hreads) (by simp)
      · intro done c' rest he hreads
        have hlater := h (c :: done) c' rest (by rw [he, List.cons_append]) hreads
        rwa [streamRecords_cons, openAfter_append] at hlater

theorem readsEnded_iff : ReadsEnded cycles ↔ stale false cycles = 0 := by
  rw [stale_eq_zero, ReadsEnded]
  apply forall₄_congr
  intro done c rest he
  apply forall_congr'
  intro hreads
  rw [← Bool.not_eq_true, openAfter_eq]
  simp

theorem run_wellFormed (s : Session σ) {rs : List Record} (h : ∀ r ∈ rs, r.WellFormed p) :
    ∀ reply ∈ (s.run g p rs).2, reply.WellFormed p ∧ reply.Plain := by
  induction rs generalizing s with
  | nil => exact fun reply hreply => absurd hreply List.not_mem_nil
  | cons r rs ih =>
    obtain ⟨hr, hrs⟩ := List.forall_mem_cons.mp h
    obtain ⟨answers, hstep, hanswers⟩ := step_reply (g := g) s hr
    intro reply hreply
    rw [Session.run_cons, List.mem_append, hstep, List.mem_append] at hreply
    rcases hreply with (hreply | hreply) | hreply
    · obtain ⟨request, -, hanswer⟩ := answers_mem hanswers reply hreply
      exact ⟨hanswer.wellFormed, hanswer.plain⟩
    · split at hreply
      · rw [List.mem_singleton.mp hreply]
        exact terminator_wellFormed p
      · exact absurd hreply List.not_mem_nil
    · exact ih _ hrs reply hreply

/-- The reply is framed exactly when no flag is stale. -/
theorem framed_run_iff (s : Session σ) (hclosed : s.cycleOpen = false) (cycles : List (WireCycle p)) :
    Framed cycles (recordBytes p (s.run g p (streamRecords cycles)).2) ↔ ReadsEnded cycles := by
  have hwf := run_wellFormed (g := g) s (wellFormed_streamRecords cycles)
  have hparse := parseRecords_bytes hwf (length_records fun r hr => (hwf r hr).1)
  rw [readsEnded_iff, Framed, hparse]
  constructor
  · rintro ⟨groups, hflat, hgroups⟩
    have hcount := countP_run (g := g) s cycles
    rw [Option.some.inj hflat, countP_groups hgroups, hclosed] at hcount
    omega
  · intro hstale
    obtain ⟨groups, hflat, hgroups⟩ := run_groups (g := g) s (hclosed ▸ hstale)
    exact ⟨groups, congrArg some hflat, hgroups⟩

/-- What is sent for a chunk of cycles on a stream. -/
theorem framed_stream_iff (g : Glue σ) (sock : σ) (cycles : List (WireCycle p)) :
    Framed cycles (deliver g p (Link.fresh sock) (streamBytes cycles)).slave.sent.flatten ↔ ReadsEnded cycles := by
  have hsent := (whole_run (g := g) sock cycles).2
  rw [deliverAll, List.foldl_cons, List.foldl_nil] at hsent
  rw [hsent]
  exact framed_run_iff (Session.fresh sock) rfl cycles

/-- What is sent for a message of cycles, behind the header. -/
theorem framed_message_iff (g : Glue σ) (bus : Bus σ) (cycles : List (WireCycle p))
    {socketWidths : ℕ} (noReads : Bool)
    (hwidths : p.widths &&& socketWidths = p.widths)
    (hsize : (messageHeader p noReads ++ streamBytes cycles).length ≤ p.bufferSize) :
    Framed cycles ((receiveMessage g p.word socketWidths bus (messageHeader p noReads ++ streamBytes cycles)).sent.flatMap
      (List.drop p.headerAlignment)) ↔ ReadsEnded cycles := by
  have hend : ((Session.opened bus).run g p (streamRecords cycles)).1.cycleEnd = true := by
    rw [Session.run_cycleEnd]
    exact endsCycle_stream cycles
  have hok : (Session.opened bus).Ok := fun _ => rfl
  rw [streamBytes, receiveMessage_eq hwidths bus noReads hsize,
    processMessage_eq bus rfl (length_messageHeader p noReads) (wellFormed_streamRecords cycles) hend,
    ← framed_run_iff (g := g) (Session.opened bus) rfl cycles]
  dsimp only
  cases hreply : ((Session.opened bus).run g p (streamRecords cycles)).1.reply with
  | false =>
    rw [((Session.run_ok g p hok (streamRecords cycles)).2 hreply).2]
    rfl
  | true =>
    have hheader : ∀ bytes : Bytes, p.headerAlignment ≤ bytes.length →
      (bytes.take p.headerAlignment).length = p.headerAlignment :=
      fun bytes hle => by rw [List.length_take, Nat.min_eq_left hle]
    rw [if_pos rfl, List.flatMap_cons, List.flatMap_nil, List.append_nil, List.drop_left' (hheader _ ?_)]
    rw [List.length_set, List.length_append, length_messageHeader]
    exact Nat.le_add_right _ _

/-- The reply to a message of cycles consists of one cycle for each cycle with reads exactly when the last
record with reads before a cycle without reads always ends its cycle. -/
theorem replies_framed_iff (g : Glue σ) (sock : σ) (bus : Bus σ) (cycles : List (WireCycle p)) {socketWidths : ℕ}
    (noReads : Bool) (hwidths : p.widths &&& socketWidths = p.widths)
    (hsize : (messageHeader p noReads ++ streamBytes cycles).length ≤ p.bufferSize) :
    (Framed cycles (deliver g p (Link.fresh sock) (streamBytes cycles)).slave.sent.flatten ↔ ReadsEnded cycles) ∧
    (Framed cycles ((receiveMessage g p.word socketWidths bus (messageHeader p noReads ++ streamBytes cycles)).sent.flatMap
      (List.drop p.headerAlignment)) ↔ ReadsEnded cycles) :=
  ⟨framed_stream_iff g sock cycles, framed_message_iff g bus cycles noReads hwidths hsize⟩

end Cycles

namespace Sample

/-- A read, and then a write that ends the cycle. -/
def readWriteCycle : WireCycle port where
  body := [⟨ebRecordBCA ||| ebRecordRFF, 0x03, [], 0, [], 0x8000, [0x4000]⟩]
  last := writeCycle.last
  wellFormed := by
    intro r hr
    rcases List.mem_cons.mp hr with rfl | hr
    · exact ⟨by decide, by decide, by decide, by decide⟩
    · exact writeCycle.wellFormed r hr
  body_open := by decide
  last_cyc := writeCycle.last_cyc

/-- The write behind it gets a terminator of its own. -/
theorem write_answered : ¬ ∀ cycles : List (WireCycle port),
    Framed cycles (deliver glue port (Link.fresh ()) (streamBytes cycles)).slave.sent.flatten := by
  intro h
  have hended := (framed_stream_iff glue () _).mp (h [readWriteCycle, writeCycle])
  have hcyc := hended [readWriteCycle] writeCycle [] rfl (by decide) ⟨ebRecordBCA ||| ebRecordRFF, 0x03, [], 0, [], 0x8000, [0x4000]⟩
    (by decide)
  exact absurd hcyc (by decide)

theorem writeRead_framed :
    (Framed [writeCycle, readWriteCycle]
      (deliver glue port (Link.fresh ()) (streamBytes [writeCycle, readWriteCycle])).slave.sent.flatten ↔
        ReadsEnded [writeCycle, readWriteCycle]) ∧
    (Framed [writeCycle, readWriteCycle]
      ((receiveMessage glue port.word 0xFF ⟨(), 0, []⟩
        (messageHeader port false ++ streamBytes [writeCycle, readWriteCycle])).sent.flatMap (List.drop port.headerAlignment)) ↔
        ReadsEnded [writeCycle, readWriteCycle]) :=
  replies_framed_iff glue () ⟨(), 0, []⟩ [writeCycle, readWriteCycle] false (by decide) (by decide)

end Sample

end WhiteRabbit.Etherbone
