import WhiteRabbit.SessionReplies

/-!
# Fragmentation of a stream of cycles

A stream of complete cycles is cut into chunks. The slave does the same, with the same
arguments and replies, as for the stream in one chunk exactly when no chunk ends inside the
first header of a cycle, no error from before a chunk end is still visible to a read of the
error register after it, and no chunk ends between a cycle whose open flag went stale and a
cycle without reads.
-/

namespace WhiteRabbit.Etherbone
open BigEndian

variable {σ : Type} {p : Port}

namespace WireCycle

def HasReads (c : WireCycle p) : Prop := ∃ r ∈ c.records, r.reads ≠ []

instance (c : WireCycle p) : Decidable c.HasReads :=
  inferInstanceAs (Decidable (∃ r ∈ c.records, r.reads ≠ []))

theorem bytes_pos (c : WireCycle p) : p.recordAlignment ≤ c.bytes.length := by
  have hlast := Record.recordAlignment_le (c.wellFormed c.last (by simp))
  simp only [bytes, records, recordBytes_append, recordBytes_cons, recordBytes_nil,
    List.append_nil, List.length_append]
  omega

theorem endsCycle_records (c : WireCycle p) (fresh : Bool) : endsCycle fresh c.records = true := by
  simp [endsCycle, records, c.last_cyc]

private theorem replay_body (g : Glue σ) (cut : ℕ → Bool) (o : ℕ) (s : Session σ) {body : List Record}
    {last : Record} (hbody : ∀ r ∈ body, r.cyc = false) (hlast : last.cyc = true) :
    s.replay g p cut o (body ++ [last]) =
      (if cut (o + (recordBytes p (body ++ [last])).length) then (s.run g p (body ++ [last])).1.start
        else (s.run g p (body ++ [last])).1, (s.run g p (body ++ [last])).2) := by
  induction body generalizing o s with
  | nil => simp [Session.replay, Session.run, hlast, recordBytes]
  | cons r body ih =>
    obtain ⟨hr, hbody'⟩ := List.forall_mem_cons.mp hbody
    rw [List.cons_append, Session.replay, Session.run_cons]
    simp only [hr, Bool.and_false, Bool.false_eq_true, if_false]
    rw [ih _ _ hbody', recordBytes_cons, List.length_append, Nat.add_assoc]

/-- Only the last record of a cycle can end a session. -/
theorem replay (g : Glue σ) (cut : ℕ → Bool) (o : ℕ) (s : Session σ) (c : WireCycle p) :
    s.replay g p cut o c.records =
      (if cut (o + c.bytes.length) then (s.run g p c.records).1.start else (s.run g p c.records).1,
        (s.run g p c.records).2) :=
  replay_body g cut o s c.body_open c.last_cyc

theorem headersWhole (cut : ℕ → Bool) (o : ℕ) (c : WireCycle p) :
    HeadersWhole p cut o true c.records ↔
      ∀ i, 0 < i → i < p.recordAlignment → cut (o + i) = false := by
  have hopen : ∀ (rs : List Record) (o : ℕ), (∀ r ∈ rs.dropLast, r.cyc = false) →
      HeadersWhole p cut o false rs := by
    intro rs
    induction rs with
    | nil => exact fun _ _ => trivial
    | cons r rs ih =>
      intro o h
      refine ⟨fun hf => absurd hf (by decide), ?_⟩
      cases rs with
      | nil => trivial
      | cons r' rs =>
        rw [List.dropLast_cons_cons] at h
        obtain ⟨hr, h'⟩ := List.forall_mem_cons.mp h
        rw [hr]
        exact ih _ h'
  have hbody := c.body_open
  rw [records]
  cases hc : c.body with
  | nil => simp [HeadersWhole]
  | cons r body =>
    rw [hc] at hbody
    obtain ⟨hr, hbody'⟩ := List.forall_mem_cons.mp hbody
    simp only [List.cons_append, HeadersWhole, forall_const, hr]
    exact and_iff_left (hopen _ _ (by simpa using hbody'))

end WireCycle

/-- The accesses that the cycles of a stream ask for. -/
def streamAccesses (cycles : List (WireCycle p)) : List Access := recordAccesses p (streamRecords cycles)

@[simp] theorem streamAccesses_nil : streamAccesses ([] : List (WireCycle p)) = [] := rfl

@[simp] theorem streamAccesses_cons (c : WireCycle p) (cs : List (WireCycle p)) :
    streamAccesses (c :: cs) = recordAccesses p c.records ++ streamAccesses cs := by
  simp [streamAccesses]

theorem streamAccesses_append (cs ds : List (WireCycle p)) :
    streamAccesses (cs ++ ds) = streamAccesses cs ++ streamAccesses ds := by
  simp [streamAccesses]

/-- The last record that has reads. -/
def lastReader (rs : List Record) : Option Record := (rs.filter fun r => r.reads ≠ []).getLast?

theorem openAfter_eq (rs : List Record) :
    openAfter false rs = true ↔ ∃ r ∈ lastReader rs, r.cyc = false := by
  induction rs using List.reverseRecOn with
  | nil => simp [lastReader]
  | append_singleton rs r ih =>
    rw [openAfter_append, openAfter_cons, openAfter_nil, lastReader, List.filter_append]
    by_cases hr : r.reads = []
    · rw [if_pos hr, ih]
      simp [lastReader, hr]
    · simp [hr]

/-- No chunk ends strictly inside the first header of a cycle. -/
def HeadersUncut (cycles : List (WireCycle p)) (chunks : List Bytes) : Prop :=
  ∀ done c rest, cycles = done ++ c :: rest → ∀ o ∈ boundaries chunks,
    ¬ ((streamBytes done).length < o ∧ o < (streamBytes done).length + p.recordAlignment)

/-- When a chunk ends with a cycle, no error of the cycles before it can be seen any more
in a later read of the error register. -/
def ErrorsSettled (g : Glue σ) (sock : σ) (cycles : List (WireCycle p)) (chunks : List Bytes) : Prop :=
  ∀ done rest, cycles = done ++ rest → (streamBytes done).length ∈ boundaries chunks →
    ∀ before after, marks g (sockAll g sock (streamAccesses done)) (streamAccesses rest) =
      before ++ .look :: after → ¬ Visible (marks g sock (streamAccesses done)) before

/-- When a chunk ends with a cycle, and the last reads before it did not end their cycle,
the next cycle has reads. -/
def RepliesSettled (cycles : List (WireCycle p)) (chunks : List Bytes) : Prop :=
  ∀ done c rest, cycles = done ++ c :: rest → (streamBytes done).length ∈ boundaries chunks →
    (∃ r ∈ lastReader (streamRecords done), r.cyc = false) → c.HasReads

/-- The chunks have the same effect as the whole stream in one chunk. -/
structure LikeWhole (g : Glue σ) (p : Port) (sock : σ) (stream : Bytes) (chunks : List Bytes) : Prop where
  alive : (deliverAll g p (Link.fresh sock) chunks).phase ≠ .dead
  trace : (deliverAll g p (Link.fresh sock) chunks).slave.bus.trace =
    (deliverAll g p (Link.fresh sock) [stream]).slave.bus.trace
  replies : (deliverAll g p (Link.fresh sock) chunks).slave.sent.flatten =
    (deliverAll g p (Link.fresh sock) [stream]).slave.sent.flatten

section Cycles

variable {g : Glue σ} {cut : ℕ → Bool}

/-- Records up to a cycle end are the records of the first cycles. -/
theorem split_cycles {cycles : List (WireCycle p)} {done rest : List Record}
    (h : streamRecords cycles = done ++ rest) (hend : endsCycle true done = true) :
    ∃ ds rs, cycles = ds ++ rs ∧ done = streamRecords ds ∧ rest = streamRecords rs := by
  induction cycles generalizing done with
  | nil =>
    obtain ⟨rfl, rfl⟩ := List.append_eq_nil_iff.mp h.symm
    exact ⟨[], [], rfl, rfl, rfl⟩
  | cons c cs ih =>
    rw [streamRecords_cons] at h
    rcases List.append_eq_append_iff.mp h with ⟨as, rfl, has⟩ | ⟨bs, hc, rfl⟩
    · have hend' : endsCycle true as = true := by
        rw [endsCycle, List.foldl_append] at hend
        have hc := c.endsCycle_records true
        rw [endsCycle] at hc
        rwa [hc] at hend
      obtain ⟨ds, rs, rfl, rfl, rfl⟩ := ih has hend'
      exact ⟨c :: ds, rs, rfl, rfl, rfl⟩
    · rcases List.eq_nil_or_concat done with rfl | ⟨done', r, rfl⟩
      · exact ⟨[], c :: cs, rfl, rfl, by rw [streamRecords_cons, hc]; rfl⟩
      · rcases List.eq_nil_or_concat bs with rfl | ⟨bs', x, rfl⟩
        · rw [List.append_nil] at hc
          exact ⟨[c], cs, rfl, by simp [hc], by simp⟩
        · -- a proper prefix of the cycle is open
          rw [WireCycle.records, List.concat_eq_append, List.concat_eq_append, ← List.append_assoc] at hc
          have hbody := (List.append_inj' hc rfl).1
          have hopen := c.body_open r (by rw [hbody]; simp)
          simp [endsCycle, hopen] at hend

theorem endsCycle_stream (cycles : List (WireCycle p)) : endsCycle true (streamRecords cycles) = true := by
  induction cycles with
  | nil => rfl
  | cons c cs ih =>
    rw [streamRecords_cons, endsCycle, List.foldl_append]
    have hc := c.endsCycle_records true
    rw [endsCycle] at hc
    rw [hc]
    exact ih

theorem headersWhole_stream {o : ℕ} {cycles : List (WireCycle p)} :
    HeadersWhole p cut o true (streamRecords cycles) ↔
      ∀ done c rest, cycles = done ++ c :: rest → ∀ i, 0 < i → i < p.recordAlignment →
        cut (o + (streamBytes done).length + i) = false := by
  induction cycles generalizing o with
  | nil => simp [HeadersWhole]
  | cons c cs ih =>
    have hlen : (recordBytes p c.records).length = c.bytes.length := rfl
    rw [streamRecords_cons, headersWhole_append, c.headersWhole, c.endsCycle_records, ih, hlen]
    constructor
    · rintro ⟨hc, hcs⟩ done c' rest he
      cases done with
      | nil => simpa [streamBytes] using hc
      | cons d done =>
        rw [List.cons_append, List.cons.injEq] at he
        obtain ⟨rfl, he⟩ := he
        have := hcs done c' rest he
        simpa [Nat.add_assoc] using this
    · intro h
      refine ⟨by simpa [streamBytes] using h [] c cs rfl, fun done c' rest he => ?_⟩
      have := h (c :: done) c' rest (by rw [he, List.cons_append])
      simpa [Nat.add_assoc] using this

end Cycles

section Compare

variable {g : Glue σ} {cut : ℕ → Bool}

/-- No error from before the last cut (`old`) is visible to a look; `new` came since. -/
def ErrorsHidden (g : Glue σ) (cut : ℕ → Bool) :
    ℕ → σ → List Mark → List Mark → List (WireCycle p) → Prop
  | _, _, _, _, [] => True
  | o, sock, old, new, c :: cs =>
    let m := marks g sock (recordAccesses p c.records)
    (∀ x ∈ looks m, ¬ Visible old (new ++ x)) ∧
      ErrorsHidden g cut (o + c.bytes.length) (sockAll g sock (recordAccesses p c.records))
        (if cut (o + c.bytes.length) then old ++ (new ++ m) else old)
        (if cut (o + c.bytes.length) then [] else new ++ m) cs

theorem errorsHidden_iff {o : ℕ} {sock : σ} {old new : List Mark} {cs : List (WireCycle p)} :
    ErrorsHidden g cut o sock old new cs ↔
      (∀ x ∈ looks (marks g sock (streamAccesses cs)), ¬ Visible old (new ++ x)) ∧
      ∀ done rest, cs = done ++ rest → done ≠ [] → cut (o + (streamBytes done).length) = true →
        ∀ x ∈ looks (marks g (sockAll g sock (streamAccesses done)) (streamAccesses rest)),
          ¬ Visible (old ++ (new ++ marks g sock (streamAccesses done))) x := by
  induction cs generalizing o sock old new with
  | nil =>
    refine ⟨fun _ => ⟨by simp [marks, looks], ?_⟩, fun _ => trivial⟩
    intro done rest he hne
    exact absurd (List.append_eq_nil_iff.mp he.symm).1 hne
  | cons c cs ih =>
    rw [ErrorsHidden]
    simp only [ih, streamAccesses_cons, marks_append, looks_append]
    generalize hm : marks g sock (recordAccesses p c.records) = m
    generalize hs : sockAll g sock (recordAccesses p c.records) = sock'
    -- a cut after the first cycles is after `c` or later
    have hsplit : (∀ done rest, c :: cs = done ++ rest → done ≠ [] →
        cut (o + (streamBytes done).length) = true →
          ∀ x ∈ looks (marks g (sockAll g sock (streamAccesses done)) (streamAccesses rest)),
            ¬ Visible (old ++ (new ++ marks g sock (streamAccesses done))) x) ↔
        (cut (o + c.bytes.length) = true → ∀ x ∈ looks (marks g sock' (streamAccesses cs)),
          ¬ Visible (old ++ (new ++ m)) x) ∧
        ∀ done rest, cs = done ++ rest → done ≠ [] →
          cut (o + c.bytes.length + (streamBytes done).length) = true →
            ∀ x ∈ looks (marks g (sockAll g sock' (streamAccesses done)) (streamAccesses rest)),
              ¬ Visible (old ++ (new ++ (m ++ marks g sock' (streamAccesses done)))) x := by
      constructor
      · intro h
        constructor
        · have := h [c] cs rfl (by simp)
          simpa [streamBytes, WireCycle.bytes, hm, hs] using this
        · intro done rest he _
          have := h (c :: done) rest (by rw [he, List.cons_append]) (by simp)
          simpa [marks_append, hm, hs, Nat.add_assoc] using this
      · rintro ⟨h0, h1⟩ done rest he hne
        obtain ⟨d, done, rfl⟩ := List.exists_cons_of_ne_nil hne
        rw [List.cons_append, List.cons.injEq] at he
        obtain ⟨rfl, he⟩ := he
        by_cases hd : done = []
        · subst hd
          rw [List.nil_append] at he
          subst he
          simpa [streamBytes, WireCycle.bytes, hm, hs] using h0
        · have := h1 done rest he hd
          simpa [marks_append, hm, hs, Nat.add_assoc] using this
    rw [hsplit]
    simp only [List.mem_append, List.mem_map]
    by_cases hcut : cut (o + c.bytes.length) = true
    · simp only [hcut, if_true, List.nil_append, List.append_assoc, forall_const]
      constructor
      · rintro ⟨hc, hcs, hlater⟩
        refine ⟨?_, hcs, hlater⟩
        rintro x (hx | ⟨y, hy, rfl⟩) hv
        · exact hc x hx hv
        · apply hcs y hy
          rw [visible_append]
          exact Or.inl (by simpa using hv)
      · rintro ⟨hall, hcs, hlater⟩
        exact ⟨fun x hx => hall x (Or.inl hx), hcs, hlater⟩
    · simp only [hcut, Bool.false_eq_true, if_false, List.append_assoc, false_implies, true_and]
      constructor
      · rintro ⟨hc, hcs, hlater⟩
        refine ⟨?_, hlater⟩
        rintro x (hx | ⟨y, hy, rfl⟩)
        · exact hc x hx
        · exact hcs y hy
      · rintro ⟨hall, hlater⟩
        exact ⟨fun x hx => hall x (Or.inl hx), fun x hx => hall _ (Or.inr ⟨x, hx, rfl⟩), hlater⟩

/-- The open flags `a` without cuts and `b` with cuts write the same terminators. -/
def RepliesAgree (cut : ℕ → Bool) : ℕ → Bool → Bool → List (WireCycle p) → Prop
  | _, _, _, [] => True
  | o, a, b, c :: cs =>
    (a = b ∨ c.HasReads) ∧
      RepliesAgree cut (o + c.bytes.length) (openAfter a c.records)
        (if cut (o + c.bytes.length) then false else openAfter b c.records) cs

theorem repliesAgree_iff {o : ℕ} {a b : Bool} {cs : List (WireCycle p)} :
    RepliesAgree cut o a b cs ↔ (a = b ∨ ∀ c ∈ cs.head?, c.HasReads) ∧
      ∀ done c rest, cs = done ++ c :: rest → done ≠ [] → cut (o + (streamBytes done).length) = true →
        openAfter a (streamRecords done) = true → c.HasReads := by
  induction cs generalizing o a b with
  | nil => simp [RepliesAgree]
  | cons c cs ih =>
    have hsplit : (∀ done c' rest, c :: cs = done ++ c' :: rest → done ≠ [] →
        cut (o + (streamBytes done).length) = true →
          openAfter a (streamRecords done) = true → c'.HasReads) ↔
        (cut (o + c.bytes.length) = true → openAfter a c.records = true →
          ∀ c' ∈ cs.head?, c'.HasReads) ∧
        ∀ done c' rest, cs = done ++ c' :: rest → done ≠ [] →
          cut (o + c.bytes.length + (streamBytes done).length) = true →
            openAfter (openAfter a c.records) (streamRecords done) = true → c'.HasReads := by
      constructor
      · intro h
        constructor
        · intro hcut hopen c' hc'
          obtain ⟨rest, rfl⟩ := List.head?_eq_some_iff.mp hc'
          exact h [c] c' rest rfl (by simp) (by simpa [streamBytes, WireCycle.bytes] using hcut)
            (by simpa using hopen)
        · intro done c' rest he _ hcut hopen
          exact h (c :: done) c' rest (by rw [he, List.cons_append]) (by simp)
            (by simpa [Nat.add_assoc] using hcut) (by simpa [openAfter_append] using hopen)
      · rintro ⟨h0, h1⟩ done c' rest he hne hcut hopen
        obtain ⟨d, done, rfl⟩ := List.exists_cons_of_ne_nil hne
        rw [List.cons_append, List.cons.injEq] at he
        obtain ⟨rfl, he⟩ := he
        by_cases hd : done = []
        · subst hd
          exact h0 (by simpa [streamBytes, WireCycle.bytes] using hcut) (by simpa using hopen) c'
            (by rw [he]; rfl)
        · exact h1 done c' rest he hd (by simpa [Nat.add_assoc] using hcut)
            (by simpa [openAfter_append] using hopen)
    rw [RepliesAgree, ih, hsplit]
    simp only [List.head?_cons, Option.mem_def, Option.some.injEq, forall_eq']
    constructor
    · rintro ⟨hab, hnext, hlater⟩
      refine ⟨hab, fun hcut hopen => ?_, hlater⟩
      rw [if_pos hcut, hopen] at hnext
      exact hnext.resolve_left (by decide)
    · rintro ⟨hab, hnext, hlater⟩
      refine ⟨hab, ?_, hlater⟩
      by_cases hcut : cut (o + c.bytes.length) = true
      · rw [if_pos hcut]
        cases hopen : openAfter a c.records with
        | false => exact Or.inl rfl
        | true => exact Or.inr (hnext hcut hopen)
      · rw [if_neg hcut]
        rcases hab with rfl | hr
        · exact Or.inl rfl
        · exact Or.inl (openAfter_reads hr a b)

/-- A session `s` without cuts beside a session `s'` that began after the marks `old`. -/
structure Beside (s s' : Session σ) (old new : List Mark) : Prop where
  sock : s.bus.sock = s'.bus.sock
  error : s.bus.error = register 0 (old ++ new)
  error' : s'.bus.error = register 0 new
  cycleOpen : s'.cycleOpen = true → s.cycleOpen = true

namespace Beside

variable {s s' : Session σ} {old new : List Mark}

/-- After one cycle, with or without a cut. -/
theorem next (h : Beside s s' old new) (c : WireCycle p) (b : Bool) :
    Beside (s.run g p c.records).1 (if b then (s'.run g p c.records).1.start else (s'.run g p c.records).1)
      (if b then old ++ (new ++ marks g s.bus.sock (recordAccesses p c.records)) else old)
      (if b then [] else new ++ marks g s.bus.sock (recordAccesses p c.records)) := by
  have herr : (s.run g p c.records).1.bus.error =
      register 0 (old ++ (new ++ marks g s.bus.sock (recordAccesses p c.records))) := by
    rw [Session.run_bus, performAll_eq, h.error, ← register_append, List.append_assoc]
  have hsock : (s.run g p c.records).1.bus.sock = (s'.run g p c.records).1.bus.sock := by
    rw [Session.run_bus, Session.run_bus, performAll_eq, performAll_eq, h.sock]
  cases b with
  | true => exact ⟨hsock, by simpa using herr, rfl, fun hf => absurd hf (by simp [Session.start])⟩
  | false =>
    refine ⟨hsock, herr, ?_, ?_⟩
    · simp only [Bool.false_eq_true, if_false]
      rw [Session.run_bus, performAll_eq, h.error', ← register_append, h.sock]
    · simp only [Bool.false_eq_true, if_false, Session.run_cycleOpen]
      intro ho
      by_cases hr : c.HasReads
      · rw [openAfter_reads hr _ s'.cycleOpen]
        exact ho
      · have hno : ∀ r ∈ c.records, r.reads = [] := by
          intro r hr'
          by_contra hne
          exact hr ⟨r, hr', hne⟩
        rw [openAfter_noReads hno] at ho ⊢
        exact h.cycleOpen ho

/-- The looks of a cycle see the same register when no old error is visible to them. -/
theorem looks_iff (h : Beside s s' old new) (as : List Access) :
    (∀ x ∈ looks (marks g s.bus.sock as), register s.bus.error x = register s'.bus.error x) ↔
      ∀ x ∈ looks (marks g s.bus.sock as), ¬ Visible old (new ++ x) := by
  apply forall₂_congr
  intro x _
  rw [h.error, h.error', ← register_append, ← register_append, List.append_assoc, register_eq_iff]

end Beside

variable (cut) in
theorem trace_compare {s s' : Session σ} {old new : List Mark} (h : Beside s s' old new) (o : ℕ)
    (cs : List (WireCycle p)) :
    ∃ t t', (s.run g p (streamRecords cs)).1.bus.trace = s.bus.trace ++ t ∧
      (s'.replay g p cut o (streamRecords cs)).1.bus.trace = s'.bus.trace ++ t' ∧
      t.length = t'.length ∧ (t = t' ↔ ErrorsHidden g cut o s.bus.sock old new cs) := by
  induction cs generalizing o s s' old new with
  | nil => exact ⟨[], [], by simp [ErrorsHidden]⟩
  | cons c cs ih =>
    obtain ⟨t, t', ht, ht', hlen, hiff⟩ := ih (h.next (g := g) c (cut (o + c.bytes.length)))
      (o + c.bytes.length)
    have hrun : (s.run g p c.records).1.bus.trace =
        s.bus.trace ++ events g s.bus.sock s.bus.error (recordAccesses p c.records) := by
      rw [Session.run_bus, performAll_eq]
    have hrun' : (if cut (o + c.bytes.length) then (s'.run g p c.records).1.start
        else (s'.run g p c.records).1).bus.trace =
        s'.bus.trace ++ events g s.bus.sock s'.bus.error (recordAccesses p c.records) := by
      have := congrArg Bus.trace (Session.run_bus g p s' c.records)
      rw [performAll_eq, ← h.sock] at this
      split
      · exact this
      · exact this
    have hlen' := length_events g s.bus.sock s.bus.error s'.bus.error (recordAccesses p c.records)
    have hsock : (s.run g p c.records).1.bus.sock =
        sockAll g s.bus.sock (recordAccesses p c.records) := by
      rw [Session.run_bus, performAll_eq]
    refine ⟨events g s.bus.sock s.bus.error (recordAccesses p c.records) ++ t,
      events g s.bus.sock s'.bus.error (recordAccesses p c.records) ++ t', ?_, ?_, ?_, ?_⟩
    · rw [streamRecords_cons, Session.run_append, ht, hrun, List.append_assoc]
    · have hbytes : (recordBytes p c.records).length = c.bytes.length := rfl
      rw [streamRecords_cons, Session.replay_append, c.replay, hbytes]
      dsimp only
      rw [ht', hrun', List.append_assoc]
    · rw [List.length_append, List.length_append, hlen', hlen]
    · rw [ErrorsHidden, ← hsock, ← hiff, ← h.looks_iff, ← events_eq_iff]
      exact ⟨fun he => List.append_inj he hlen', fun he => by rw [he.1, he.2]⟩

theorem replies_compare {s s' : Session σ} {old new : List Mark} (h : Beside s s' old new) (o : ℕ)
    (cs : List (WireCycle p)) (herr : ErrorsHidden g cut o s.bus.sock old new cs)
    (hopen : RepliesAgree cut o s.cycleOpen s'.cycleOpen cs) :
    (s.run g p (streamRecords cs)).2 = (s'.replay g p cut o (streamRecords cs)).2 := by
  induction cs generalizing o s s' old new with
  | nil => rfl
  | cons c cs ih =>
    obtain ⟨herr, herrs⟩ := herr
    obtain ⟨hopen, hopens⟩ := hopen
    have hbytes : (recordBytes p c.records).length = c.bytes.length := rfl
    have hdrop : ∀ r ∈ c.records.dropLast, r.cyc = false := by
      simpa [WireCycle.records] using c.body_open
    have hc := Session.run_agree (g := g) (p := p) h.sock c.records ((h.looks_iff _).mpr herr)
      (hopen.imp_right fun hr => ⟨hr, hdrop⟩)
    have hsock : (s.run g p c.records).1.bus.sock =
        sockAll g s.bus.sock (recordAccesses p c.records) := by
      rw [Session.run_bus, performAll_eq]
    have hcs := ih (h.next (g := g) c (cut (o + c.bytes.length))) (o + c.bytes.length)
      (by rw [hsock]; exact herrs) (by
        rw [Session.run_cycleOpen]
        split at hopens <;> rename_i hcut <;> simp only [hcut, if_true, Bool.false_eq_true, if_false]
        · exact hopens
        · rw [Session.run_cycleOpen]
          exact hopens)
    rw [streamRecords_cons, Session.run_append, Session.replay_append, c.replay, hbytes, hc]
    dsimp only
    rw [hcs]

variable (cut) in
theorem size_compare {s s' : Session σ} (h : s'.cycleOpen = true → s.cycleOpen = true) (o : ℕ)
    (cs : List (WireCycle p)) :
    (recordBytes p (s'.replay g p cut o (streamRecords cs)).2).length ≤
        (recordBytes p (s.run g p (streamRecords cs)).2).length ∧
      (¬ RepliesAgree cut o s.cycleOpen s'.cycleOpen cs →
        (recordBytes p (s'.replay g p cut o (streamRecords cs)).2).length <
          (recordBytes p (s.run g p (streamRecords cs)).2).length) := by
  induction cs generalizing o s s' with
  | nil => simp [RepliesAgree]
  | cons c cs ih =>
    have hbytes : (recordBytes p c.records).length = c.bytes.length := rfl
    have hmono : openAfter s'.cycleOpen c.records = true → openAfter s.cycleOpen c.records = true := by
      intro ho
      by_cases hr : c.HasReads
      · rw [openAfter_reads hr _ s'.cycleOpen]
        exact ho
      · have hno : ∀ r ∈ c.records, r.reads = [] := by
          intro r hr'
          by_contra hne
          exact hr ⟨r, hr', hne⟩
        rw [openAfter_noReads hno] at ho ⊢
        exact h ho
    have hopen' : (if cut (o + c.bytes.length) then (s'.run g p c.records).1.start
        else (s'.run g p c.records).1).cycleOpen =
          if cut (o + c.bytes.length) then false else openAfter s'.cycleOpen c.records := by
      split
      · rfl
      · exact Session.run_cycleOpen s' c.records
    have hnext : (if cut (o + c.bytes.length) then (s'.run g p c.records).1.start
        else (s'.run g p c.records).1).cycleOpen = true → (s.run g p c.records).1.cycleOpen = true := by
      rw [hopen', Session.run_cycleOpen]
      split
      · exact fun hf => absurd hf Bool.false_ne_true
      · exact hmono
    obtain ⟨hle, hlt⟩ := ih hnext (o + c.bytes.length)
    rw [hopen', Session.run_cycleOpen] at hlt
    have hsize := Session.run_size (g := g) (p := p) s c.records
    have hsize' := Session.run_size (g := g) (p := p) s' c.records
    have hcmp := repliesSize_mono (p := p) h c.records
    rw [streamRecords_cons, Session.run_append, Session.replay_append, c.replay, hbytes]
    simp only [recordBytes_append, List.length_append, hsize, hsize']
    refine ⟨by omega, fun hnot => ?_⟩
    rw [RepliesAgree, not_and_or] at hnot
    rcases hnot with hnow | hlater
    · rw [not_or] at hnow
      obtain ⟨hne, hnr⟩ := hnow
      have hno : ∀ r ∈ c.body, r.reads = [] := by
        intro r hr
        by_contra hne
        exact hnr ⟨r, by simp [WireCycle.records, hr], hne⟩
      have hlast : c.last.reads = [] := by
        by_contra hne
        exact hnr ⟨c.last, by simp [WireCycle.records], hne⟩
      have hb : s.cycleOpen = true ∧ s'.cycleOpen = false := by
        cases hs : s.cycleOpen <;> cases hs' : s'.cycleOpen <;> simp_all
      have hra := p.recordAlignment_mem
      have hbody := repliesSize_mono (p := p) h c.body
      have hlt' : repliesSize p s'.cycleOpen c.records < repliesSize p s.cycleOpen c.records := by
        rw [WireCycle.records, repliesSize_append, repliesSize_append, openAfter_noReads hno,
          openAfter_noReads hno, hb.1, hb.2]
        rw [hb.1, hb.2] at hbody
        simp only [repliesSize, hlast, if_true, c.last_cyc, Bool.and_true, Bool.false_eq_true, if_false]
        omega
      omega
    · have := hlt hlater
      omega

end Compare

section Stream

variable {g : Glue σ}

/-- The session of a link right after negotiation. -/
def Session.fresh (sock : σ) : Session σ := ⟨⟨sock, 0, []⟩, true, false, false⟩

theorem waits_fresh (sock : σ) : Waits p (Link.fresh sock) (Session.fresh sock) [] [] :=
  ⟨fun _ => rfl, rfl, rfl, fun h => absurd h (by simp [Link.fresh]),
    Or.inl ⟨rfl, rfl, Session.fresh sock, rfl, rfl⟩⟩

/-- A run over all chunks of a stream of cycles. -/
theorem stream_outcome (sock : σ) {cycles : List (WireCycle p)} {chunks : List Bytes}
    (hchunks : ∀ c ∈ chunks, c ≠ []) (hstream : chunks.flatten = streamBytes cycles) :
    Outcome g p (fun o => decide (o ∈ boundaries chunks)) (deliverAll g p (Link.fresh sock) chunks) 0
      (Session.fresh sock) (streamRecords cycles) [] := by
  apply deliverAll_outcome hchunks
  refine ⟨waits_fresh sock, wellFormed_streamRecords cycles, hstream, ?_, by simp, by simp⟩
  intro r hr
  have hmem : r ∈ streamRecords cycles := List.mem_of_mem_head? hr
  have := Record.recordAlignment_le (wellFormed_streamRecords cycles r hmem)
  have hra := p.recordAlignment_mem
  rw [List.length_nil]
  omega

theorem headersUncut_iff {cycles : List (WireCycle p)} {chunks : List Bytes} :
    HeadersUncut cycles chunks ↔
      HeadersWhole p (fun o => decide (o ∈ boundaries chunks)) 0 true (streamRecords cycles) := by
  rw [headersWhole_stream]
  simp only [HeadersUncut, Nat.zero_add, decide_eq_false_iff_not]
  constructor
  · intro h done c rest he i h0 hi hmem
    exact h done c rest he _ hmem ⟨by omega, by omega⟩
  · rintro h done c rest he o hmem ⟨hlo, hhi⟩
    obtain ⟨i, rfl⟩ := Nat.exists_eq_add_of_le hlo.le
    exact h done c rest he i (by omega) (by omega) hmem

/-- Chunks whose ends lie anywhere but in the first header of a cycle keep the link alive. -/
theorem alive_iff (sock : σ) {cycles : List (WireCycle p)} {chunks : List Bytes}
    (hchunks : ∀ c ∈ chunks, c ≠ []) (hstream : chunks.flatten = streamBytes cycles) :
    (deliverAll g p (Link.fresh sock) chunks).phase ≠ .dead ↔ HeadersUncut cycles chunks := by
  rw [headersUncut_iff]
  rcases stream_outcome (g := g) sock hchunks hstream with
    ⟨-, hwhole, hpoll⟩ | ⟨done, rest, he, hne, -, hdead, -, hend, i, h0, hi, hcut⟩
  · have := hpoll (endsCycle_stream cycles)
    exact ⟨fun _ => hwhole, fun _ => by rw [this]; decide⟩
  · refine ⟨fun h => absurd hdead h, fun h => ?_⟩
    obtain ⟨ds, rs, rfl, rfl, rfl⟩ := split_cycles he hend
    obtain ⟨c, rs, rfl⟩ : ∃ c rs', rs = c :: rs' :=
      List.exists_cons_of_ne_nil (by rintro rfl; exact hne rfl)
    have := headersWhole_stream.mp h ds c rs rfl i h0 hi
    exact absurd (hcut.symm.trans this) (by decide)

theorem replay_last (s : Session σ) (cut : ℕ → Bool) {rs : List Record} (hne : rs ≠ [])
    (h : ∀ o, 0 < o → o < (recordBytes p rs).length → cut o = false)
    (hwf : ∀ r ∈ rs, r.WellFormed p) :
    (s.replay g p cut 0 rs).2 = (s.run g p rs).2 ∧
      (s.replay g p cut 0 rs).1.bus.trace = (s.run g p rs).1.bus.trace := by
  have hra := p.recordAlignment_mem
  rw [Session.replay_run g p cut hne]
  · refine ⟨rfl, ?_⟩
    dsimp only
    split <;> rfl
  · intro rs' rs'' he hne' hne''
    obtain ⟨r, rs', rfl⟩ := List.exists_cons_of_ne_nil hne'
    obtain ⟨x, rs'', rfl⟩ := List.exists_cons_of_ne_nil hne''
    have hr := Record.recordAlignment_le (hwf r (by rw [he]; simp))
    have hx := Record.recordAlignment_le (hwf x (by rw [he]; simp))
    have hsum := congrArg (fun l => (recordBytes p l).length) he
    simp only [recordBytes_append, recordBytes_cons, List.length_append] at hsum ⊢
    exact h _ (by omega) (by omega)

/-- The whole stream in one chunk is executed in one session. -/
theorem whole_run (sock : σ) (cycles : List (WireCycle p)) :
    (deliverAll g p (Link.fresh sock) [streamBytes cycles]).slave.bus.trace =
        ((Session.fresh sock).run g p (streamRecords cycles)).1.bus.trace ∧
      (deliverAll g p (Link.fresh sock) [streamBytes cycles]).slave.sent.flatten =
        recordBytes p ((Session.fresh sock).run g p (streamRecords cycles)).2 := by
  have hra := p.recordAlignment_mem
  cases cycles with
  | nil => exact ⟨rfl, rfl⟩
  | cons c cs =>
    have hlen : p.recordAlignment ≤ (streamBytes (c :: cs)).length := by
      rw [streamBytes_cons, List.length_append]
      exact c.bytes_pos.trans (Nat.le_add_right _ _)
    have hne : streamRecords (c :: cs) ≠ [] := by simp [WireCycle.records]
    have hbound : boundaries [streamBytes (c :: cs)] = [0, (streamBytes (c :: cs)).length] := by
      simp [boundaries]
    have hquiet : ∀ o, 0 < o → o < (recordBytes p (streamRecords (c :: cs))).length →
        decide (o ∈ boundaries [streamBytes (c :: cs)]) = false := by
      intro o h0 hlt
      rw [hbound, decide_eq_false_iff_not, List.mem_cons, List.mem_singleton]
      have hb : (streamBytes (c :: cs)).length = (recordBytes p (streamRecords (c :: cs))).length := rfl
      omega
    obtain ⟨hout, htrace⟩ := replay_last (g := g) (Session.fresh sock) _ hne hquiet
      (wellFormed_streamRecords _)
    rcases stream_outcome (g := g) sock
        (show ∀ b ∈ [streamBytes (c :: cs)], b ≠ [] by
          simp only [List.mem_singleton, forall_eq]
          exact List.length_pos_iff.mp (by omega))
        (show [streamBytes (c :: cs)].flatten = streamBytes (c :: cs) by simp) with
      ⟨hp, -, -⟩ | ⟨done, rest, he, hne', -, -, -, -, i, h0, hi, hcut⟩
    · exact ⟨hp.trace.trans htrace, by rw [hp.sent, hout, List.nil_append]⟩
    · exfalso
      obtain ⟨r, rest, rfl⟩ := List.exists_cons_of_ne_nil hne'
      have hr := Record.recordAlignment_le (wellFormed_streamRecords (c :: cs) r (by rw [he]; simp))
      have hsum := congrArg (fun l => (recordBytes p l).length) he
      simp only [recordBytes_append, recordBytes_cons, List.length_append] at hsum
      rw [Nat.zero_add] at hcut
      have := hquiet ((recordBytes p done).length + i) (by omega) (by omega)
      exact absurd (hcut.symm.trans this) (by decide)

/-- A run that is not killed is a replay with the chunk ends as cuts. -/
theorem alive_run (sock : σ) {cycles : List (WireCycle p)} {chunks : List Bytes}
    (hchunks : ∀ c ∈ chunks, c ≠ []) (hstream : chunks.flatten = streamBytes cycles)
    (halive : (deliverAll g p (Link.fresh sock) chunks).phase ≠ .dead) :
    (deliverAll g p (Link.fresh sock) chunks).slave.bus.trace =
        ((Session.fresh sock).replay g p (fun o => decide (o ∈ boundaries chunks)) 0
          (streamRecords cycles)).1.bus.trace ∧
      (deliverAll g p (Link.fresh sock) chunks).slave.sent.flatten =
        recordBytes p ((Session.fresh sock).replay g p (fun o => decide (o ∈ boundaries chunks)) 0
          (streamRecords cycles)).2 := by
  rcases stream_outcome (g := g) sock hchunks hstream with
    ⟨hp, -, -⟩ | ⟨done, rest, -, -, -, hdead, -⟩
  · exact ⟨hp.trace, by rw [hp.sent, List.nil_append]⟩
  · exact absurd hdead halive

/-- Chunks act like the whole stream exactly when no chunk end can be noticed. -/
theorem likeWhole_iff (sock : σ) (cycles : List (WireCycle p)) (chunks : List Bytes)
    (hchunks : ∀ c ∈ chunks, c ≠ []) (hstream : chunks.flatten = streamBytes cycles) :
    LikeWhole g p sock (streamBytes cycles) chunks ↔
      HeadersUncut cycles chunks ∧ ErrorsSettled g sock cycles chunks ∧ RepliesSettled cycles chunks := by
  have hbeside : Beside (Session.fresh sock) (Session.fresh sock) [] [] := ⟨rfl, rfl, rfl, id⟩
  have herrors : ErrorsHidden g (fun o => decide (o ∈ boundaries chunks)) 0 sock [] [] cycles ↔
      ErrorsSettled g sock cycles chunks := by
    rw [errorsHidden_iff]
    simp only [ErrorsSettled, List.nil_append, Nat.zero_add, decide_eq_true_iff, mem_looks]
    constructor
    · rintro ⟨-, h⟩ done rest he hmem before after hmarks
      by_cases hd : done = []
      · subst hd
        rintro ⟨x, y, hxy, -⟩
        simp [marks] at hxy
      · exact h done rest he hd hmem before ⟨after, hmarks⟩
    · intro h
      constructor
      · rintro before - ⟨x, y, hxy, -⟩
        simp at hxy
      · rintro done rest he - hmem before ⟨after, hmarks⟩
        exact h done rest he hmem before after hmarks
  have hreplies : RepliesAgree (fun o => decide (o ∈ boundaries chunks)) 0 false false cycles ↔
      RepliesSettled cycles chunks := by
    rw [repliesAgree_iff]
    simp only [RepliesSettled, true_or, true_and, Nat.zero_add, decide_eq_true_iff, openAfter_eq]
    constructor
    · intro h done c rest he hmem hlast
      refine h done c rest he ?_ hmem hlast
      rintro rfl
      simp [lastReader] at hlast
    · exact fun h done c rest he _ hmem hlast => h done c rest he hmem hlast
  obtain ⟨htrace, hout⟩ := whole_run (g := g) sock cycles
  rw [← alive_iff (g := g) sock hchunks hstream, ← herrors, ← hreplies]
  constructor
  · rintro ⟨halive, htr, hre⟩
    obtain ⟨htrace', hout'⟩ := alive_run (g := g) sock hchunks hstream halive
    obtain ⟨t, t', ht, ht', -, hiff⟩ := trace_compare (g := g) (fun o => decide (o ∈ boundaries chunks))
      hbeside 0 cycles
    refine ⟨halive, hiff.mp ?_, ?_⟩
    · rw [htrace, htrace', ht, ht'] at htr
      exact (List.append_cancel_left htr).symm
    · by_contra hnot
      have hopen : (Session.fresh sock).cycleOpen = true → (Session.fresh sock).cycleOpen = true := id
      have hlt := (size_compare (g := g) (fun o => decide (o ∈ boundaries chunks)) hopen 0 cycles).2 hnot
      rw [← hout, ← hout', hre] at hlt
      exact absurd hlt (Nat.lt_irrefl _)
  · rintro ⟨halive, hvis, hopen⟩
    obtain ⟨htrace', hout'⟩ := alive_run (g := g) sock hchunks hstream halive
    obtain ⟨t, t', ht, ht', -, hiff⟩ := trace_compare (g := g) (fun o => decide (o ∈ boundaries chunks))
      hbeside 0 cycles
    refine ⟨halive, ?_, ?_⟩
    · rw [htrace, htrace', ht, ht', hiff.mpr hvis]
    · rw [hout, hout', replies_compare (g := g) hbeside 0 cycles hvis hopen]

end Stream

namespace Sample

/-- A 16-bit bus on a 32-bit build. -/
def port : Port := ⟨4, 2, 2, by decide, by decide, by decide, by decide, by decide⟩

/-- A socket without devices. -/
def glue : Glue Unit := socketGlue [] (fun _ _ _ => 0) (fun s _ _ _ => s)

/-- A cycle that writes one word: eight bytes. -/
def writeCycle : WireCycle port where
  body := []
  last := ⟨ebRecordBCA ||| ebRecordRFF ||| ebRecordCYC, 0x03, [], 0x4000, [0x1234], 0, []⟩
  wellFormed := by
    intro r hr
    rw [List.nil_append, List.mem_singleton] at hr
    subst hr
    exact ⟨by decide, by decide, by decide, by decide⟩
  body_open := by simp
  last_cyc := by decide

/-- A chunk that ends two bytes into the second cycle kills the link. -/
theorem header_cut_kills :
    (∀ c ∈ [(streamBytes [writeCycle, writeCycle]).take 10, (streamBytes [writeCycle, writeCycle]).drop 10],
        2 ≤ c.length) ∧
      ([(streamBytes [writeCycle, writeCycle]).take 10,
        (streamBytes [writeCycle, writeCycle]).drop 10]).flatten = streamBytes [writeCycle, writeCycle] ∧
      ¬ LikeWhole glue port () (streamBytes [writeCycle, writeCycle])
        [(streamBytes [writeCycle, writeCycle]).take 10, (streamBytes [writeCycle, writeCycle]).drop 10] := by
  refine ⟨by decide, by decide, fun h => h.alive ?_⟩
  decide

/-- A chunk that ends with the first cycle is harmless here. -/
theorem cycle_cut_harmless :
    LikeWhole glue port () (streamBytes [writeCycle, writeCycle])
        [(streamBytes [writeCycle, writeCycle]).take 8, (streamBytes [writeCycle, writeCycle]).drop 8] ↔
      HeadersUncut [writeCycle, writeCycle]
          [(streamBytes [writeCycle, writeCycle]).take 8, (streamBytes [writeCycle, writeCycle]).drop 8] ∧
        ErrorsSettled glue () [writeCycle, writeCycle]
          [(streamBytes [writeCycle, writeCycle]).take 8, (streamBytes [writeCycle, writeCycle]).drop 8] ∧
        RepliesSettled [writeCycle, writeCycle]
          [(streamBytes [writeCycle, writeCycle]).take 8, (streamBytes [writeCycle, writeCycle]).drop 8] :=
  likeWhole_iff () [writeCycle, writeCycle] _ (by decide) (by decide)

end Sample

end WhiteRabbit.Etherbone
