import Mathlib.Data.List.Infix
import WhiteRabbit.RecordExecution

/-!
# Chunks of a stream

The transport cuts a stream of records into chunks. The slave keeps its session while a
cycle is open or a record is incomplete; when a chunk ends together with a cycle, the next
chunk starts a new session. When a chunk ends inside the first header of a cycle, the slave
kills the link. `replay` is the record-level run with the session changes put in.
-/

namespace WhiteRabbit.Etherbone
open BigEndian

/-- The offsets in the stream at which a chunk begins or ends. -/
def boundaries (chunks : List Bytes) : List ℕ := chunks.inits.map fun pre => pre.flatten.length

theorem mem_boundaries {chunks : List Bytes} {o : ℕ} :
    o ∈ boundaries chunks ↔ ∃ pre, pre <+: chunks ∧ pre.flatten.length = o := by
  simp [boundaries, List.mem_map, List.mem_inits]

theorem boundaries_cons (c : Bytes) (cs : List Bytes) :
    boundaries (c :: cs) = 0 :: (boundaries cs).map (c.length + ·) := by
  simp [boundaries, Function.comp_def]

theorem zero_mem_boundaries (chunks : List Bytes) : 0 ∈ boundaries chunks :=
  mem_boundaries.mpr ⟨[], List.nil_prefix, rfl⟩

section Replay

variable {σ : Type} (g : Glue σ) (p : Port)

/-- The session state at the beginning of a fresh call. -/
def Session.start (s : Session σ) : Session σ :=
  ⟨{ s.bus with error := 0 }, true, false, false⟩

/-- Records executed from offset `o` on, where a session ends with every cycle that ends at
a cut. -/
def Session.replay (cut : ℕ → Bool) : ℕ → Session σ → List Record → Session σ × List Record
  | _, s, [] => (s, [])
  | o, s, r :: rs =>
    let (s, out) := s.step g p r
    let o := o + (r.bytes p).length
    let s := if cut o && r.cyc then s.start else s
    let (s, outs) := Session.replay cut o s rs
    (s, out ++ outs)

variable (cut : ℕ → Bool)

@[simp] theorem Session.replay_nil (o : ℕ) (s : Session σ) : s.replay g p cut o [] = (s, []) := rfl

theorem Session.replay_append (o : ℕ) (s : Session σ) (rs ts : List Record) :
    s.replay g p cut o (rs ++ ts) =
      (((s.replay g p cut o rs).1.replay g p cut (o + (recordBytes p rs).length) ts).1,
        (s.replay g p cut o rs).2 ++
          ((s.replay g p cut o rs).1.replay g p cut (o + (recordBytes p rs).length) ts).2) := by
  induction rs generalizing o s with
  | nil => simp
  | cons r rs ih => simp [replay, ih, Nat.add_assoc]

@[simp] theorem Session.step_cycleEnd (s : Session σ) (r : Record) :
    (s.step g p r).1.cycleEnd = r.cyc := rfl

/-- Whether the last of some records ends a cycle. -/
def endsCycle (fresh : Bool) (rs : List Record) : Bool := rs.foldl (fun _ r => r.cyc) fresh

theorem endsCycle_cons (fresh : Bool) (r : Record) (rs : List Record) :
    endsCycle fresh (r :: rs) = endsCycle r.cyc rs := rfl

theorem Session.run_cycleEnd (s : Session σ) (rs : List Record) :
    (s.run g p rs).1.cycleEnd = endsCycle s.cycleEnd rs := by
  induction rs generalizing s with
  | nil => rfl
  | cons r rs ih => rw [run_cons, ih, endsCycle_cons, step_cycleEnd]

/-- Between two cuts the session runs on; at the second one it may end. -/
theorem Session.replay_run {o : ℕ} {s : Session σ} {rs : List Record} (hne : rs ≠ [])
    (h : ∀ rs' rs'', rs = rs' ++ rs'' → rs' ≠ [] → rs'' ≠ [] →
      cut (o + (recordBytes p rs').length) = false) :
    s.replay g p cut o rs =
      (if cut (o + (recordBytes p rs).length) && endsCycle s.cycleEnd rs then (s.run g p rs).1.start
        else (s.run g p rs).1, (s.run g p rs).2) := by
  induction rs generalizing o s with
  | nil => exact absurd rfl hne
  | cons r rs ih =>
    cases rs with
    | nil => simp [replay, run, endsCycle, recordBytes]
    | cons r' rs =>
      have hcut : cut (o + (r.bytes p).length) = false := by
        simpa [recordBytes] using h [r] (r' :: rs) rfl (by simp) (by simp)
      have hrest := ih (o := o + (r.bytes p).length) (s := (s.step g p r).1) (by simp) (by
        intro rs' rs'' he hne' hne''
        have := h (r :: rs') rs'' (by rw [he, List.cons_append]) (by simp) hne''
        rwa [recordBytes_cons, List.length_append, ← Nat.add_assoc] at this)
      rw [replay]
      simp only [hcut, Bool.false_and, Bool.false_eq_true, if_false]
      rw [hrest, run_cons g p s r, endsCycle_cons s.cycleEnd, recordBytes_cons p r,
        List.length_append, step_cycleEnd, Nat.add_assoc]

/-- A cycle is open only if something was replied. -/
def Session.Ok (s : Session σ) : Prop := s.reply = false → s.cycleOpen = false

theorem Session.start_ok (s : Session σ) : s.start.Ok := fun _ => rfl

theorem Session.step_ok {s : Session σ} (h : s.Ok) (r : Record) :
    (s.step g p r).1.Ok ∧ ((s.step g p r).1.reply = false → s.reply = false ∧ (s.step g p r).2 = []) := by
  by_cases hr : r.reads = []
  · simp only [Ok, step, hr, if_true, ne_eq, not_true_eq_false, decide_false, Bool.or_false,
      List.nil_append] at h ⊢
    refine ⟨h, fun hs => ⟨hs, ?_⟩⟩
    rw [h hs]
    simp
  · simp [Ok, step, hr]

theorem Session.run_ok {s : Session σ} (h : s.Ok) (rs : List Record) :
    (s.run g p rs).1.Ok ∧ ((s.run g p rs).1.reply = false → s.reply = false ∧ (s.run g p rs).2 = []) := by
  induction rs generalizing s with
  | nil => exact ⟨h, fun hr => ⟨hr, rfl⟩⟩
  | cons r rs ih =>
    obtain ⟨hok, hstep⟩ := step_ok g p h r
    obtain ⟨hok', hrun⟩ := ih hok
    rw [run_cons]
    refine ⟨hok', fun hr => ?_⟩
    obtain ⟨hr', hout⟩ := hrun hr
    obtain ⟨hr'', hout'⟩ := hstep hr'
    exact ⟨hr'', by simp [hout, hout']⟩

end Replay

/-- A prefix of the bytes of some records: complete records, then a part of the next one. -/
theorem split_records {p : Port} {rs : List Record} {bytes more : Bytes}
    (h : bytes ++ more = recordBytes p rs) :
    ∃ done rest keep, rs = done ++ rest ∧ bytes = recordBytes p done ++ keep ∧
      keep ++ more = recordBytes p rest ∧ ∀ r ∈ rest.head?, keep.length < (r.bytes p).length := by
  induction rs generalizing bytes with
  | nil => exact ⟨[], [], bytes, rfl, rfl, h, by simp⟩
  | cons r rs ih =>
    rw [recordBytes_cons] at h
    by_cases hlen : bytes.length < (r.bytes p).length
    · exact ⟨[], r :: rs, bytes, rfl, rfl, h, by simpa using hlen⟩
    · obtain ⟨bytes', rfl⟩ : r.bytes p <+: bytes :=
        List.prefix_of_prefix_length_le (h ▸ List.prefix_append _ _) (List.prefix_append bytes more)
          (by omega)
      rw [List.append_assoc] at h
      obtain ⟨done, rest, keep, rfl, rfl, hrest, hkeep⟩ := ih (List.append_cancel_left h)
      exact ⟨r :: done, rest, keep, rfl, by simp, hrest, hkeep⟩

section Deliver

variable {σ : Type} {g : Glue σ} {p : Port}

/-- Between two chunks: in session `s`, with the bytes `keep` of an incomplete record or
header, after `out` was sent. -/
structure Waits (p : Port) (l : Link σ) (s : Session σ) (keep out : Bytes) : Prop where
  ok : s.Ok
  sent : l.slave.sent.flatten = out
  whole : l.slave.buf.clobbered = false
  /-- Without a complete header `recv` only waits inside a cycle. -/
  inside : l.phase = .recv → keep.length < p.recordAlignment → s.cycleEnd = false
  state : (l.phase = .poll ∧ keep = [] ∧
      ∃ s₀ : Session σ, s = s₀.start ∧ l.slave = s₀.slave l.slave.buf l.slave.sent) ∨
    (l.phase = .recv ∧ l.slave.buf.unread = keep ∧
      ∃ cycleEnd, (keep.length < p.recordAlignment → cycleEnd = s.cycleEnd) ∧
        l.slave = Session.slave { s with cycleEnd := cycleEnd } l.slave.buf l.slave.sent)

theorem Session.run_withEnd (s : Session σ) (cycleEnd : Bool) (rs : List Record) :
    Session.run g p { s with cycleEnd := cycleEnd } rs =
      ({ (s.run g p rs).1 with cycleEnd := endsCycle cycleEnd rs }, (s.run g p rs).2) := by
  cases rs with
  | nil => rfl
  | cons r rs =>
    have h := Session.run_cycleEnd g p s (r :: rs)
    rw [endsCycle_cons] at h ⊢
    rw [← h]
    rfl

/-- Work on a chunk starts with the kept bytes in front of it. -/
theorem deliver_process {l : Link σ} {s : Session σ} {keep out chunk : Bytes}
    (h : Waits p l s keep out) (hchunk : 0 < chunk.length) (hlong : l.phase = .poll → 2 ≤ chunk.length) :
    ∃ cycleEnd buf, buf.clobbered = false ∧
      (keep.length < p.recordAlignment → cycleEnd = s.cycleEnd) ∧ deliver g p l chunk =
      (Session.slave { s with cycleEnd := cycleEnd } buf l.slave.sent).process g p (keep ++ chunk) := by
  obtain ⟨phase, slave⟩ := l
  have hpos : ¬ chunk.length = 0 := by omega
  rcases h.state with ⟨hphase, rfl, s₀, rfl, hs⟩ | ⟨hphase, rfl, cycleEnd, hshort, hs⟩
  · dsimp only at hphase hs
    subst hphase
    refine ⟨true, slave.buf, h.whole, fun _ => rfl, ?_⟩
    have hlong' := hlong rfl
    rw [deliver, if_neg hpos, if_neg (by omega), hs]
    rfl
  · dsimp only at hphase hs
    subst hphase
    refine ⟨cycleEnd, slave.buf, h.whole, hshort, ?_⟩
    simp only [deliver, hpos, if_false]
    exact congrArg (fun x : Slave σ => x.process g p (slave.buf.unread ++ chunk)) hs

/-- After the complete records `done`, with the bytes `keep` of the next record left over. -/
structure Stopped (g : Glue σ) (p : Port) (l : Link σ) (s : Session σ) (done : List Record)
    (keep out : Bytes) : Prop where
  trace : l.slave.bus.trace = (s.run g p done).1.bus.trace
  sock : l.slave.bus.sock = (s.run g p done).1.bus.sock
  sent : l.slave.sent.flatten = out ++ recordBytes p (s.run g p done).2
  whole : l.slave.buf.clobbered = false
  phase : l.phase = if keep = [] ∧ endsCycle s.cycleEnd done = true then .poll
    else if keep.length < p.recordAlignment ∧ endsCycle s.cycleEnd done = true then .dead else .recv
  state : l.phase ≠ .dead →
    ∃ cycleEnd, (keep.length < p.recordAlignment → cycleEnd = endsCycle s.cycleEnd done) ∧
      l.slave = Session.slave { (s.run g p done).1 with cycleEnd := cycleEnd } l.slave.buf l.slave.sent
  unread : l.phase ≠ .dead → l.slave.buf.unread = keep

theorem flush_flatten {s : Session σ} (h : s.Ok) (rs : List Record) (cycleEnd : Bool) (gap : ℕ)
    (keep : Bytes) (c : Bool) (sent : List Bytes) :
    (Session.slave { (s.run g p rs).1 with cycleEnd := cycleEnd }
        ⟨recordBytes p (s.run g p rs).2, gap, keep, c⟩ sent).flush.sent.flatten =
      sent.flatten ++ recordBytes p (s.run g p rs).2 := by
  cases hr : (s.run g p rs).1.reply with
  | true => simp [Slave.flush, Session.slave, hr]
  | false =>
    have hnil := ((Session.run_ok g p h rs).2 hr).2
    simp [Slave.flush, Session.slave, hr, hnil]

private theorem flush_parts (s : Session σ) (buf : Buffer) (sent : List Bytes) :
    (s.slave buf sent).flush = s.slave buf (s.slave buf sent).flush.sent := by
  cases hr : s.reply <;> simp [Slave.flush, Session.slave, hr]

theorem length_records {rs : List Record} (h : ∀ r ∈ rs, r.WellFormed p) :
    rs.length ≤ (recordBytes p rs).length := by
  induction rs with
  | nil => simp
  | cons r rs ih =>
    obtain ⟨hr, hrs⟩ := List.forall_mem_cons.mp h
    have := ih hrs
    have := Record.length_pos p r
    rw [recordBytes_cons, List.length_append, List.length_cons, Record.length_bytes hr]
    omega

/-- The payload loop on complete records and a part of the next one. -/
theorem slaveLoop_stops {s : Session σ} {done rest : List Record}
    (hwf : ∀ r ∈ done ++ rest, r.WellFormed p) {keep more : Bytes}
    (hrest : keep ++ more = recordBytes p rest)
    (hkeep : ∀ r ∈ rest.head?, keep.length < (r.bytes p).length) (c : Bool) (sent : List Bytes) :
    ∃ gap cycleEnd stop,
      slaveLoop g p ((recordBytes p done ++ keep).length + 1)
        (s.slave ⟨[], 0, recordBytes p done ++ keep, c⟩ sent) =
      (Session.slave { (s.run g p done).1 with cycleEnd := cycleEnd }
        ⟨recordBytes p (s.run g p done).2, gap, keep, c⟩ sent, stop) ∧
      (if keep.length < p.recordAlignment then stop = .drained ∧ cycleEnd = endsCycle s.cycleEnd done
        else stop = .incomplete) := by
  have hdone : ∀ r ∈ done, r.WellFormed p := fun r hr => hwf r (List.mem_append_left _ hr)
  have hlen := length_records hdone
  obtain ⟨fuel, hfuel⟩ : ∃ fuel, (recordBytes p done ++ keep).length + 1 = fuel + 1 + done.length :=
    ⟨(recordBytes p done).length + keep.length - done.length, by rw [List.length_append]; omega⟩
  obtain ⟨gap, hloop⟩ := slaveLoop_records (g := g) hdone s [] 0 keep c sent (fuel + 1)
  rw [List.nil_append] at hloop
  rw [hfuel, hloop]
  by_cases hshort : keep.length < p.recordAlignment
  · refine ⟨gap, endsCycle s.cycleEnd done, .drained, ?_, by simp [hshort]⟩
    rw [slaveLoop_drained _ hshort, ← Session.run_cycleEnd g p s done]
  · cases rest with
    | nil =>
      have hnil : keep = [] := (List.append_eq_nil_iff.mp hrest).1
      have := p.recordAlignment_mem
      rw [hnil] at hshort
      simp only [List.length_nil] at hshort
      omega
    | cons r rest =>
      have hlt := hkeep r rfl
      obtain ⟨more', hmore⟩ : keep <+: r.bytes p :=
        List.prefix_of_prefix_length_le (hrest ▸ List.prefix_append _ _ : keep <+: recordBytes p (r :: rest))
          (by rw [recordBytes_cons]; exact List.prefix_append _ _) hlt.le
      have hne : more' ≠ [] := by
        rintro rfl
        rw [List.append_nil] at hmore
        rw [hmore] at hlt
        omega
      refine ⟨gap, r.cyc, .incomplete, ?_, by simp [hshort]⟩
      exact slaveLoop_incomplete (hwf r (by simp)) _ ⟨_, gap, keep, c⟩ sent hmore hne
        (Nat.not_lt.mp hshort) fuel

/-- Work on some bytes of the stream. -/
theorem process_records {s : Session σ} (hok : s.Ok) {done rest : List Record}
    (hwf : ∀ r ∈ done ++ rest, r.WellFormed p) {keep more : Bytes}
    (hrest : keep ++ more = recordBytes p rest)
    (hkeep : ∀ r ∈ rest.head?, keep.length < (r.bytes p).length) (cycleEnd : Bool)
    (hfresh : done = [] → cycleEnd = s.cycleEnd ∨ p.recordAlignment ≤ keep.length)
    (buf : Buffer) (hbuf : buf.clobbered = false) (sent : List Bytes) :
    Stopped g p ((Session.slave { s with cycleEnd := cycleEnd } buf sent).process g p
      (recordBytes p done ++ keep)) s done keep sent.flatten := by
  have hra : 0 < p.recordAlignment := by rcases p.recordAlignment_mem with h | h <;> omega
  obtain ⟨gap, cycleEnd', stop, hloop, hstop⟩ := slaveLoop_stops (g := g)
    (s := { s with cycleEnd := cycleEnd }) hwf hrest hkeep buf.clobbered sent
  rw [Session.run_withEnd] at hloop
  dsimp only at hloop
  have hflush := flush_flatten (g := g) (p := p) hok done cycleEnd' gap keep buf.clobbered sent
  have hparts := flush_parts { (s.run g p done).1 with cycleEnd := cycleEnd' }
    ⟨recordBytes p (s.run g p done).2, gap, keep, buf.clobbered⟩ sent
  have hends : keep.length < p.recordAlignment → endsCycle cycleEnd done = endsCycle s.cycleEnd done := by
    intro hshort
    cases done with
    | nil =>
      rcases hfresh rfl with h | h
      · rw [h]
      · omega
    | cons r done => rfl
  rw [Slave.process]
  change Stopped g p (settle (slaveLoop g p _ (Session.slave { s with cycleEnd := cycleEnd }
    ⟨[], 0, recordBytes p done ++ keep, buf.clobbered⟩ sent))) s done keep sent.flatten
  rw [hloop]
  generalize hs' : Session.slave { (s.run g p done).1 with cycleEnd := cycleEnd' }
    ⟨recordBytes p (s.run g p done).2, gap, keep, buf.clobbered⟩ sent = s' at hflush hparts
  have hbufs : s'.flush.buf = ⟨recordBytes p (s.run g p done).2, gap, keep, buf.clobbered⟩ := by
    rw [hparts]
    rfl
  have hcycleEnd : s'.cycleEnd = cycleEnd' := by rw [← hs']; rfl
  have hunread : s'.buf.unread = keep := by rw [← hs']; rfl
  have hslave : (settle (s', stop)).slave = s'.flush := by
    cases stop with
    | drained =>
      simp only [settle]
      split
      · rfl
      · split <;> rfl
    | incomplete => rfl
  refine ⟨?_, ?_, ?_, ?_, ?_, fun _ => ?_, fun _ => ?_⟩
  · rw [hslave, hparts]
    rfl
  · rw [hslave, hparts]
    rfl
  · rw [hslave, hflush]
  · rw [hslave, hbufs, hbuf]
  · by_cases hshort : keep.length < p.recordAlignment
    · rw [if_pos hshort, hends hshort] at hstop
      obtain ⟨rfl, rfl⟩ := hstop
      simp only [settle, hcycleEnd, hunread, hshort, true_and]
      cases endsCycle s.cycleEnd done with
      | false => simp
      | true => by_cases hk : keep = [] <;> simp [hk]
    · rw [if_neg hshort] at hstop
      subst hstop
      have hne : keep ≠ [] := by
        rintro rfl
        exact hshort hra
      simp [settle, hne, hshort]
  · rw [hslave, hparts]
    refine ⟨cycleEnd', fun hshort => ?_, rfl⟩
    rw [if_pos hshort, hends hshort] at hstop
    exact hstop.2
  · rw [hslave, hbufs]

/-- A single byte at the start of a call kills the link. -/
theorem deliver_one {l : Link σ} {s : Session σ} {keep₀ out chunk : Bytes} (h : Waits p l s keep₀ out)
    (hchunk : 0 < chunk.length) (hpoll : l.phase = .poll) (hone : chunk.length < 2)
    {done rest : List Record} (hwf : ∀ r ∈ done ++ rest, r.WellFormed p) {keep : Bytes}
    (hbytes : keep₀ ++ chunk = recordBytes p done ++ keep) :
    Stopped g p (deliver g p l chunk) s done keep out := by
  have hra := p.recordAlignment_mem
  rcases h.state with ⟨-, rfl, s₀, rfl, hs⟩ | ⟨hphase, -⟩
  · have hdone : done = [] := by
      cases done with
      | nil => rfl
      | cons r done =>
        have hr := Record.recordAlignment_le (hwf r (by simp))
        have hlen := congrArg List.length hbytes
        simp only [List.nil_append, recordBytes_cons, List.length_append] at hlen
        omega
    subst hdone
    have hkeep : keep = chunk := by simpa using hbytes.symm
    subst hkeep
    have hne : keep ≠ [] := List.length_pos_iff.mp hchunk
    have hd : deliver g p l keep = ⟨.dead, l.slave⟩ := by
      simp only [deliver, hpoll]
      rw [if_neg (by omega), if_pos hone]
    rw [hd]
    refine ⟨?_, ?_, by simpa using h.sent, h.whole, ?_, by simp, by simp⟩
    · rw [hs]
      rfl
    · rw [hs]
      rfl
    · have hend : endsCycle s₀.start.cycleEnd [] = true := rfl
      rw [hend, if_neg (by simp [hne]), if_pos ⟨by omega, rfl⟩]
  · rw [hpoll] at hphase
    simp at hphase

theorem deliver_stopped {l : Link σ} {s : Session σ} {keep₀ out chunk : Bytes}
    (h : Waits p l s keep₀ out) (hchunk : 0 < chunk.length) {done rest : List Record}
    (hwf : ∀ r ∈ done ++ rest, r.WellFormed p) {keep more : Bytes}
    (hbytes : keep₀ ++ chunk = recordBytes p done ++ keep) (hrest : keep ++ more = recordBytes p rest)
    (hkeep : ∀ r ∈ rest.head?, keep.length < (r.bytes p).length) :
    Stopped g p (deliver g p l chunk) s done keep out := by
  by_cases hone : l.phase = .poll ∧ chunk.length < 2
  · exact deliver_one h hchunk hone.1 hone.2 hwf hbytes
  obtain ⟨cycleEnd, buf, hbuf, hfresh, hprocess⟩ := deliver_process (g := g) h hchunk
    (fun hp => Nat.not_lt.mp fun hlt => hone ⟨hp, hlt⟩)
  rw [hprocess, hbytes, ← h.sent]
  apply process_records h.ok hwf hrest hkeep cycleEnd _ buf hbuf
  rintro rfl
  have hlen := congrArg List.length hbytes
  simp only [recordBytes_nil, List.nil_append, List.length_append] at hlen
  by_cases hshort : keep₀.length < p.recordAlignment
  · exact Or.inl (hfresh hshort)
  · exact Or.inr (by omega)

/-- When a chunk ended with a cycle, the next call starts afresh. -/
theorem Stopped.waits_poll {l : Link σ} {s : Session σ} {done : List Record} {out : Bytes}
    (h : Stopped g p l s done [] out) (hend : endsCycle s.cycleEnd done = true) :
    Waits p l (s.run g p done).1.start [] (out ++ recordBytes p (s.run g p done).2) := by
  have hphase : l.phase = .poll := by rw [h.phase, if_pos ⟨rfl, hend⟩]
  obtain ⟨cycleEnd, -, hslave⟩ := h.state (by rw [hphase]; decide)
  refine ⟨Session.start_ok _, h.sent, h.whole, by simp [hphase], Or.inl ⟨hphase, rfl, _, ?_, hslave⟩⟩
  rfl

/-- Otherwise, unless the link died, the session goes on. -/
theorem Stopped.waits_recv {l : Link σ} {s : Session σ} {done : List Record} {keep out : Bytes}
    (hok : s.Ok) (h : Stopped g p l s done keep out)
    (hend : endsCycle s.cycleEnd done = false ∨ p.recordAlignment ≤ keep.length) :
    l.phase = .recv ∧
      Waits p l (s.run g p done).1 keep (out ++ recordBytes p (s.run g p done).2) := by
  have hra : 0 < p.recordAlignment := by rcases p.recordAlignment_mem with h | h <;> omega
  have hphase : l.phase = .recv := by
    rw [h.phase]
    rcases hend with hf | hlong
    · simp [hf]
    · have hne : keep ≠ [] := by
        rintro rfl
        simp only [List.length_nil] at hlong
        omega
      simp [hne, Nat.not_lt.mpr hlong]
  have halive : l.phase ≠ .dead := by rw [hphase]; decide
  obtain ⟨cycleEnd, hshort, hslave⟩ := h.state halive
  refine ⟨hphase, (Session.run_ok g p hok done).1, h.sent, h.whole, fun _ hlt => ?_,
    Or.inr ⟨hphase, h.unread halive, cycleEnd, fun hlt => ?_, hslave⟩⟩
  · rw [Session.run_cycleEnd]
    exact hend.resolve_right (by omega)
  · rw [Session.run_cycleEnd]
    exact hshort hlt

theorem deliverAll_dead {l : Link σ} (h : l.phase = .dead) (chunks : List Bytes) :
    deliverAll g p l chunks = l := by
  induction chunks with
  | nil => rfl
  | cons c cs ih =>
    have hd : deliver g p l c = l := by simp [deliver, h]
    rw [deliverAll, List.foldl_cons, hd]
    exact ih

end Deliver

/-- No cut lies inside the first header of a cycle, from offset `o` on. -/
def HeadersWhole (p : Port) (cut : ℕ → Bool) : ℕ → Bool → List Record → Prop
  | _, _, [] => True
  | o, fresh, r :: rs =>
    (fresh = true → ∀ i, 0 < i → i < p.recordAlignment → cut (o + i) = false) ∧
      HeadersWhole p cut (o + (r.bytes p).length) r.cyc rs

theorem headersWhole_append {p : Port} {cut : ℕ → Bool} {o : ℕ} {fresh : Bool} {rs ts : List Record} :
    HeadersWhole p cut o fresh (rs ++ ts) ↔ HeadersWhole p cut o fresh rs ∧
      HeadersWhole p cut (o + (recordBytes p rs).length) (endsCycle fresh rs) ts := by
  induction rs generalizing o fresh with
  | nil => simp [HeadersWhole, endsCycle]
  | cons r rs ih =>
    simp only [List.cons_append, HeadersWhole, ih, endsCycle_cons, recordBytes_cons,
      List.length_append, Nat.add_assoc, and_assoc]

/-- Without cuts after the first record only its header matters. -/
theorem headersWhole_quiet {p : Port} {cut : ℕ → Bool} {o : ℕ} {fresh : Bool} {r : Record}
    {rs : List Record} (hwf : ∀ x ∈ r :: rs, x.WellFormed p)
    (hhead : fresh = true → ∀ i, 0 < i → i < p.recordAlignment → cut (o + i) = false)
    (hquiet : ∀ i, (r.bytes p).length < i → i < (recordBytes p (r :: rs)).length →
      cut (o + i) = false) :
    HeadersWhole p cut o fresh (r :: rs) := by
  induction rs generalizing o fresh r with
  | nil => exact ⟨hhead, trivial⟩
  | cons r' rs ih =>
    obtain ⟨-, hwf'⟩ := List.forall_mem_cons.mp hwf
    have hle := Record.recordAlignment_le (hwf' r' (by simp))
    have hsum : (recordBytes p (r :: r' :: rs)).length =
        (r.bytes p).length + (recordBytes p (r' :: rs)).length := by simp
    have hsum' : (recordBytes p (r' :: rs)).length =
        (r'.bytes p).length + (recordBytes p rs).length := by simp
    refine ⟨hhead, ih hwf' ?_ ?_⟩
    · intro _ i hpos hi
      have := hquiet ((r.bytes p).length + i) (by omega) (by omega)
      rwa [← Nat.add_assoc] at this
    · intro i hlo hhi
      have := hquiet ((r.bytes p).length + i) (by omega) (by omega)
      rwa [← Nat.add_assoc] at this

section Run

variable {σ : Type} {g : Glue σ} {p : Port} {cut : ℕ → Bool}

/-- The link shows what the records `done` did, starting at offset `o` in session `s`. -/
structure Played (g : Glue σ) (p : Port) (cut : ℕ → Bool) (l : Link σ) (o : ℕ) (s : Session σ)
    (done : List Record) (out : Bytes) : Prop where
  trace : l.slave.bus.trace = (s.replay g p cut o done).1.bus.trace
  sock : l.slave.bus.sock = (s.replay g p cut o done).1.bus.sock
  sent : l.slave.sent.flatten = out ++ recordBytes p (s.replay g p cut o done).2
  whole : l.slave.buf.clobbered = false

/-- All records were executed, or the link died at the header of a cycle. -/
def Outcome (g : Glue σ) (p : Port) (cut : ℕ → Bool) (l : Link σ) (o : ℕ) (s : Session σ)
    (rs : List Record) (out : Bytes) : Prop :=
  (Played g p cut l o s rs out ∧ HeadersWhole p cut o s.cycleEnd rs ∧
      (endsCycle s.cycleEnd rs = true → l.phase = .poll)) ∨
    ∃ done rest, rs = done ++ rest ∧ rest ≠ [] ∧ Played g p cut l o s done out ∧ l.phase = .dead ∧
      HeadersWhole p cut o s.cycleEnd done ∧ endsCycle s.cycleEnd done = true ∧
      ∃ i, 0 < i ∧ i < p.recordAlignment ∧ cut (o + (recordBytes p done).length + i) = true

/-- Records already executed can be put in front of an outcome. -/
theorem Outcome.prepend {l : Link σ} {o : ℕ} {s : Session σ} {done rest : List Record} {out : Bytes}
    (hw : HeadersWhole p cut o s.cycleEnd done)
    (hend : (s.replay g p cut o done).1.cycleEnd = endsCycle s.cycleEnd done)
    (h : Outcome g p cut l (o + (recordBytes p done).length) (s.replay g p cut o done).1 rest
      (out ++ recordBytes p (s.replay g p cut o done).2)) :
    Outcome g p cut l o s (done ++ rest) out := by
  have hplayed : ∀ ts, Played g p cut l (o + (recordBytes p done).length) (s.replay g p cut o done).1 ts
      (out ++ recordBytes p (s.replay g p cut o done).2) → Played g p cut l o s (done ++ ts) out := by
    intro ts hp
    have hsplit := Session.replay_append g p cut o s done ts
    refine ⟨?_, ?_, ?_, hp.whole⟩
    · rw [hsplit]; exact hp.trace
    · rw [hsplit]; exact hp.sock
    · rw [hsplit, hp.sent, recordBytes_append, List.append_assoc]
  have hends : ∀ ts, endsCycle s.cycleEnd (done ++ ts) = endsCycle (endsCycle s.cycleEnd done) ts := by
    intro ts
    simp [endsCycle]
  rcases h with ⟨hp, hheaders, hphase⟩ |
    ⟨done', rest', rfl, hne, hp, hphase, hheaders, hend', i, h0, hi, hcut⟩
  · rw [hend] at hheaders hphase
    refine Or.inl ⟨hplayed _ hp, headersWhole_append.mpr ⟨hw, hheaders⟩, ?_⟩
    rw [hends]
    exact hphase
  · rw [hend] at hheaders hend'
    rw [← hends] at hend'
    refine Or.inr ⟨done ++ done', rest', by simp, hne, hplayed _ hp, hphase,
      headersWhole_append.mpr ⟨hw, hheaders⟩, hend', i, h0, hi, ?_⟩
    rw [recordBytes_append, List.length_append, ← Nat.add_assoc]
    exact hcut

/-- Between two chunks at offset `o + keep.length` of the stream, where `rs` are the records
from offset `o` on and `cut` marks the ends of the chunks still to come. -/
structure Pending (p : Port) (cut : ℕ → Bool) (chunks : List Bytes) (l : Link σ) (o : ℕ)
    (s : Session σ) (rs : List Record) (keep out : Bytes) : Prop where
  waits : Waits p l s keep out
  wellFormed : ∀ r ∈ rs, r.WellFormed p
  bytes : keep ++ chunks.flatten = recordBytes p rs
  partial_head : ∀ r ∈ rs.head?, keep.length < (r.bytes p).length
  cuts : ∀ i, cut (o + keep.length + i) = true ↔ i ∈ boundaries chunks
  /-- The kept bytes came without a cut in the header of a cycle. -/
  past : s.cycleEnd = true → ∀ i, 0 < i → i < p.recordAlignment → i < keep.length →
    cut (o + i) = false

namespace Pending

variable {c : Bytes} {cs : List Bytes} {l : Link σ} {o : ℕ} {s : Session σ} {rs : List Record}
  {keep out : Bytes}

/-- The next cut after the kept bytes is the end of the next chunk. -/
theorem quiet (h : Pending p cut (c :: cs) l o s rs keep out) :
    ∀ i, keep.length < i → i < keep.length + c.length → cut (o + i) = false := by
  intro i hlo hhi
  rw [Bool.eq_false_iff]
  intro ht
  obtain ⟨j, rfl⟩ := Nat.exists_eq_add_of_le hlo.le
  have hmem := (h.cuts j).mp (by rwa [Nat.add_assoc])
  rw [boundaries_cons, List.mem_cons, List.mem_map] at hmem
  rcases hmem with h0 | ⟨k, -, hk⟩ <;> omega

theorem next_cuts (h : Pending p cut (c :: cs) l o s rs keep out) (hc : 0 < c.length) (i : ℕ) :
    cut (o + (keep.length + c.length) + i) = true ↔ i ∈ boundaries cs := by
  rw [← Nat.add_assoc o, Nat.add_assoc (o + keep.length), h.cuts, boundaries_cons, List.mem_cons,
    List.mem_map]
  constructor
  · rintro (h0 | ⟨k, hk, he⟩)
    · omega
    · rwa [Nat.add_left_cancel he] at hk
  · exact fun hi => Or.inr ⟨i, hi, rfl⟩

/-- No cut lies in the header that the next chunk begins with or continues. -/
theorem head_quiet (h : Pending p cut (c :: cs) l o s rs keep out) (hend : s.cycleEnd = true) {i : ℕ}
    (h0 : 0 < i) (hi : i < p.recordAlignment) (hlt : i < keep.length + c.length) :
    cut (o + i) = false := by
  rcases Nat.lt_trichotomy i keep.length with hik | hik | hik
  · exact h.past hend i h0 hi hik
  · rcases h.waits.state with ⟨-, hnil, -⟩ | ⟨hphase, -⟩
    · rw [hnil] at hik
      simp only [List.length_nil] at hik
      omega
    · have := h.waits.inside hphase (by omega)
      exact absurd (hend.symm.trans this) (by decide)
  · exact h.quiet i hik hlt

end Pending

/-- A chunk brings the records `done` and leaves `keep'` of the next one. -/
structure Brings (p : Port) (c : Bytes) (cs : List Bytes) (rs : List Record) (keep : Bytes)
    (done rest : List Record) (keep' : Bytes) : Prop where
  records : rs = done ++ rest
  split : keep ++ c = recordBytes p done ++ keep'
  bytes : keep' ++ cs.flatten = recordBytes p rest
  partial_head : ∀ r ∈ rest.head?, keep'.length < (r.bytes p).length

namespace Brings

variable {c : Bytes} {cs : List Bytes} {l : Link σ} {o : ℕ} {s : Session σ} {rs : List Record}
  {keep out : Bytes} {done rest : List Record} {keep' : Bytes}

theorem length (hb : Brings p c cs rs keep done rest keep') :
    keep.length + c.length = (recordBytes p done).length + keep'.length := by
  rw [← List.length_append, hb.split, List.length_append]

theorem first_long (hb : Brings p c cs rs keep done rest keep')
    (h : Pending p cut (c :: cs) l o s rs keep out) {r : Record} {done' : List Record}
    (hd : done = r :: done') : keep.length < (r.bytes p).length :=
  h.partial_head r (by rw [hb.records, hd]; rfl)

theorem done_long (hb : Brings p c cs rs keep done rest keep')
    (h : Pending p cut (c :: cs) l o s rs keep out) (hne : done ≠ []) :
    keep.length < (recordBytes p done).length := by
  obtain ⟨r, done', hd⟩ := List.exists_cons_of_ne_nil hne
  have hlt := hb.first_long h hd
  rw [hd, recordBytes_cons, List.length_append]
  omega

theorem done_wellFormed (hb : Brings p c cs rs keep done rest keep')
    (h : Pending p cut (c :: cs) l o s rs keep out) : ∀ r ∈ done, r.WellFormed p :=
  fun r hr => h.wellFormed r (by rw [hb.records]; exact List.mem_append_left _ hr)

theorem headersWhole (hb : Brings p c cs rs keep done rest keep')
    (h : Pending p cut (c :: cs) l o s rs keep out) : HeadersWhole p cut o s.cycleEnd done := by
  have hlen := hb.length
  have hdone := hb.done_wellFormed h
  cases hd : done with
  | nil => trivial
  | cons r done' =>
    rw [hd] at hlen hdone
    have hlt := hb.first_long h hd
    have hra := Record.recordAlignment_le (hdone r (by simp))
    have hsum : (recordBytes p (r :: done')).length =
        (r.bytes p).length + (recordBytes p done').length := by simp
    apply headersWhole_quiet hdone
    · exact fun hend i h0 hi => h.head_quiet hend h0 hi (by omega)
    · exact fun i hlo hhi => h.quiet i (by omega) (by omega)

/-- Within the chunk the session does not end. -/
theorem replay (hb : Brings p c cs rs keep done rest keep')
    (h : Pending p cut (c :: cs) l o s rs keep out) (hne : done ≠ []) :
    s.replay g p cut o done =
      (if cut (o + (recordBytes p done).length) && endsCycle s.cycleEnd done then
        (s.run g p done).1.start else (s.run g p done).1, (s.run g p done).2) := by
  apply Session.replay_run g p cut hne
  intro rs' rs'' he hne' hne''
  obtain ⟨r, rs', rfl⟩ := List.exists_cons_of_ne_nil hne'
  obtain ⟨x, rs'', rfl⟩ := List.exists_cons_of_ne_nil hne''
  have hlen := hb.length
  have hlt := hb.first_long h (show done = r :: (rs' ++ x :: rs'') by rw [he]; rfl)
  have hx := Record.recordAlignment_le (hb.done_wellFormed h x (by rw [he]; simp))
  have hra := p.recordAlignment_mem
  have hsum := congrArg (fun l => (recordBytes p l).length) he
  simp only [recordBytes_append, recordBytes_cons, List.length_append] at hsum ⊢
  exact h.quiet _ (by omega) (by omega)

/-- When the cycle or a record is still open, the session goes on after the chunk. -/
theorem replay_open (hb : Brings p c cs rs keep done rest keep')
    (h : Pending p cut (c :: cs) l o s rs keep out)
    (hopen : keep' ≠ [] ∨ endsCycle s.cycleEnd done = false) :
    s.replay g p cut o done = s.run g p done := by
  by_cases hne : done = []
  · rw [hne]
    rfl
  · have hlen := hb.length
    rw [hb.replay h hne]
    rcases hopen with hk | hend
    · have hklen := List.length_pos_iff.mpr hk
      rw [h.quiet _ (hb.done_long h hne) (by omega)]
      rfl
    · simp [hend]

/-- When the chunk ends with a cycle, so does the session. -/
theorem replay_closed (hb : Brings p c cs rs keep done rest [])
    (h : Pending p cut (c :: cs) l o s rs keep out) (hc : 0 < c.length)
    (hend : endsCycle s.cycleEnd done = true) :
    s.replay g p cut o done = ((s.run g p done).1.start, (s.run g p done).2) := by
  have hlen := hb.length
  rw [List.length_nil, Nat.add_zero] at hlen
  have hne : done ≠ [] := by
    rintro rfl
    rw [recordBytes_nil, List.length_nil] at hlen
    omega
  have hcut := (h.next_cuts hc 0).mpr (zero_mem_boundaries cs)
  rw [Nat.add_zero, hlen] at hcut
  rw [hb.replay h hne, hcut, hend]
  rfl

/-- The link waits for the next chunk. -/
theorem pending (hb : Brings p c cs rs keep done rest keep')
    (h : Pending p cut (c :: cs) l o s rs keep out) (hc : 0 < c.length) {l' : Link σ} {s' : Session σ}
    {out' : Bytes} (hw : Waits p l' s' keep' out') (hend : s'.cycleEnd = endsCycle s.cycleEnd done) :
    Pending p cut cs l' (o + (recordBytes p done).length) s' rest keep' out' := by
  have hlen := hb.length
  refine ⟨hw, fun r hr => h.wellFormed r (by rw [hb.records]; exact List.mem_append_right _ hr),
    hb.bytes, hb.partial_head, ?_, ?_⟩
  · intro i
    rw [Nat.add_assoc o, ← hlen]
    exact h.next_cuts hc i
  · rw [hend]
    intro he i h0 hi hlt
    by_cases hne : done = []
    · subst hne
      rw [recordBytes_nil, List.length_nil] at hlen ⊢
      exact h.head_quiet he h0 hi (by omega)
    · have := hb.done_long h hne
      rw [Nat.add_assoc]
      exact h.quiet _ (by omega) (by omega)

end Brings

theorem deliverAll_outcome {chunks : List Bytes} (hchunks : ∀ c ∈ chunks, c ≠ []) {l : Link σ}
    {s : Session σ} {keep out : Bytes} {o : ℕ} {rs : List Record}
    (h : Pending p cut chunks l o s rs keep out) :
    Outcome g p cut (deliverAll g p l chunks) o s rs out := by
  induction chunks generalizing l s keep out o rs with
  | nil =>
    have hrs : rs = [] := by
      cases rs with
      | nil => rfl
      | cons r rs =>
        have hlt := h.partial_head r rfl
        have hlen := congrArg List.length h.bytes
        simp only [List.flatten_nil, List.append_nil, recordBytes_cons, List.length_append] at hlen
        omega
    subst hrs
    have hkeep : keep = [] := by simpa using h.bytes
    subst hkeep
    have hw := h.waits
    refine Or.inl ⟨⟨?_, ?_, by simpa [deliverAll] using hw.sent, hw.whole⟩, trivial, fun hend => ?_⟩
    · rcases hw.state with ⟨-, -, s₀, rfl, hs⟩ | ⟨-, -, _, -, hs⟩ <;>
        rw [deliverAll, List.foldl_nil, hs] <;> rfl
    · rcases hw.state with ⟨-, -, s₀, rfl, hs⟩ | ⟨-, -, _, -, hs⟩ <;>
        rw [deliverAll, List.foldl_nil, hs] <;> rfl
    · rcases hw.state with ⟨hp, -⟩ | ⟨hp, -⟩
      · exact hp
      · have hopen := hw.inside hp (by rcases p.recordAlignment_mem with h | h <;> simp [h])
        exact absurd (hend.symm.trans hopen) (by decide)
  | cons c cs ih =>
    obtain ⟨hc, hcs⟩ := List.forall_mem_cons.mp hchunks
    have hpos : 0 < c.length := List.length_pos_iff.mpr hc
    have hbytes := h.bytes
    rw [List.flatten_cons, ← List.append_assoc] at hbytes
    obtain ⟨done, rest, keep', hrecords, hsplit, hrest, hkeep'⟩ := split_records hbytes
    have hb : Brings p c cs rs keep done rest keep' := ⟨hrecords, hsplit, hrest, hkeep'⟩
    have hstop := deliver_stopped (g := g) h.waits hpos (hrecords ▸ h.wellFormed) hsplit hrest hkeep'
    have hwhole := hb.headersWhole h
    rw [deliverAll, List.foldl_cons, hrecords]
    by_cases hpoll : keep' = [] ∧ endsCycle s.cycleEnd done = true
    · obtain ⟨rfl, hend⟩ := hpoll
      have hrep := hb.replay_closed (g := g) h hpos hend
      apply Outcome.prepend hwhole
      · rw [hrep, hend]
        rfl
      · rw [hrep]
        exact ih hcs (hb.pending h hpos (hstop.waits_poll hend) hend.symm)
    by_cases hdead : keep'.length < p.recordAlignment ∧ endsCycle s.cycleEnd done = true
    · have hphase : (deliver g p l c).phase = .dead := by rw [hstop.phase, if_neg hpoll, if_pos hdead]
      have hkne : keep' ≠ [] := fun h0 => hpoll ⟨h0, hdead.2⟩
      have hall : List.foldl (deliver g p) (deliver g p l c) cs = deliver g p l c :=
        deliverAll_dead hphase cs
      have hrep := hb.replay_open (g := g) h (Or.inl hkne)
      have hcut := (h.next_cuts hpos 0).mpr (zero_mem_boundaries cs)
      rw [Nat.add_zero, hb.length, ← Nat.add_assoc] at hcut
      rw [hall]
      refine Or.inr ⟨done, rest, rfl, ?_, ⟨?_, ?_, ?_, hstop.whole⟩, hphase, hwhole, hdead.2,
        keep'.length, List.length_pos_iff.mpr hkne, hdead.1, hcut⟩
      · rintro rfl
        exact hkne (List.append_eq_nil_iff.mp hrest).1
      · rw [hrep, hstop.trace]
      · rw [hrep, hstop.sock]
      · rw [hrep, hstop.sent]
    · have hopen : keep' ≠ [] ∨ endsCycle s.cycleEnd done = false := by
        by_cases hk : keep' = []
        · exact Or.inr (Bool.eq_false_iff.mpr fun ht => hpoll ⟨hk, ht⟩)
        · exact Or.inl hk
      have hgoon : endsCycle s.cycleEnd done = false ∨ p.recordAlignment ≤ keep'.length := by
        cases hend : endsCycle s.cycleEnd done with
        | false => exact Or.inl rfl
        | true => exact Or.inr (Nat.not_lt.mp fun hlt => hdead ⟨hlt, hend⟩)
      obtain ⟨-, hwaits⟩ := hstop.waits_recv h.waits.ok hgoon
      have hrep := hb.replay_open (g := g) h hopen
      have hend := Session.run_cycleEnd g p s done
      apply Outcome.prepend hwhole
      · rw [hrep, hend]
      · rw [hrep]
        exact ih hcs (hb.pending h hpos hwaits hend)

end Run

end WhiteRabbit.Etherbone
