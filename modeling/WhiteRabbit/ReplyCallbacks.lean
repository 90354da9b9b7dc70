import WhiteRabbit.CycleResults
import WhiteRabbit.ReplyFraming

/-!
# The callbacks of a reply

A socket takes in the reply to the cycles of a message: the calls of `eb_socket_write_config` find the responses
of these cycles one after the other, and the last call for a response runs its callback.
-/

namespace WhiteRabbit.Etherbone
open BigEndian StepRuns

/-- `eb_socket_write_config` on a socket, with callbacks that return at once. What they are handed is kept. -/
def takeIn (x : Machine × List Handed) (widths addr value : ℕ) : Machine × List Handed :=
  ({ x.1.ebSocketWriteConfig widths addr value with stack := x.1.stack },
    x.2 ++ (x.1.handed (.writeBack widths addr value)).toList)

section Search

variable {m : Machine} {l : List Handed} {before after : List Flight} {f : Flight} {widths addr value : ℕ}

/-- The search finds the first response with the address. -/
theorem search_at (hqueue : m.queue = before ++ f :: after)
    (hbefore : ∀ g ∈ before, g.response.address ≠ addr &&& 0xFFFE) (hf : f.response.address = addr &&& 0xFFFE) :
    ∃ first last rest,
      (if m.first.all (fun f => f.response.address != addr &&& 0xFFFE) then m.refill else m) =
        { m with first := first, last := last } ∧
      first.takeWhile (fun f => f.response.address != addr &&& 0xFFFE) = before ∧
      first.dropWhile (fun f => f.response.address != addr &&& 0xFFFE) = f :: rest ∧ rest ++ last.reverse = after := by
  generalize hother : (fun f : Flight => f.response.address != addr &&& 0xFFFE) = other
  have hne : ∀ g, other g = true ↔ g.response.address ≠ addr &&& 0xFFFE := by
    intro g
    rw [← hother]
    exact bne_iff_ne
  have hpass : ∀ g ∈ before, other g = true := fun g hg => (hne g).mpr (hbefore g hg)
  have hstop : other f = false := by
    rw [Bool.eq_false_iff]
    exact fun h => (hne f).mp h hf
  have hsplit : ∀ rest, (before ++ f :: rest).takeWhile other = before ∧
      (before ++ f :: rest).dropWhile other = f :: rest := by
    intro rest
    rw [List.takeWhile_append_of_pos hpass, List.dropWhile_append_of_pos hpass, List.takeWhile_cons, List.dropWhile_cons,
      hstop]
    simp
  by_cases hall : m.first.all other = true
  · refine ⟨m.queue, [], after, if_pos hall, ?_, ?_, List.append_nil _⟩
    · rw [hqueue]
      exact (hsplit after).1
    · rw [hqueue]
      exact (hsplit after).2
  · obtain ⟨rest, hfirst, hafter⟩ : ∃ rest, m.first = before ++ f :: rest ∧ rest ++ m.last.reverse = after := by
      rw [Machine.queue] at hqueue
      rcases List.append_eq_append_iff.mp hqueue with ⟨as, hb, -⟩ | ⟨bs, hfirst, hlast⟩
      · refine absurd (List.all_eq_true.mpr fun g hg => ?_) hall
        exact hpass g (by rw [hb]; exact List.mem_append_left _ hg)
      · cases bs with
        | nil =>
          rw [List.append_nil] at hfirst
          exact absurd (List.all_eq_true.mpr fun g hg => hpass g (hfirst ▸ hg)) hall
        | cons b bs =>
          rw [List.cons_append, List.cons.injEq] at hlast
          obtain ⟨rfl, rfl⟩ := hlast
          exact ⟨bs, hfirst, rfl⟩
    refine ⟨m.first, m.last, rest, if_neg hall, ?_, ?_, hafter⟩
    · rw [hfirst]
      exact (hsplit rest).1
    · rw [hfirst]
      exact (hsplit rest).2

/-- A write-back that does not complete the response. -/
theorem takeIn_open {r : Response} (hqueue : m.queue = before ++ f :: after)
    (hbefore : ∀ g ∈ before, g.response.address ≠ addr &&& 0xFFFE) (hf : f.response.address = addr &&& 0xFFFE)
    (hr : f.response.writeBack widths addr value = (r, none)) :
    ∃ first last, takeIn (m, l) widths addr value = ({ m with first := first, last := last }, l) ∧
      first ++ last.reverse = before ++ { f with response := r } :: after := by
  obtain ⟨first, last, rest, hsearch, htake, hdrop, hrest⟩ := search_at hqueue hbefore hf
  refine ⟨before ++ { f with response := r } :: rest, last, ?_, by rw [List.append_assoc, List.cons_append, hrest]⟩
  simp only [takeIn, Machine.ebSocketWriteConfig, Machine.handed, hsearch, htake, hdrop, hr, Option.map_none,
    Option.toList_none, List.append_nil]

/-- The write-back that completes it. -/
theorem takeIn_last {r : Response} {status : Status} (hqueue : m.queue = before ++ f :: after)
    (hbefore : ∀ g ∈ before, g.response.address ≠ addr &&& 0xFFFE) (hf : f.response.address = addr &&& 0xFFFE)
    (hr : f.response.writeBack widths addr value = (r, some status)) :
    ∃ first last, takeIn (m, l) widths addr value =
        ({ m with first := first, last := last, log := m.log ++ [.called f.cycle status] },
          l ++ [Flight.handed { f with response := r }]) ∧
      first ++ last.reverse = before ++ after := by
  obtain ⟨first, last, rest, hsearch, htake, hdrop, hrest⟩ := search_at hqueue hbefore hf
  refine ⟨before ++ rest, last, ?_, by rw [List.append_assoc, hrest]⟩
  simp only [takeIn, Machine.ebSocketWriteConfig, Machine.handed, hsearch, htake, hdrop, hr, Option.map_some,
    Option.toList_some, Machine.call]

end Search

/-- All write-backs of a response, where it stands in the queue. -/
theorem takeIn_writes {r r' : Response} {ws : List WriteBack} (hw : r.Writes ws r') (hcomplete : r'.Complete) (hne : ws ≠ [])
    {m : Machine} {l : List Handed} {before after : List Flight} {f : Flight} (hqueue : m.queue = before ++ f :: after)
    (hr : f.response = r) (hbefore : ∀ g ∈ before, g.response.address ≠ r.address)
    (haddr : ∀ w ∈ ws, w.addr &&& 0xFFFE = r.address) :
    ∃ first last, ws.foldl (fun x w => takeIn x w.widths w.addr w.value) (m, l) =
        ({ m with first := first, last := last, log := m.log ++ [.called f.cycle r'.status] },
          l ++ [Flight.handed { f with response := r' }]) ∧
      first ++ last.reverse = before ++ after := by
  induction hw generalizing m f with
  | nil => exact absurd rfl hne
  | @cons r r₁ r' w ws _ hwrite hwrites ih =>
    obtain ⟨hname, hnames⟩ := List.forall_mem_cons.mp haddr
    have hsame : r₁.address = r.address := by
      have := (r.writeBack_address w.widths w.addr w.value).1
      rwa [hwrite] at this
    have hfound : f.response.address = w.addr &&& 0xFFFE := by rw [hr, hname]
    rw [← hname] at hbefore
    rw [List.foldl_cons]
    cases hwrites with
    | nil =>
      rw [if_pos hcomplete, ← hr] at hwrite
      rw [List.foldl_nil]
      exact takeIn_last hqueue hbefore hfound hwrite
    | @cons _ _ _ w' ws hopen hwrite' hwrites =>
      rw [if_neg hopen, ← hr] at hwrite
      obtain ⟨first, last, htake, hqueue'⟩ := takeIn_open (l := l) hqueue hbefore hfound hwrite
      rw [htake]
      rw [hname, ← hsame] at hbefore
      exact ih (f := { f with response := r₁ }) hcomplete (List.cons_ne_nil _ _) hqueue' rfl hbefore
        fun w hw => (hnames w hw).trans hsame.symm

/-- A cycle that was sent, with the address that its response has or would have. -/
structure SentCycle where
  cycle : ℕ
  address : ℕ
  ops : List Operation

namespace SentCycle

variable (p : Port) (x : SentCycle)

def records : List Record := (encodeCycle p x.address x.ops).getD []

/-- The cycle waits for a reply. -/
def Waits : Prop := ∃ r ∈ x.records p, r.HasReads

instance : Decidable (x.Waits p) := inferInstanceAs (Decidable (∃ r ∈ x.records p, r.HasReads))

/-- What a flush sends: operations that passed their checks, under an address for write-backs. -/
structure Valid : Prop where
  address_lt : x.address < 2 ^ 16
  address_even : x.address % 2 = 0
  nonempty : x.ops ≠ []
  formatted : ∀ op ∈ x.ops, Formatted p op
  length_lt : x.ops.length < 2 ^ 32 - 1

/-- The response that a flush sets up for the cycle. -/
structure Awaits (f : Flight) : Prop where
  cycle : f.cycle = x.cycle
  response : f.response = Response.start x.address f.response.deadline f.response.device x.ops

end SentCycle

section Replies

variable {σ : Type} (g : Glue σ) (p : Port)

/-- The cycles that wait for a reply, with the answers to their operations. -/
def answered : σ → ℕ → List SentCycle → List (ℕ × List Operation)
  | _, _, [] => []
  | s, error, x :: xs =>
    (if x.Waits p then [(x.cycle, answers g p (needsCheck x.ops) s error x.ops)] else []) ++
      answered (sockAll g s (x.ops.map (Operation.access p)))
        (register error (marks g s (x.ops.map (Operation.access p)))) xs

/-- The status that a cycle is called back with. -/
def statusOf (ops : List Operation) : Status := if ops.any Operation.error then .segfault else .ok

/-- The callbacks of some answered cycles. -/
def calledBack (done : List (ℕ × List Operation)) : List SocketEvent :=
  done.map fun d => .called d.1 (statusOf d.2)

/-- What these callbacks are handed. -/
def handedOver (done : List (ℕ × List Operation)) : List Handed :=
  done.map fun d => ⟨d.1, { ops := d.2 }, Queued.unOps { ops := d.2 }⟩

variable {g p} {m : Machine} {l : List Handed} {older fs : List Flight} {xs : List SentCycle}

/-- Some cycles of the machine are done, and have left its queue. -/
def Finished (x : Machine × List Handed) (queue : List Flight) (done : List (ℕ × List Operation))
    (y : Machine × List Handed) : Prop :=
  ∃ first last, y = ({ x.1 with first := first, last := last, log := x.1.log ++ calledBack done }, x.2 ++ handedOver done) ∧
    first ++ last.reverse = queue

/-- The response that waits for a cycle has its address. -/
theorem awaits_mem (h : List.Forall₂ SentCycle.Awaits xs fs) {x : SentCycle} (hx : x ∈ xs) :
    ∃ f ∈ fs, f.response.address = x.address := by
  induction h with
  | nil => exact absurd hx List.not_mem_nil
  | @cons y f xs fs hf _ ih =>
    rcases List.mem_cons.mp hx with rfl | hx
    · exact ⟨f, List.mem_cons_self, by rw [hf.response]; rfl⟩
    · obtain ⟨f', hf', haddr⟩ := ih hx
      exact ⟨f', List.mem_cons_of_mem _ hf', haddr⟩

theorem SentCycle.Valid.encoded {x : SentCycle} (h : x.Valid p) :
    ∃ segs, segmentOperations segs = x.ops ∧
      Encoded p (needsCheck x.ops) (maxOps p (needsCheck x.ops)) x.address 0 segs (x.records p) := by
  obtain ⟨segs, recs, hrun, hops, henc⟩ := encodeCycle_spec h.address_lt h.nonempty h.formatted
  rw [SentCycle.records, hrun]
  exact ⟨segs, hops, henc⟩

theorem Finished.trans {x y z : Machine × List Handed} {queue queue' : List Flight} {done done' : List (ℕ × List Operation)}
    (h : Finished x queue done y) (h' : Finished y queue' done' z) : Finished x queue' (done ++ done') z := by
  obtain ⟨first, last, rfl, -⟩ := h
  obtain ⟨first', last', rfl, hqueue⟩ := h'
  refine ⟨first', last', ?_, hqueue⟩
  simp only [calledBack, handedOver, List.map_append, List.append_assoc]

theorem Finished.queue_eq {x y : Machine × List Handed} {queue : List Flight} {done : List (ℕ × List Operation)}
    (h : Finished x queue done y) : y.1.queue = queue := by
  obtain ⟨first, last, rfl, hqueue⟩ := h
  exact hqueue

/-- A socket that makes the calls of a reply. -/
theorem sockAll_takeIn {gm : Glue (Machine × List Handed)} (hgm : gm.writeConfig = takeIn) (x : Machine × List Handed)
    (ws : List WriteBack) :
    sockAll gm x (ws.map fun w => .writeConfig w.widths w.addr w.value) =
      ws.foldl (fun x w => takeIn x w.widths w.addr w.value) x := by
  rw [sockAll, List.foldl_map]
  simp only [sockAfter, hgm]

/-- The reply to one cycle. -/
theorem SentCycle.Valid.finish {gm : Glue (Machine × List Handed)} (hgm : gm.writeConfig = takeIn) {x : SentCycle}
    (h : x.Valid p) (hwaits : x.Waits p) (s : Session σ) {f : Flight} (hf : x.Awaits f) {later : List Flight}
    (hqueue : m.queue = older ++ f :: later) (hother : ∀ f ∈ older, f.response.address ≠ x.address) :
    Finished (m, l) (older ++ later) [(x.cycle, answers g p (needsCheck x.ops) s.bus.sock s.bus.error x.ops)]
      (sockAll gm (m, l) (recordAccesses p (s.run g p (x.records p)).2)) := by
  obtain ⟨segs, hops, henc⟩ := h.encoded
  obtain ⟨recs, r', hrecs, hwrites, hcomplete, hanswers⟩ := cycle_answered g h.address_lt h.address_even h.nonempty h.formatted
    h.length_lt f.response.deadline f.response.device s
  have hsame : x.records p = recs := by rw [SentCycle.records, hrecs]; rfl
  obtain ⟨haccesses, hnames, hnil⟩ := henc.named (g := g) h.address_lt h.address_even s
  rw [← hsame] at hwrites
  have hne : writeBacks p (s.run g p (x.records p)).2 ≠ [] := by
    obtain ⟨r, hr, hreads⟩ := hwaits
    exact fun hempty => hreads (hnil.mp hempty r hr)
  obtain ⟨first, last, htake, hqueue'⟩ := takeIn_writes (l := l) hwrites hcomplete hne hqueue hf.response hother hnames
  refine ⟨first, last, ?_, hqueue'⟩
  rw [haccesses, sockAll_takeIn hgm, htake, ← hanswers, calledBack, handedOver, ← hf.cycle]
  rfl

/-- The reply to some cycles, in the socket that waits for it. Older responses have other addresses. -/
theorem replies_finish {gm : Glue (Machine × List Handed)} (hgm : gm.writeConfig = takeIn)
    (hvalid : ∀ x ∈ xs, x.Valid p) (s : Session σ) {later : List Flight} (hqueue : m.queue = older ++ (fs ++ later))
    (hawaits : List.Forall₂ SentCycle.Awaits (xs.filter fun x => x.Waits p) fs)
    (hother : ∀ f ∈ older, ∀ x ∈ xs, x.Waits p → f.response.address ≠ x.address) :
    Finished (m, l) (older ++ later) (answered g p s.bus.sock s.bus.error xs)
      (sockAll gm (m, l) (recordAccesses p (s.run g p (xs.flatMap (SentCycle.records p))).2)) := by
  induction xs generalizing s m l fs with
  | nil =>
    cases hawaits
    exact ⟨m.first, m.last, by simp [answered, calledBack, handedOver, sockAll], hqueue⟩
  | cons x xs ih =>
    obtain ⟨hx, hxs⟩ := List.forall_mem_cons.mp hvalid
    have hothers : ∀ f ∈ older, ∀ x ∈ xs, x.Waits p → f.response.address ≠ x.address :=
      fun f hf y hy => hother f hf y (List.mem_cons_of_mem _ hy)
    obtain ⟨segs, hops, henc⟩ := hx.encoded
    have hperformed := henc.performed (g := g) (B := []) (s := s) ⟨rfl, rfl⟩
    rw [List.nil_append, hops] at hperformed
    rw [List.flatMap_cons, Session.run_append, recordAccesses_append, sockAll_append, answered, ← hperformed.sock_eq,
      ← hperformed.error_eq]
    by_cases hwaits : x.Waits p
    · rw [List.filter_cons_of_pos (by simpa using hwaits)] at hawaits
      obtain ⟨f, fs, hf, hfs, rfl⟩ := List.forall₂_cons_left_iff.mp hawaits
      have hfirst := hx.finish (g := g) (l := l) hgm hwaits s hf
        (show m.queue = older ++ f :: (fs ++ later) from hqueue) fun f hf => hother f hf x List.mem_cons_self hwaits
      rw [if_pos hwaits]
      exact hfirst.trans (ih hxs _ hfirst.queue_eq hfs hothers)
    · rw [List.filter_cons_of_neg (by simpa using hwaits)] at hawaits
      obtain ⟨haccesses, -, hnil⟩ := henc.named (g := g) hx.address_lt hx.address_even s
      have hempty : writeBacks p (s.run g p (x.records p)).2 = [] := by
        apply hnil.mpr
        intro r hr
        by_contra hne
        exact hwaits ⟨r, hr, hne⟩
      rw [if_neg hwaits, haccesses, hempty]
      exact ih hxs _ hqueue hawaits hothers

end Replies

end WhiteRabbit.Etherbone
