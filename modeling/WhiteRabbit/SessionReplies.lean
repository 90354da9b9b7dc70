import WhiteRabbit.ErrorRegister
import WhiteRabbit.StreamSessions

/-!
# What a new session changes

A new session clears the error register and the open-cycle flag. The first shows in later
reads of the error register, the second in the terminators that the slave writes: the flag
stays set after a cycle whose last reading record did not end it, and every later cycle
without reads is then answered by a terminator as well.
-/

namespace WhiteRabbit.Etherbone
open BigEndian

variable {σ : Type} {g : Glue σ} {p : Port}

/-- The open-cycle flag after some records. -/
def openAfter (cycleOpen : Bool) (rs : List Record) : Bool :=
  rs.foldl (fun o r => if r.reads = [] then o else !r.cyc) cycleOpen

@[simp] theorem openAfter_nil (cycleOpen : Bool) : openAfter cycleOpen [] = cycleOpen := rfl

@[simp] theorem openAfter_cons (cycleOpen : Bool) (r : Record) (rs : List Record) :
    openAfter cycleOpen (r :: rs) = openAfter (if r.reads = [] then cycleOpen else !r.cyc) rs := rfl

theorem openAfter_append (cycleOpen : Bool) (rs ts : List Record) :
    openAfter cycleOpen (rs ++ ts) = openAfter (openAfter cycleOpen rs) ts := List.foldl_append

theorem openAfter_noReads {rs : List Record} (h : ∀ r ∈ rs, r.reads = []) (cycleOpen : Bool) :
    openAfter cycleOpen rs = cycleOpen := by
  induction rs with
  | nil => rfl
  | cons r rs ih =>
    obtain ⟨hr, hrs⟩ := List.forall_mem_cons.mp h
    rw [openAfter_cons, if_pos hr, ih hrs]

/-- A record with reads makes the flag forget its past. -/
theorem openAfter_reads {rs : List Record} (h : ∃ r ∈ rs, r.reads ≠ []) (o o' : Bool) :
    openAfter o rs = openAfter o' rs := by
  obtain ⟨r, hr, hne⟩ := h
  obtain ⟨as, bs, rfl⟩ := List.append_of_mem hr
  rw [openAfter_append, openAfter_append, openAfter_cons, openAfter_cons, if_neg hne, if_neg hne]

theorem Session.run_cycleOpen (s : Session σ) (rs : List Record) :
    (s.run g p rs).1.cycleOpen = openAfter s.cycleOpen rs := by
  induction rs generalizing s with
  | nil => rfl
  | cons r rs ih => rw [run_cons, ih, openAfter_cons]; rfl

/-- The number of reply bytes for one record, the terminator aside. -/
def replySize (p : Port) (r : Record) : ℕ :=
  if r.reads = [] then 0 else p.recordAlignment + p.alignment + r.reads.length * p.alignment

/-- The number of reply bytes for some records. -/
def repliesSize (p : Port) : Bool → List Record → ℕ
  | _, [] => 0
  | o, r :: rs =>
    let o := if r.reads = [] then o else !r.cyc
    replySize p r + (if o && r.cyc then p.recordAlignment else 0) + repliesSize p o rs

theorem Session.step_size (s : Session σ) (r : Record) :
    (recordBytes p (s.step g p r).2).length = replySize p r +
      (if (s.step g p r).1.cycleOpen && r.cyc then p.recordAlignment else 0) := by
  have hterm : ((terminator p).bytes p).length = p.recordAlignment := by
    rw [bytes_terminator]
    rcases p.recordAlignment_mem with h | h <;> simp [h]
  have hif : ∀ b : Bool, (recordBytes p (if b then [terminator p] else [])).length =
      if b then p.recordAlignment else 0 := by
    intro b
    cases b with
    | false => rfl
    | true => simpa using hterm
  by_cases hr : r.reads = []
  · simp only [step, hr, if_true, List.nil_append, replySize, Nat.zero_add, hif]
  · have hne : (performAll g (performAll g s.bus (r.writeList p)).1 (r.readList p)).2 ≠ [] := by
      rw [← List.length_pos_iff, length_performAll]
      simpa [Record.readList] using List.length_pos_iff.mpr hr
    have hlen : (performAll g (performAll g s.bus (r.writeList p)).1 (r.readList p)).2.length =
        r.reads.length := by simp [Record.readList]
    have hhead : ∀ n, (replyHeader p r.flags r.select r.cyc n).length = p.recordAlignment := by
      intro n
      rcases p.recordAlignment_mem with h | h <;> simp [replyHeader, h]
    simp only [step, hr, if_false, recordBytes_append, recordBytes_cons, recordBytes_nil,
      List.append_nil, List.length_append, replySize, hif, bytes_replyRecord r hne, length_encode,
      length_encodeAll, List.length_map, hlen, hhead]

theorem Session.run_size (s : Session σ) (rs : List Record) :
    (recordBytes p (s.run g p rs).2).length = repliesSize p s.cycleOpen rs := by
  induction rs generalizing s with
  | nil => rfl
  | cons r rs ih =>
    rw [run_cons, recordBytes_append, List.length_append, ih, step_size]
    rfl

/-- A stale flag can only add terminators. -/
theorem repliesSize_mono {o o' : Bool} (h : o' = true → o = true) (rs : List Record) :
    repliesSize p o' rs ≤ repliesSize p o rs := by
  induction rs generalizing o o' with
  | nil => exact Nat.le_refl _
  | cons r rs ih =>
    rw [repliesSize, repliesSize]
    by_cases hr : r.reads = []
    · simp only [hr, if_true]
      have := ih h
      have hif : (if o' && r.cyc then p.recordAlignment else 0) ≤
          if o && r.cyc then p.recordAlignment else 0 := by
        cases o' with
        | false => simp
        | true => simp [h rfl]
      omega
    · simp only [hr, if_false]
      omega

theorem repliesSize_append (o : Bool) (rs ts : List Record) :
    repliesSize p o (rs ++ ts) = repliesSize p o rs + repliesSize p (openAfter o rs) ts := by
  induction rs generalizing o with
  | nil => simp [repliesSize]
  | cons r rs ih =>
    rw [List.cons_append, repliesSize, repliesSize, ih, openAfter_cons]
    omega

/-- The values of a step are those of its accesses after the writes. -/
theorem Session.step_agree {s s' : Session σ} (hs : s.bus.sock = s'.bus.sock) (r : Record)
    (h : ∀ before ∈ looks (marks g s.bus.sock (r.accesses p)),
      register s.bus.error before = register s'.bus.error before)
    (ho : s.cycleOpen = s'.cycleOpen ∨ r.reads ≠ [] ∨ r.cyc = false) :
    (s.step g p r).2 = (s'.step g p r).2 := by
  have hval := values_eq g hs (r.accesses p) h
  rw [Record.accesses, performAll_append, performAll_append] at hval
  have hreads := (List.append_inj hval (by simp)).2
  rcases ho with ho | ho | ho
  · simp only [step, hreads, ho]
  · simp only [step, hreads, ho, if_false]
  · simp only [step, hreads, ho, Bool.and_false]

/-- Two sessions whose registers agree where they are read answer alike. -/
theorem Session.run_agree {s s' : Session σ} (hs : s.bus.sock = s'.bus.sock) (rs : List Record)
    (h : ∀ before ∈ looks (marks g s.bus.sock (recordAccesses p rs)),
      register s.bus.error before = register s'.bus.error before)
    (ho : s.cycleOpen = s'.cycleOpen ∨ ((∃ r ∈ rs, r.reads ≠ []) ∧ ∀ r ∈ rs.dropLast, r.cyc = false)) :
    (s.run g p rs).2 = (s'.run g p rs).2 := by
  induction rs generalizing s s' with
  | nil => rfl
  | cons r rs ih =>
    rw [recordAccesses_cons, marks_append, looks_append] at h
    have hstep : ∀ before ∈ looks (marks g s.bus.sock (r.accesses p)),
        register s.bus.error before = register s'.bus.error before :=
      fun x hx => h x (List.mem_append_left _ hx)
    have hs' : (s.step g p r).1.bus.sock = (s'.step g p r).1.bus.sock := by
      rw [step_bus, step_bus, performAll_eq, performAll_eq, hs]
    have hrest : ∀ before ∈ looks (marks g (s.step g p r).1.bus.sock (recordAccesses p rs)),
        register (s.step g p r).1.bus.error before = register (s'.step g p r).1.bus.error before := by
      intro x hx
      rw [step_bus, performAll_eq] at hx ⊢
      rw [step_bus, performAll_eq, ← hs, ← register_append, ← register_append]
      exact h _ (List.mem_append_right _ (List.mem_map_of_mem hx))
    rw [run_cons, run_cons]
    by_cases hr : r.reads = []
    · rcases ho with ho | ⟨⟨x, hx, hne⟩, hbody⟩
      · rw [step_agree hs r hstep (Or.inl ho), ih hs' hrest (Or.inl (by simp [step, hr, ho]))]
      · rcases List.mem_cons.mp hx with rfl | hx
        · exact absurd hr hne
        · obtain ⟨y, ys, rfl⟩ := List.exists_cons_of_ne_nil (List.ne_nil_of_mem hx)
          rw [List.dropLast_cons_cons] at hbody
          obtain ⟨hcyc, hbody'⟩ := List.forall_mem_cons.mp hbody
          rw [step_agree hs r hstep (Or.inr (Or.inr hcyc)),
            ih hs' hrest (Or.inr ⟨⟨x, hx, hne⟩, hbody'⟩)]
    · rw [step_agree hs r hstep (Or.inr (Or.inl hr)), ih hs' hrest (Or.inl (by simp [step, hr]))]

end WhiteRabbit.Etherbone
