import WhiteRabbit.WriteBacks

/-!
# The results of a cycle

A peer that executes the records of a cycle answers each of its operations, and its reply brings the answers
home: a read gets the value of its own access, and a bus operation of a checked cycle the error of its own
access, which has waited in the error register for the next read of it.
-/

namespace WhiteRabbit.Etherbone
open BigEndian

variable {σ : Type} {p : Port}

def Mark.failed : Mark → Bool
  | .shift fail => fail
  | .look | .other => false

/-- What an access returns. -/
def valueOf (g : Glue σ) (s : σ) (error : ℕ) : Access → ℕ
  | .read widths addrB addrL => (g.read s widths addrB addrL).2.1
  | .readConfig widths addr => ebSocketReadConfig widths addr error
  | _ => 0

/-- An operation after the peer has performed it: a read has the value returned, cut to its size, and in a
checked cycle the error flag tells whether the access failed. -/
def answer (g : Glue σ) (p : Port) (checked : Bool) (s : σ) (error : ℕ) (op : Operation) : Operation :=
  { op with
    value := if op.isRead then valueOf g s error (op.access p) % 256 ^ op.size else op.value
    error := op.error || (checked && (markOf g s (op.access p)).failed) }

/-- Operations performed one after the other. -/
def answers (g : Glue σ) (p : Port) (checked : Bool) : σ → ℕ → List Operation → List Operation
  | _, _, [] => []
  | s, error, op :: ops =>
    answer g p checked s error op ::
      answers g p checked (sockAfter g s (op.access p)) ((markOf g s (op.access p)).apply error) ops

section Register

theorem register_zero_lt (ms : List Mark) : register 0 ms < 2 ^ shifts ms := by
  induction ms using List.reverseRecOn with
  | nil => exact Nat.one_pos
  | append_singleton ms m ih =>
    rw [register_append, shifts_append]
    cases m with
    | shift fail =>
      have hone : shifts [Mark.shift fail] = 1 := rfl
      rw [hone, pow_succ, register_cons, register_nil, Mark.apply, shiftError_eq]
      apply Nat.lt_of_le_of_lt (Nat.mod_le _ _)
      have := Bool.toNat_le fail
      omega
    | look => exact ih
    | other => exact ih

/-- An error bit is as far up as bits were shifted in behind it. -/
theorem register_testBit (error : ℕ) (fail : Bool) {ms : List Mark} (h : shifts ms < 64) :
    (register (shiftError error fail) ms).testBit (shifts ms) = fail := by
  have hmod := register_mod (shiftError error fail) ms
  have hbit := congrArg (fun x => Nat.testBit x (shifts ms)) hmod
  simp only [Nat.testBit_mod_two_pow, h, decide_true, Bool.true_and] at hbit
  rw [hbit, Nat.mul_comm, Nat.testBit_two_pow_mul_add _ (register_zero_lt ms), if_neg (lt_irrefl _), Nat.sub_self,
    shiftError_eq, Nat.testBit_zero, Nat.mod_mod_of_dvd _ (by decide)]
  cases fail with
  | true => simp [Nat.add_mod]
  | false => simp

end Register

section Answers

variable {g : Glue σ} {checked : Bool} {s : σ} {error : ℕ} {ops ops' : List Operation}

theorem perform_value (bus : Bus σ) (a : Access) : (perform g bus a).2 = valueOf g bus.sock bus.error a := by
  cases a with
  | _ => rfl

theorem isShift_access (g : Glue σ) (s : σ) (op : Operation) : (markOf g s (op.access p)).isShift = op.isBus := by
  rw [Operation.access, Operation.isBus]
  cases op.isWrite with
  | _ => cases op.cfgSpace with
    | _ => rfl

theorem shifts_access (g : Glue σ) (s : σ) (ops : List Operation) :
    shifts (marks g s (ops.map (Operation.access p))) = busCount ops := by
  induction ops generalizing s with
  | nil => rfl
  | cons op ops ih =>
    have htail : (marks g (sockAfter g s (op.access p)) (ops.map (Operation.access p))).countP Mark.isShift = busCount ops :=
      ih _
    rw [List.map_cons, marks, shifts, List.countP_cons, isShift_access, htail, busCount, busCount, List.countP_cons]

theorem answers_append (s : σ) (error : ℕ) (ops ops' : List Operation) :
    answers g p checked s error (ops ++ ops') = answers g p checked s error ops ++
      answers g p checked (sockAll g s (ops.map (Operation.access p)))
        (register error (marks g s (ops.map (Operation.access p)))) ops' := by
  induction ops generalizing s error with
  | nil => rfl
  | cons op ops ih => rw [List.cons_append, answers, ih]; rfl

@[simp] theorem length_answers : (answers g p checked s error ops).length = ops.length := by
  induction ops generalizing s error with
  | nil => rfl
  | cons op ops ih => rw [answers, List.length_cons, ih, List.length_cons]

theorem answer_unchecked (op : Operation) :
    answer g p false s error op = { op with value := (answer g p false s error op).value } := by
  rw [answer, Bool.false_and, Bool.or_false]

/-- Nothing is known about a write until its error bit comes. -/
theorem answers_unread (h : ∀ op ∈ ops, op.isWrite = true) : answers g p false s error ops = ops := by
  induction ops generalizing s error with
  | nil => rfl
  | cons op ops ih =>
    obtain ⟨hop, hops⟩ := List.forall_mem_cons.mp h
    rw [answers, ih hops, answer, Operation.isRead, hop]
    simp

theorem answers_kinds : (answers g p checked s error ops).map Operation.isRead = ops.map Operation.isRead ∧
    (answers g p checked s error ops).map Operation.isBus = ops.map Operation.isBus := by
  induction ops generalizing s error with
  | nil => exact ⟨rfl, rfl⟩
  | cons op ops ih =>
    exact ⟨congrArg (op.isRead :: ·) ih.1, congrArg (op.isBus :: ·) ih.2⟩

theorem busCount_answers : busCount (answers g p checked s error ops) = busCount ops := by
  have hkinds : ((answers g p checked s error ops).map Operation.isBus).countP id =
      (ops.map Operation.isBus).countP id := by
    rw [answers_kinds.2]
  rwa [List.countP_map, List.countP_map] at hkinds

/-- The marks of the error register, the oldest operation first. -/
theorem markErrors_answers {value : ℕ} (hcount : busCount ops ≤ 64)
    (hvalue : ∀ k < busCount ops, value.testBit k =
      (register error (marks g s (ops.map (Operation.access p)))).testBit k) :
    markErrors value (busCount ops) (answers g p false s error ops) = answers g p true s error ops := by
  induction ops generalizing s error with
  | nil => simp [markErrors, answers]
  | cons op ops ih =>
    rw [List.map_cons, marks, register_cons] at hvalue
    have hshift := isShift_access (p := p) g s op
    cases hcfg : op.cfgSpace with
    | true =>
      have hnone : op.isBus = false := by rw [Operation.isBus, hcfg]; rfl
      have hbus : busCount (op :: ops) = busCount ops :=
        List.countP_cons_of_neg (by rw [hnone]; exact Bool.false_ne_true)
      have hsame : answer g p true s error op = answer g p false s error op := by
        have hfailed : (markOf g s (op.access p)).failed = false := by
          rw [hnone] at hshift
          cases hm : markOf g s (op.access p) with
          | shift fail => rw [hm] at hshift; simp [Mark.isShift] at hshift
          | look => rfl
          | other => rfl
        rw [answer, answer, hfailed, Bool.and_false, Bool.and_false]
      rw [hbus] at hcount hvalue ⊢
      rw [answers, answers, hsame, ← ih hcount hvalue]
      have hcfg' : (answer g p false s error op).cfgSpace = true := hcfg
      cases busCount ops with
      | zero => simp only [markErrors]
      | succ n => rw [markErrors, hcfg', if_pos rfl]
    | false =>
      have hsome : op.isBus = true := by rw [Operation.isBus, hcfg]; rfl
      have hbus : busCount (op :: ops) = busCount ops + 1 := List.countP_cons_of_pos hsome
      rw [hsome] at hshift
      rw [hbus] at hcount hvalue ⊢
      obtain ⟨fail, hm⟩ : ∃ fail, markOf g s (op.access p) = .shift fail := by
        cases hm : markOf g s (op.access p) with
        | shift fail => exact ⟨fail, rfl⟩
        | look => rw [hm] at hshift; simp [Mark.isShift] at hshift
        | other => rw [hm] at hshift; simp [Mark.isShift] at hshift
      have hbit : value.testBit (busCount ops) = fail := by
        have hlast := hvalue (busCount ops) (Nat.lt_succ_self _)
        rw [hm, Mark.apply, ← shifts_access (p := p) g (sockAfter g s (op.access p)) ops,
          register_testBit _ _ (by rw [shifts_access]; omega)] at hlast
        rw [← hlast, shifts_access]
      have hcfg' : ¬ (answer g p false s error op).cfgSpace = true := by rw [← Bool.not_eq_true] at hcfg; exact hcfg
      have hop : ({ answer g p false s error op with error := (answer g p false s error op).error || fail } : Operation) =
          answer g p true s error op := by
        rw [answer, answer, hm]
        simp [Mark.failed]
      rw [answers, answers, markErrors, if_neg hcfg', ih (by omega) fun k hk => hvalue k (Nat.lt_succ_of_lt hk), hbit]
      exact congrArg (· :: _) hop

/-- Without bus operations there are no error bits. -/
theorem answers_unchecked (h : busCount ops = 0) :
    answers g p false s error ops = answers g p true s error ops := by
  have hmarks : markErrors 0 (busCount ops) (answers g p false s error ops) = answers g p true s error ops :=
    markErrors_answers (by omega) (by omega)
  rw [← hmarks, h]
  simp only [markErrors]

end Answers

section Records

variable {g : Glue σ} {rba : ℕ} {ws rs : List Operation} {status : Bool} {r : Record}

theorem and_dataMask (p : Port) {size : ℕ} (h : size ≤ p.data) (value : ℕ) :
    value &&& p.dataMask size = value % 256 ^ size := by
  rw [p.dataMask_eq h, show 256 ^ size = 2 ^ (8 * size) from (pow_mul 2 8 size).symm, Nat.and_two_pow_sub_one_eq_mod]

/-- The lanes of a record are those of its reads. -/
theorem Covers.lanes (h : Covers p rba ws rs status r) {op : Operation} (hop : op ∈ rs) (hf : Formatted p op) :
    (decodeSelect p.data r.select).opWidth = op.size := by
  obtain ⟨word, hword⟩ := h.read_word hop
  obtain ⟨hread, hkind⟩ := h.read_kind hop
  have hw : op.isWrite = false := by simpa [Operation.isRead] using hread
  have hwidths : p.opWidths (decodeSelect p.data r.select).opWidth = p.opWidths op.size := by
    rw [readAccess, h.select, Operation.access, hw, ← hkind] at hword
    cases hcfg : op.cfgSpace with
    | true =>
      rw [hcfg] at hword
      simp only [if_true, Bool.false_eq_true, if_false, Access.readConfig.injEq] at hword
      exact hword.1
    | false =>
      rw [hcfg] at hword
      simp only [if_true, Bool.false_eq_true, if_false, Access.read.injEq] at hword
      exact hword.1
  rw [← opWidths_size p (decodeSelect_ok p.data_mem h.select).1, hwidths, opWidths_size p hf.size_mem]

theorem Covers.write_kind (h : Covers p rba ws rs status r) : ∀ op ∈ ws, op.isWrite = true := by
  have hwrite : ∀ (words : List ℕ) (bwa bwaB bwaL : ℕ), ∀ a ∈ writeAccesses p r.select r.wconfig r.wfifo bwa bwaB bwaL words,
      ∀ widths addrB addrL, a ≠ .read widths addrB addrL ∧ a ≠ .readConfig widths addrB := by
    intro words
    induction words with
    | nil => exact fun _ _ _ a ha => absurd ha List.not_mem_nil
    | cons word words ih =>
      intro bwa bwaB bwaL a ha widths addrB addrL
      rw [writeAccesses, List.mem_cons] at ha
      rcases ha with rfl | ha
      · rw [writeAccess]
        split_ifs <;> simp
      · exact ih _ _ _ a ha widths addrB addrL
  intro op hop
  have hmem : op.access p ∈ r.writeList p := by
    rw [h.writeList]
    exact List.mem_map_of_mem hop
  by_contra hread
  rw [Bool.not_eq_true] at hread
  rw [Operation.access, hread] at hmem
  cases hcfg : op.cfgSpace with
  | true =>
    rw [hcfg] at hmem
    exact (hwrite _ _ _ _ _ hmem _ _ 0).2 rfl
  | false =>
    rw [hcfg] at hmem
    exact (hwrite _ _ _ _ _ hmem _ _ _).1 rfl

theorem Covers.lanes_status (h : Covers p rba ws rs true r) : (decodeSelect p.data r.select).opWidth = p.data := by
  have hmem : statusAccess p ∈ r.readList p := by
    rw [h.readList, if_pos rfl]
    exact List.mem_singleton_self _
  obtain ⟨word, -, hword⟩ := List.mem_map.mp hmem
  rw [readAccess, h.select, statusAccess] at hword
  have hwidths : p.opWidths (decodeSelect p.data r.select).opWidth = p.opWidths p.data := by
    cases hcfg : r.rconfig with
    | true =>
      rw [hcfg] at hword
      simp only [if_true, Access.readConfig.injEq] at hword
      exact hword.1
    | false => simp [hcfg] at hword
  rw [← opWidths_size p (decodeSelect_ok p.data_mem h.select).1, hwidths, opWidths_size p p.data_mem]

theorem writeBacks_append (rs rs' : List Record) : writeBacks p (rs ++ rs') = writeBacks p rs ++ writeBacks p rs' := by
  rw [writeBacks, recordAccesses_append, List.filterMap_append]
  rfl

/-- What the reply to a record asks for: one call for each value. -/
theorem Covers.step_accesses (h : Covers p rba ws rs status r) (s : Session σ) :
    recordAccesses p (s.step g p r).2 =
      (performAll g (performAll g s.bus (r.writeList p)).1 (r.readList p)).2.map fun value =>
        .writeConfig (p.opWidths (decodeSelect p.data r.select).opWidth) r.ret
          (value &&& p.dataMask (decodeSelect p.data r.select).opWidth) := by
  have hterm : ∀ b : Bool, recordAccesses p (if b then [terminator p] else []) = [] := by
    intro b
    cases b with
    | _ => rfl
  rw [Session.step]
  dsimp only
  rw [recordAccesses_append, hterm, List.append_nil]
  by_cases hreads : r.reads = []
  · rw [if_pos hreads, Record.readList, hreads]
    rfl
  · rw [if_neg hreads, recordAccesses_cons, recordAccesses_nil, List.append_nil, Record.accesses,
      writeList_replyRecord h.select h.bconfig h.rfifo]
    exact List.append_nil _

theorem Covers.step_writeBacks (h : Covers p rba ws rs status r) (s : Session σ) :
    writeBacks p (s.step g p r).2 =
      (performAll g (performAll g s.bus (r.writeList p)).1 (r.readList p)).2.map fun value =>
        ⟨p.opWidths (decodeSelect p.data r.select).opWidth, r.ret,
          value &&& p.dataMask (decodeSelect p.data r.select).opWidth⟩ := by
  rw [writeBacks, h.step_accesses, List.filterMap_map]
  simp [Function.comp_def, Access.writeBack]

/-- Read values come back as the answers of the reads. -/
theorem values_answers {width addr widths : ℕ} (hwidth : width ≤ p.data)
    (h : ∀ op ∈ rs, op.isRead = true ∧ op.size = width) (bus : Bus σ) :
    ((performAll g bus (rs.map (Operation.access p))).2.map fun value =>
      (⟨widths, addr, value &&& p.dataMask width⟩ : WriteBack)) =
      (answers g p false bus.sock bus.error rs).map fun op => ⟨widths, addr, op.value⟩ := by
  induction rs generalizing bus with
  | nil => rfl
  | cons op rs ih =>
    obtain ⟨⟨hread, hsize⟩, hrs⟩ := List.forall_mem_cons.mp h
    have hvalue : (answer g p false bus.sock bus.error op).value =
        valueOf g bus.sock bus.error (op.access p) % 256 ^ width := by rw [answer, hread, if_pos rfl, hsize]
    rw [List.map_cons, performAll_cons, List.map_cons, ih hrs, answers, List.map_cons, hvalue, perform_value,
      and_dataMask p hwidth, perform_eq]

/-- The words of the error register that a read of it returns. -/
theorem testBit_status (error : ℕ) {k : ℕ} (hk : k < 8 * p.data) :
    (ebSocketReadConfig (p.opWidths p.data) (8 - p.data) error).testBit k = error.testBit k := by
  have hbytes : ebSocketReadConfig (p.opWidths p.data) (8 - p.data) error = error % 2 ^ (8 * p.data) := by
    have hdata := opWidths_size p p.data_mem
    have hpos := p.data_pos
    have hdrop : ((errorBytes error).drop (8 - p.data)).take p.data = encode p.data error := by
      rw [errorBytes]
      rcases p.data_mem with hd | hd | hd | hd <;> rw [hd] <;> simp [encode]
    rw [ebSocketReadConfig, if_neg (by omega), hdata, hdrop, decode_encode, show 2 ^ (8 * p.data) = 256 ^ p.data from pow_mul 2 8 _]
  rw [hbytes, Nat.testBit_mod_two_pow, decide_eq_true hk, Bool.true_and]

end Records

section Cycle

variable {g : Glue σ} {rba : ℕ} {ws rs : List Operation} {status : Bool} {rec : Record}

/-- What a session is after some operations were performed on a bus with this state. -/
structure Performed (g : Glue σ) (p : Port) (sock : σ) (error : ℕ) (ops : List Operation) (s : Session σ) : Prop where
  sock_eq : s.bus.sock = sockAll g sock (ops.map (Operation.access p))
  error_eq : s.bus.error = register error (marks g sock (ops.map (Operation.access p)))

theorem Performed.step {sock : σ} {error : ℕ} {B : List Operation} {s : Session σ} (h : Covers p rba ws rs status rec)
    (hs : Performed g p sock error B s) : Performed g p sock error (B ++ ws ++ rs) (s.step g p rec).1 := by
  have haccesses : sockAll g s.bus.sock (rec.accesses p) = sockAll g s.bus.sock ((ws ++ rs).map (Operation.access p)) ∧
      register s.bus.error (marks g s.bus.sock (rec.accesses p)) =
        register s.bus.error (marks g s.bus.sock ((ws ++ rs).map (Operation.access p))) := by
    rw [h.accesses, List.map_append]
    cases status with
    | false => exact ⟨rfl, rfl⟩
    | true =>
      -- a read of the register changes nothing
      rw [h.no_reads rfl, if_pos rfl, List.map_nil, List.append_nil, sockAll_append, marks_append, register_append]
      exact ⟨rfl, rfl⟩
  rw [List.append_assoc]
  constructor
  · rw [Session.step_bus, performAll_eq, haccesses.1, hs.sock_eq, ← sockAll_append, ← List.map_append]
  · rw [Session.step_bus, performAll_eq, haccesses.2, hs.error_eq, hs.sock_eq, ← register_append, ← marks_append,
      ← List.map_append]

variable {checked : Bool} {A B C : List Operation} {sock : σ} {error : ℕ} {s : Session σ} {r : Response}

/-- The reply to a record takes its response further: over the operations of the record, and over all error bits
that were waiting if the record reads the register. -/
theorem Covers.progress (h : Covers p rba ws rs status rec) (hrba : rba % 2 = 0)
    (hws : ∀ op ∈ ws, op.isWrite = true) (hf : ∀ op ∈ rs, Formatted p op)
    (hs : Performed g p sock error B s)
    (hstatus : status = true → checked = true ∧ 0 < busCount (B ++ ws) ∧ busCount (B ++ ws) ≤ p.data * 8 ∧
      (busCount (B ++ ws) = p.data * 8 ∨ busCount C = 0))
    (hprogress : r.Progress checked A (answers g p false sock error B) (ws ++ rs ++ C)) :
    ∃ r', Response.Writes r (writeBacks p (s.step g p rec).2) r' ∧
      if status then r'.Progress checked (A ++ answers g p true sock error (B ++ ws)) [] C
      else r'.Progress checked A (answers g p false sock error (B ++ ws ++ rs)) C := by
  have hwrites : Performed g p sock error (B ++ ws) { s with bus := (performAll g s.bus (rec.writeList p)).1 } := by
    rw [h.writeList, performAll_eq]
    constructor
    · rw [List.map_append, sockAll_append, ← hs.sock_eq]
    · rw [List.map_append, marks_append, register_append, ← hs.sock_eq, ← hs.error_eq]
  have hpending : answers g p false sock error (B ++ ws) = answers g p false sock error B ++ ws := by
    rw [answers_append, answers_unread hws]
  rw [List.append_assoc] at hprogress
  have hskip := hprogress.skip hws
  rw [← hpending] at hskip
  rw [h.step_writeBacks s]
  generalize (performAll g s.bus (rec.writeList p)).1 = bus at hwrites
  cases status with
  | false =>
    have hlanes : ∀ op ∈ rs, op.isRead = true ∧ op.size = (decodeSelect p.data rec.select).opWidth :=
      fun op hop => ⟨(h.read_kind hop).1, (h.lanes hop (hf op hop)).symm⟩
    have hle := (decodeSelect_ok p.data_mem h.select).2
    have hret : rec.ret = rba := h.ret_eq
    have hrel : List.Forall₂ (fun op op' => op' = { op with value := op'.value }) rs
        (answers g p false bus.sock bus.error rs) := by
      have hall : ∀ (s : σ) (error : ℕ), List.Forall₂ (fun op op' => op' = { op with value := op'.value }) rs
          (answers g p false s error rs) := by
        clear hprogress hskip hf h hlanes
        induction rs with
        | nil => exact fun _ _ => .nil
        | cons op rs ih => exact fun s error => .cons (answer_unchecked op) (ih _ _)
      exact hall _ _
    obtain ⟨r', hrun, hr'⟩ := hskip.values hrel (fun op hop => (hlanes op hop).1)
      (fun _ => p.opWidths (decodeSelect p.data rec.select).opWidth) hrba
    refine ⟨r', ?_, ?_⟩
    · rw [h.readList, if_neg Bool.false_ne_true, hret, values_answers (by omega) hlanes]
      exact hrun
    · rw [if_neg Bool.false_ne_true, answers_append _ _ (B ++ ws), ← hwrites.sock_eq, ← hwrites.error_eq]
      exact hr'
  | true =>
    obtain ⟨hchecked, hpos, hle, hdue⟩ := hstatus rfl
    have hnil := h.no_reads rfl
    have hret : rec.ret = rba ||| 1 := h.ret_eq
    subst hnil
    subst hchecked
    have hodd : (rba ||| 1) % 2 = 1 := by rw [Nat.or_mod_two_eq_one]; exact Or.inr rfl
    have hwidths := opWidths_size p p.data_mem
    have hcount : busCount (answers g p false sock error (B ++ ws)) = busCount (B ++ ws) := busCount_answers
    rw [List.nil_append] at hskip
    obtain ⟨hopen, r', hwrite, hr'⟩ := hskip.marked (p.opWidths p.data) (by omega) (by rw [hcount, hwidths]; omega)
      (ebSocketReadConfig (p.opWidths p.data) (8 - p.data) bus.error &&& p.dataMask p.data) hodd
    have hmarks : markErrors (ebSocketReadConfig (p.opWidths p.data) (8 - p.data) bus.error &&& p.dataMask p.data)
        (busCount (B ++ ws)) (answers g p false sock error (B ++ ws)) = answers g p true sock error (B ++ ws) := by
      apply markErrors_answers (by have := p.data_mem; unfold IsSize at this; omega)
      intro k hk
      rw [and_dataMask p le_rfl, show 256 ^ p.data = 2 ^ (8 * p.data) from (pow_mul 2 8 _).symm,
        Nat.testBit_mod_two_pow, decide_eq_true (by omega), Bool.true_and, testBit_status _ (by omega), hwrites.error_eq]
    rw [hcount, hmarks] at hr'
    refine ⟨r', ?_, ?_⟩
    · rw [h.readList, if_pos rfl, h.lanes_status, hret]
      exact .cons hopen hwrite (.nil r')
    · rw [if_pos rfl]
      exact hr'

/-- When the register is read, the operations that wait fill a word, or no more will come. -/
theorem Covers.due {maxops n : ℕ} (h : Covers p rba ws rs status rec)
    (hmax : if checked then maxops = p.data * 8 else n + busCount (ws ++ rs) < maxops) (hn : busCount B = n)
    (hle : n + busCount (ws ++ rs) ≤ maxops)
    (hdue : status = true → n + busCount (ws ++ rs) = maxops ∨
      checked = true ∧ 0 < n + busCount (ws ++ rs) ∧ busCount C = 0) :
    status = true → checked = true ∧ 0 < busCount (B ++ ws) ∧ busCount (B ++ ws) ≤ p.data * 8 ∧
      (busCount (B ++ ws) = p.data * 8 ∨ busCount C = 0) := by
  intro hstatus
  have hdue := hdue hstatus
  have hpos := p.data_pos
  rw [h.no_reads hstatus, List.append_nil] at hmax hle hdue
  rw [busCount_append, hn]
  cases checked with
  | true =>
    rw [if_pos rfl] at hmax
    simp only [true_and] at hdue ⊢
    omega
  | false =>
    rw [if_neg Bool.false_ne_true] at hmax
    simp only [Bool.false_eq_true, false_and, or_false] at hdue
    omega

/-- The records of a cycle from some point on. The operations `B` were performed since the last read of the error
register, and `n` of them are bus operations. -/
theorem Encoded.progress {maxops n : ℕ} {segs : List Segment} {recs : List Record}
    (h : Encoded p checked maxops rba n segs recs) (hrba : rba % 2 = 0)
    (hf : ∀ op ∈ segmentOperations segs, Formatted p op)
    (hmax : if checked then maxops = p.data * 8 else n + busCount (segmentOperations segs) < maxops)
    (hn : busCount B = n) (hs : Performed g p sock error B s)
    (hprogress : r.Progress checked A (answers g p false sock error B) (segmentOperations segs)) :
    ∃ r', Response.Writes r (writeBacks p (s.run g p recs).2) r' ∧ r'.Complete ∧
      r'.ops = A ++ answers g p checked sock error (B ++ segmentOperations segs) := by
  induction h generalizing A B sock error s r with
  | @last n seg rec hc hcyc hle hdue hall =>
    have hsegment : segmentOperations [seg] = seg.writes ++ seg.reads ++ [] := rfl
    rw [hsegment] at hf hmax hprogress ⊢
    have hdue' := hc.due (B := B) (C := []) (by rwa [List.append_nil] at hmax) hn hle
      fun hstatus => (hdue hstatus).imp_right fun hd => ⟨hd.1, hd.2, rfl⟩
    obtain ⟨r', hrun, hr'⟩ := hc.progress hrba hc.write_kind (fun op hop => hf op (by simp [hop])) hs hdue' hprogress
    rw [Session.run_cons, Session.run_nil, List.append_nil, List.append_nil]
    refine ⟨r', hrun, ?_⟩
    cases hstatus : seg.status with
    | true =>
      rw [hstatus, if_pos rfl] at hr'
      refine ⟨hr'.complete_iff.mpr ⟨by simp, by simp⟩, ?_⟩
      rw [hr'.ops, (hdue' hstatus).1, hc.no_reads hstatus]
      simp only [List.append_nil]
    | false =>
      rw [hstatus, if_neg Bool.false_ne_true, List.append_assoc] at hr'
      -- a checked cycle that does not end with a read of the register has no bus operations left
      have hquiet : checked = true → busCount (B ++ (seg.writes ++ seg.reads)) = 0 := by
        intro hchecked
        rw [busCount_append, hn]
        rcases hall hchecked with hz | hz
        · exact hz
        · exact absurd (hstatus.symm.trans hz) Bool.false_ne_true
      refine ⟨hr'.complete_iff.mpr ⟨by simp, fun hchecked op hop => ?_⟩, ?_⟩
      · have hcount := hquiet hchecked
        rw [List.append_nil] at hop
        have hsame : busCount (answers g p false sock error (B ++ (seg.writes ++ seg.reads))) =
            busCount (B ++ (seg.writes ++ seg.reads)) := busCount_answers
        rw [← hsame] at hcount
        exact Bool.eq_false_iff.mpr (List.countP_eq_zero.mp hcount op hop)
      · rw [hr'.ops, List.append_nil]
        cases hchecked : checked with
        | false => rfl
        | true => rw [answers_unchecked (hquiet hchecked)]
  | @cons n seg rec segs recs hc hcyc hle hdue _ ih =>
    have hsegment : segmentOperations (seg :: segs) = seg.writes ++ seg.reads ++ segmentOperations segs := rfl
    rw [hsegment] at hf hmax hprogress ⊢
    have hmax' : if checked then maxops = p.data * 8 else n + busCount (seg.writes ++ seg.reads) < maxops := by
      cases checked with
      | true => exact hmax
      | false =>
        rw [if_neg Bool.false_ne_true, busCount_append] at hmax
        rw [if_neg Bool.false_ne_true]
        omega
    have hdue' := hc.due (B := B) (C := segmentOperations segs) hmax' hn hle fun hstatus => Or.inl (hdue hstatus)
    obtain ⟨r₁, hfirst, h₁⟩ := hc.progress hrba hc.write_kind (fun op hop => hf op (by simp [hop])) hs hdue' hprogress
    have hstep := hs.step hc
    have hf' : ∀ op ∈ segmentOperations segs, Formatted p op := fun op hop => hf op (by simp [hop])
    rw [Session.run_cons, writeBacks_append]
    cases hstatus : seg.status with
    | true =>
      have hchecked := (hdue' hstatus).1
      have hnil := hc.no_reads hstatus
      rw [hstatus, if_pos rfl] at h₁
      rw [hnil, List.append_nil] at hstep ⊢
      rw [hstatus, if_pos rfl] at ih
      obtain ⟨r', hrun, hcomplete, hops⟩ := ih (A := A ++ answers g p true sock error (B ++ seg.writes)) (B := [])
        (s := (s.step g p rec).1) (r := r₁) hf' (by rw [hchecked] at hmax ⊢; exact hmax) rfl
        ⟨hstep.sock_eq.trans rfl, hstep.error_eq.trans rfl⟩ h₁
      refine ⟨r', hfirst.append hrun, hcomplete, ?_⟩
      rw [hops, hchecked, ← List.append_assoc B, answers_append _ _ (B ++ seg.writes), List.append_assoc]
      rfl
    | false =>
      rw [hstatus, if_neg Bool.false_ne_true] at h₁ ih
      obtain ⟨r', hrun, hcomplete, hops⟩ := ih hf' (by
        cases checked with
        | true => exact hmax
        | false =>
          rw [if_neg Bool.false_ne_true, busCount_append] at hmax
          rw [if_neg Bool.false_ne_true, Segment.operations]
          omega) (by rw [List.append_assoc, busCount_append, hn]; rfl) hstep h₁
      exact ⟨r', hfirst.append hrun, hcomplete, by rw [hops]; simp only [List.append_assoc]⟩

/-- The peer executes a whole cycle. -/
theorem Encoded.performed {maxops n : ℕ} {segs : List Segment} {recs : List Record}
    (h : Encoded p checked maxops rba n segs recs) (hs : Performed g p sock error B s) :
    Performed g p sock error (B ++ segmentOperations segs) (s.run g p recs).1 := by
  induction h generalizing B s with
  | last hc =>
    have hstep := hs.step hc
    rwa [segmentOperations_cons, segmentOperations_nil, List.append_nil, Segment.operations, ← List.append_assoc]
  | cons hc _ _ _ _ ih =>
    have hstep := ih (hs.step hc)
    rwa [segmentOperations_cons, Segment.operations, ← List.append_assoc, ← List.append_assoc]

/-- The calls that the reply to a cycle makes all name its response, and there are some if the cycle reads. -/
theorem Encoded.named {maxops n : ℕ} {segs : List Segment} {recs : List Record}
    (h : Encoded p checked maxops rba n segs recs) (hrba : rba < 2 ^ 16) (heven : rba % 2 = 0) (s : Session σ) :
    recordAccesses p (s.run g p recs).2 =
        (writeBacks p (s.run g p recs).2).map (fun w => .writeConfig w.widths w.addr w.value) ∧
      (∀ w ∈ writeBacks p (s.run g p recs).2, w.addr &&& 0xFFFE = rba) ∧
      (writeBacks p (s.run g p recs).2 = [] ↔ ∀ r ∈ recs, r.reads = []) := by
  have hname : rba &&& 0xFFFE = rba ∧ (rba ||| 1) &&& 0xFFFE = rba := by
    have hmask : rba &&& 0xFFFE = rba := by
      have := AlignedMasks.and_mask_eq_self_iff (n := 16) (k := 1) (by decide) (a := rba)
      exact this.mpr ⟨hrba, Nat.dvd_of_mod_eq_zero heven⟩
    exact ⟨hmask, by rw [Nat.and_or_distrib_right, hmask]; exact Nat.or_zero _⟩
  have hrecord : ∀ {ws rs status rec} (_ : Covers p rba ws rs status rec) (s : Session σ),
      recordAccesses p (s.step g p rec).2 =
          (writeBacks p (s.step g p rec).2).map (fun w => .writeConfig w.widths w.addr w.value) ∧
        (∀ w ∈ writeBacks p (s.step g p rec).2, w.addr &&& 0xFFFE = rba) ∧
        (writeBacks p (s.step g p rec).2 = [] ↔ rec.reads = []) := by
    intro ws rs status rec hc s
    refine ⟨?_, ?_, ?_⟩
    · rw [hc.step_accesses, hc.step_writeBacks, List.map_map]
      rfl
    · intro w hw
      rw [hc.step_writeBacks, List.mem_map] at hw
      obtain ⟨value, -, rfl⟩ := hw
      dsimp only
      rw [hc.ret_eq]
      cases status with
      | true => exact hname.2
      | false => exact hname.1
    · rw [hc.step_writeBacks, List.map_eq_nil_iff, ← List.length_eq_zero_iff, length_performAll, Record.readList,
        List.length_map, List.length_eq_zero_iff]
  induction h generalizing s with
  | last hc =>
    obtain ⟨haccesses, hnames, hnil⟩ := hrecord hc s
    rw [Session.run_cons, Session.run_nil, List.append_nil]
    exact ⟨haccesses, hnames, by simpa using hnil⟩
  | cons hc _ _ _ _ ih =>
    obtain ⟨haccesses, hnames, hnil⟩ := hrecord hc s
    obtain ⟨haccesses', hnames', hnil'⟩ := ih (s.step g p _).1
    rw [Session.run_cons]
    dsimp only
    rw [recordAccesses_append, writeBacks_append, List.map_append, haccesses, haccesses', List.append_eq_nil_iff, hnil,
      hnil', List.forall_mem_cons]
    exact ⟨rfl, fun w hw => (List.mem_append.mp hw).elim (hnames w) (hnames' w), Iff.rfl⟩

/-- The response set up for a cycle. -/
def Response.start (address deadline device : ℕ) (ops : List Operation) : Response where
  address := address
  deadline := deadline
  device := device
  ops := ops
  writeCursor := ebFindRead ops 0
  statusCursor := if needsCheck ops then ebFindBus ops 0 else none

/-- The counter of the record loop, for a cycle that is not checked. -/
theorem maxOps_spec {ops : List Operation} (hcount : ops.length < 2 ^ 32 - 1) :
    if needsCheck ops then maxOps p (needsCheck ops) = p.data * 8 else 0 + busCount ops < maxOps p (needsCheck ops) := by
  have hle : busCount ops ≤ ops.length := List.countP_le_length
  cases needsCheck ops with
  | true => rfl
  | false =>
    rw [if_neg Bool.false_ne_true, maxOps, if_neg Bool.false_ne_true]
    omega

/-- The reply to a cycle completes its response with the answers of the peer. The response is incomplete until the
last write-back of the reply. -/
theorem cycle_answered (g : Glue σ) (hrba : rba < 2 ^ 16) (heven : rba % 2 = 0) {ops : List Operation} (hne : ops ≠ [])
    (hf : ∀ op ∈ ops, Formatted p op) (hcount : ops.length < 2 ^ 32 - 1) (deadline device : ℕ) (s : Session σ) :
    ∃ recs r', encodeCycle p rba ops = some recs ∧
      Response.Writes (Response.start rba deadline device ops) (writeBacks p (s.run g p recs).2) r' ∧ r'.Complete ∧
      r'.ops = answers g p (needsCheck ops) s.bus.sock s.bus.error ops := by
  obtain ⟨segs, recs, hrun, hops, henc⟩ := encodeCycle_spec hrba hne hf
  subst hops
  obtain ⟨r', hwrites, hcomplete, hanswers⟩ := henc.progress heven hf (maxOps_spec hcount) rfl
    (show Performed g p s.bus.sock s.bus.error [] s from ⟨rfl, rfl⟩) (Response.Progress.start rba deadline device _)
  exact ⟨recs, r', hrun, hwrites, hcomplete, hanswers⟩

end Cycle

namespace Sample

/-- A device that can be read only. -/
def sensor : Handler Unit where
  addrFirst := 0x4000
  addrLast := 0x40FF
  littleEndian := false
  read := some fun s _ _ => (s, 0x1234, false)
  write := none

def sensorGlue : Glue Unit := socketGlue [sensor] (fun _ _ _ => 0) (fun s _ _ _ => s)

/-- A read of it, and a write. -/
def readThenWrite : List Operation :=
  [{ wordRead with checked := true }, { wordRead with address := 0x4002, value := 7, kind := .write }]

theorem sensor_answered : ∃ recs r', encodeCycle narrowPort 0x8000 readThenWrite = some recs ∧
    Response.Writes (Response.start 0x8000 5 0 readThenWrite)
      (writeBacks narrowPort (Session.run sensorGlue narrowPort ⟨⟨(), 0, []⟩, true, false, false⟩ recs).2) r' ∧
    r'.Complete ∧ r'.ops =
      [{ wordRead with checked := true, value := 0x1234 },
        { wordRead with address := 0x4002, value := 7, kind := .write, error := true }] :=
  cycle_answered sensorGlue (by decide) (by decide) (by decide)
    (by
      intro op hop
      simp only [readThenWrite, List.mem_cons, List.not_mem_nil, or_false] at hop
      rcases hop with rfl | rfl
      · exact ⟨by decide, by decide, by decide, by decide, by decide, by decide, by decide, by decide⟩
      · exact ⟨by decide, by decide, by decide, by decide, by decide, by decide, by decide, by decide⟩)
    (by decide) 5 0 ⟨⟨(), 0, []⟩, true, false, false⟩

end Sample

end WhiteRabbit.Etherbone
