import WhiteRabbit.SpanTilings
import WhiteRabbit.ToolFormats

/-!
# Transferring an interval

`eb-put` and `eb-get` move an interval of addresses between a file and a device. Both run the same
three loops: small operations up to the first large boundary, large operations up to the last one,
and small operations to the end. `eb-put` gives up when its file is too short for an operation.
-/

namespace WhiteRabbit.Etherbone

open BigEndian MemoryWords SpanTilings

def operationsPerCycle : ℕ := 32

/-- A call of `transfer`. -/
structure Transfer where
  address : ℕ
  size : ℕ
  count : ℕ
  deriving DecidableEq, Repr

def Transfer.length (c : Transfer) : ℕ := c.size * c.count

section Loops

variable {σ : Type} (p : Port) (transfer : σ → Transfer → Option σ)

/-- `for (; cond; pos += ...) transfer(...)`. None is a program that has left with an error, or
not left the loop after so many turns. -/
def transferLoop (cond : ℕ → Bool) (call : ℕ → Transfer) : ℕ → ℕ → σ → Option (ℕ × σ)
  | 0, _, _ => none
  | fuel + 1, pos, s =>
    if cond pos then
      (transfer s (call pos)).bind
        (transferLoop cond call fuel ((pos + (call pos).length) % 256 ^ p.word))
    else some (pos, s)

/-- Write any edge chunks needed to reach bulk alignment. -/
def headLoop (sizes : AccessSizes p) : ℕ → ℕ → σ → Option (ℕ × σ) :=
  transferLoop p transfer (fun pos => pos &&& (sizes.bulk - 1) != 0) fun pos => ⟨pos, sizes.edge, 1⟩

/-- Don't put too many in one cycle. -/
def bulkLoop (sizes : AccessSizes p) (endBulk : ℕ) : ℕ → ℕ → σ → Option (ℕ × σ) :=
  transferLoop p transfer (fun pos => pos < endBulk) fun pos =>
    ⟨pos, sizes.bulk, min ((endBulk - pos) / sizes.bulk) operationsPerCycle⟩

/-- Write any edge chunks needed to reach the final address. -/
def tailLoop (sizes : AccessSizes p) (endAddress : ℕ) : ℕ → ℕ → σ → Option (ℕ × σ) :=
  transferLoop p transfer (fun pos => pos < endAddress) fun pos => ⟨pos, sizes.edge, 1⟩

/-- The three loops of `main`. The waits between them only give time to callbacks. -/
def transferAll (sizes : AccessSizes p) (address length fuel : ℕ) (s : σ) : Option σ :=
  let endAddress := (address + length) % 256 ^ p.word
  let endBulk := endAddress &&& (256 ^ p.word - sizes.bulk)
  (headLoop p transfer sizes fuel address s).bind fun head =>
    (bulkLoop p transfer sizes endBulk fuel head.1 head.2).bind fun bulk =>
      (tailLoop p transfer sizes endAddress fuel bulk.1 bulk.2).map Prod.snd

end Loops

section Put

variable (p : Port) (endian : Endian)

/-- The unread rest of `firmware_f`, and the cycles closed so far. -/
structure PutState where
  unread : Bytes
  cycles : List (List Operation) := []

/-- The operations of one cycle. A short read ends the program. -/
def putOperations (size : ℕ) : ℕ → ℕ → Bytes → Option (List Operation × Bytes)
  | 0, _, unread => some ([], unread)
  | count + 1, address, unread =>
    if unread.length < size then none
    else
      let op : Operation :=
        { address, value := bufferData p endian (unread.take size), kind := .write, cfgSpace := false,
          format := endianBits endian ||| size }
      (putOperations size count ((address + size) % 256 ^ p.word) (unread.drop size)).map fun rest =>
        (op :: rest.1, rest.2)

/-- `transfer` of `eb-put`. -/
def putTransfer (s : PutState) (c : Transfer) : Option PutState :=
  (putOperations p endian c.size c.count c.address s.unread).map fun done =>
    ⟨done.2, s.cycles ++ [done.1]⟩

def ebPut (sizes : AccessSizes p) (address fuel : ℕ) (firmware : Bytes) : Option PutState :=
  transferAll p (putTransfer p endian) sizes address firmware.length fuel ⟨firmware, []⟩

end Put

section Get

variable (p : Port) (endian : Endian)

def getOperations (size : ℕ) : ℕ → ℕ → List Operation
  | 0, _ => []
  | count + 1, address =>
    { address, value := 0, kind := .readVal, cfgSpace := false, format := endianBits endian ||| size } ::
      getOperations size count ((address + size) % 256 ^ p.word)

/-- `transfer` of `eb-get`. -/
def getTransfer (cycles : List (List Operation)) (c : Transfer) : Option (List (List Operation)) :=
  some (cycles ++ [getOperations p endian c.size c.count c.address])

def ebGet (sizes : AccessSizes p) (address length fuel : ℕ) : Option (List (List Operation)) :=
  transferAll p (getTransfer p endian) sizes address length fuel []

/-- The file that `eb-get` writes, with the bytes that were written. -/
structure Output where
  content : ℕ → Option UInt8 := fun _ => none
  position : ℕ := 0
  lastoff : ℕ := 0

def Output.fseeko (out : Output) (off : ℕ) : Output := { out with position := off, lastoff := off }

def Output.fwrite (out : Output) (buffer : Bytes) : Output :=
  { out with
    content := fun i =>
      if out.position ≤ i ∧ i < out.position + buffer.length then buffer[i - out.position]?
      else out.content i
    position := out.position + buffer.length }

/-- One turn of the loop of `dec_todo`. An operation with an error ends the program. -/
def decTodoOperation (address : ℕ) (out : Output) (op : Operation) : Option Output :=
  let off := (op.address + (256 ^ p.word - address)) % 256 ^ p.word
  if op.error then none
  else
    let format := if op.endian = 0 then endianBits endian else op.endian
    let buffer := dataBuffer (if format = ebBigEndian then .big else .little) op.size op.value
    let out := if off ≠ out.lastoff then out.fseeko off else out
    let out := out.fwrite buffer
    some { out with lastoff := (out.lastoff + op.size) % 256 ^ p.word }

def decTodo (address : ℕ) (out : Output) (status : Status) (ops : List Operation) : Option Output :=
  if status ≠ .ok then none else ops.foldlM (decTodoOperation p endian address) out

end Get

section Calls

variable {σ : Type} {p : Port} {transfer : σ → Transfer → Option σ}

/-- The calls that a loop makes, and where it leaves the position. -/
def loopCalls (p : Port) (cond : ℕ → Bool) (call : ℕ → Transfer) : ℕ → ℕ → Option (ℕ × List Transfer)
  | 0, _ => none
  | fuel + 1, pos =>
    if cond pos then
      (loopCalls p cond call fuel ((pos + (call pos).length) % 256 ^ p.word)).map fun rest =>
        (rest.1, call pos :: rest.2)
    else some (pos, [])

/-- Perform the calls of a loop. -/
def performCalls (transfer : σ → Transfer → Option σ) (s : σ) (calls : ℕ × List Transfer) : Option (ℕ × σ) :=
  (calls.2.foldlM transfer s).map (Prod.mk calls.1)

/-- A loop performs its calls one after the other. -/
theorem transferLoop_eq (cond : ℕ → Bool) (call : ℕ → Transfer) (fuel pos : ℕ) (s : σ) :
    transferLoop p transfer cond call fuel pos s =
      (loopCalls p cond call fuel pos).bind (performCalls transfer s) := by
  induction fuel generalizing pos s with
  | zero => rfl
  | succ fuel ih =>
    rw [transferLoop, loopCalls]
    split
    · simp only [ih]
      cases htransfer : transfer s (call pos) <;>
        cases loopCalls p cond call fuel ((pos + (call pos).length) % 256 ^ p.word) <;>
        simp [performCalls, htransfer]
    · rfl

section Planned

variable (sizes : AccessSizes p)

def headCalls : ℕ → ℕ → Option (ℕ × List Transfer) :=
  loopCalls p (fun pos => pos &&& (sizes.bulk - 1) != 0) fun pos => ⟨pos, sizes.edge, 1⟩

def bulkCalls (endBulk : ℕ) : ℕ → ℕ → Option (ℕ × List Transfer) :=
  loopCalls p (fun pos => pos < endBulk) fun pos =>
    ⟨pos, sizes.bulk, min ((endBulk - pos) / sizes.bulk) operationsPerCycle⟩

def tailCalls (endAddress : ℕ) : ℕ → ℕ → Option (ℕ × List Transfer) :=
  loopCalls p (fun pos => pos < endAddress) fun pos => ⟨pos, sizes.edge, 1⟩

/-- The calls of the three loops. -/
def planned (address length fuel : ℕ) : Option (List Transfer) :=
  let endAddress := (address + length) % 256 ^ p.word
  let endBulk := endAddress &&& (256 ^ p.word - sizes.bulk)
  (headCalls sizes fuel address).bind fun head =>
    (bulkCalls sizes endBulk fuel head.1).bind fun bulk =>
      (tailCalls sizes endAddress fuel bulk.1).map fun tail => head.2 ++ (bulk.2 ++ tail.2)

theorem headLoop_eq (fuel pos : ℕ) (s : σ) :
    headLoop p transfer sizes fuel pos s = (headCalls sizes fuel pos).bind (performCalls transfer s) :=
  transferLoop_eq _ _ fuel pos s

theorem bulkLoop_eq (endBulk fuel pos : ℕ) (s : σ) :
    bulkLoop p transfer sizes endBulk fuel pos s =
      (bulkCalls sizes endBulk fuel pos).bind (performCalls transfer s) :=
  transferLoop_eq _ _ fuel pos s

theorem tailLoop_eq (endAddress fuel pos : ℕ) (s : σ) :
    tailLoop p transfer sizes endAddress fuel pos s =
      (tailCalls sizes endAddress fuel pos).bind (performCalls transfer s) :=
  transferLoop_eq _ _ fuel pos s

/-- A tool makes the planned calls, until one of them fails. -/
theorem transferAll_eq (address length fuel : ℕ) (s : σ) :
    transferAll p transfer sizes address length fuel s =
      (planned sizes address length fuel).bind fun calls => calls.foldlM transfer s := by
  simp only [transferAll, planned, headLoop_eq, bulkLoop_eq, tailLoop_eq]
  cases headCalls sizes fuel address with
  | none => rfl
  | some head =>
    cases hbulk : bulkCalls sizes ((address + length) % 256 ^ p.word &&& (256 ^ p.word - sizes.bulk)) fuel head.1 with
    | none =>
      cases hfold : head.2.foldlM transfer s <;> simp [performCalls, hbulk, hfold]
    | some bulk =>
      cases htail : tailCalls sizes ((address + length) % 256 ^ p.word) fuel bulk.1 with
      | none =>
        cases hfold : head.2.foldlM transfer s with
        | none => simp [performCalls, hbulk, htail, hfold]
        | some s' => cases hfold' : bulk.2.foldlM transfer s' <;> simp [performCalls, hbulk, htail, hfold, hfold']
      | some tail =>
        cases hfold : head.2.foldlM transfer s with
        | none => simp [performCalls, hbulk, htail, hfold]
        | some s' => cases hfold' : bulk.2.foldlM transfer s' <;> simp [performCalls, hbulk, htail, hfold, hfold', Function.comp_def]

end Planned

end Calls

section Spans

variable {p : Port}

def Operation.span (op : Operation) : Span := (op.address, op.size)

def Transfer.span (c : Transfer) : Span := (c.address, c.length)

/-- The spans of the operations of one cycle. -/
def cycleSpans (p : Port) (size : ℕ) : ℕ → ℕ → List Span
  | 0, _ => []
  | count + 1, address => (address, size) :: cycleSpans p size count ((address + size) % 256 ^ p.word)

def Transfer.spans (p : Port) (c : Transfer) : List Span := cycleSpans p c.size c.count c.address

theorem cycleSpans_tiles {size count address : ℕ} (hs : IsSize size) (h : address + size * count ≤ 256 ^ p.word) :
    Tiles address (cycleSpans p size count address) (address + size * count) := by
  induction count generalizing address with
  | zero => simp [cycleSpans]
  | succ count ih =>
    refine ⟨rfl, ?_⟩
    rcases count.eq_zero_or_pos with rfl | hpos
    · simp [cycleSpans]
    · have hmul : size * (count + 1) = size + size * count := by ring
      have hrest : size ≤ size * count := Nat.le_mul_of_pos_right size hpos
      have hsize := hs.pos
      have hmod : (address + size) % 256 ^ p.word = address + size := Nat.mod_eq_of_lt (by omega)
      have hsum : address + size * (count + 1) = address + size + size * count := by omega
      rw [hmod, hsum]
      exact ih (by omega)

theorem cycleSpans_aligned {size count address : ℕ} (hs : IsSize size) (h : size ∣ address) :
    ∀ s ∈ cycleSpans p size count address, s.2 ∣ s.1 := by
  induction count generalizing address with
  | zero => simp [cycleSpans]
  | succ count ih =>
    intro s hs'
    rcases List.mem_cons.mp hs' with rfl | hrest
    · exact h
    · exact ih ((Nat.dvd_mod_iff (size_dvd_range hs)).mpr ((Nat.dvd_add_right h).mpr dvd_rfl)) s hrest

theorem cycleSpans_size {size count address : ℕ} : ∀ s ∈ cycleSpans p size count address, s.2 = size := by
  induction count generalizing address with
  | zero => simp [cycleSpans]
  | succ count ih =>
    intro s hs
    rcases List.mem_cons.mp hs with rfl | hrest
    · rfl
    · exact ih s hrest

theorem sum_cycleSpans (size count address : ℕ) :
    ((cycleSpans p size count address).map Prod.snd).sum = size * count := by
  induction count generalizing address with
  | zero => rfl
  | succ count ih =>
    rw [cycleSpans, List.map_cons, List.sum_cons, ih]
    ring

theorem sum_spans (calls : List Transfer) :
    ((calls.flatMap (Transfer.spans p)).map Prod.snd).sum = (calls.map Transfer.length).sum := by
  induction calls with
  | nil => rfl
  | cons c calls ih =>
    rw [List.flatMap_cons, List.map_append, List.sum_append, ih, Transfer.spans, sum_cycleSpans, List.map_cons,
      List.sum_cons, Transfer.length]

end Spans

section Runs

variable {p : Port} {cond : ℕ → Bool} {call : ℕ → Transfer} {fuel pos pos' limit : ℕ} {cs : List Transfer}

/-- Every call of a loop is made at a position that passes its condition. -/
theorem loopCalls_mem (h : loopCalls p cond call fuel pos = some (pos', cs)) :
    cond pos' = false ∧ ∀ c ∈ cs, ∃ q, c = call q ∧ cond q = true := by
  induction fuel generalizing pos cs with
  | zero => cases h
  | succ fuel ih =>
    rw [loopCalls] at h
    split at h
    · rename_i hcond
      obtain ⟨rest, hrest, heq⟩ := Option.map_eq_some_iff.mp h
      cases heq
      obtain ⟨hend, hmem⟩ := ih hrest
      refine ⟨hend, fun c hc => ?_⟩
      rcases List.mem_cons.mp hc with rfl | hc
      · exact ⟨pos, rfl, hcond⟩
      · exact hmem c hc
    · rename_i hcond
      cases h
      exact ⟨by simpa using hcond, by simp⟩

/-- Calls that stay in the address space follow each other without a gap. -/
theorem loopCalls_tiles (hcall : ∀ q, (call q).address = q)
    (h : loopCalls p cond call fuel pos = some (pos', cs)) (hlimit : limit < 256 ^ p.word)
    (hcs : ∀ c ∈ cs, c.address + c.length ≤ limit) : Tiles pos (cs.map Transfer.span) pos' := by
  induction fuel generalizing pos cs with
  | zero => cases h
  | succ fuel ih =>
    rw [loopCalls] at h
    split at h
    · obtain ⟨rest, hrest, heq⟩ := Option.map_eq_some_iff.mp h
      cases heq
      have hle := hcs (call pos) (by simp)
      rw [hcall] at hle
      rw [Nat.mod_eq_of_lt (hle.trans_lt hlimit)] at hrest
      exact ⟨hcall pos, ih hrest fun c hc => hcs c (List.mem_cons_of_mem _ hc)⟩
    · cases h
      rfl

/-- Calls that stay below a limit lead no further. -/
theorem loopCalls_reaches {d : ℕ} (hcall : ∀ q, (call q).address = q ∧ d ∣ (call q).length)
    (h : loopCalls p cond call fuel pos = some (pos', cs)) (hlimit : limit < 256 ^ p.word) (hpos : pos ≤ limit)
    (hcs : ∀ q, call q ∈ cs → cond q = true → q + (call q).length ≤ limit) :
    pos ≤ pos' ∧ pos' ≤ limit ∧ d ∣ pos' - pos ∧ cond pos' = false := by
  obtain ⟨hend, hmem⟩ := loopCalls_mem h
  have hbelow : ∀ c ∈ cs, c.address + c.length ≤ limit := by
    intro c hc
    obtain ⟨q, rfl, hcond⟩ := hmem c hc
    rw [(hcall q).1]
    exact hcs q hc hcond
  have htiles := loopCalls_tiles (fun q => (hcall q).1) h hlimit hbelow
  refine ⟨htiles.le, htiles.le_limit hpos ?_, htiles.dvd_sub ?_, hend⟩
  · intro s hs
    obtain ⟨c, hc, rfl⟩ := List.mem_map.mp hs
    exact hbelow c hc
  · intro s hs
    obtain ⟨c, hc, rfl⟩ := List.mem_map.mp hs
    obtain ⟨q, rfl, -⟩ := hmem c hc
    exact (hcall q).2

/-- What a loop has done between two positions. -/
structure Stage (p : Port) (pos : ℕ) (cs : List Transfer) (pos' : ℕ) : Prop where
  tiles : Tiles pos (cs.flatMap (Transfer.spans p)) pos'
  aligned : ∀ s ∈ cs.flatMap (Transfer.spans p), s.2 ∣ s.1

theorem Stage.append {pos'' : ℕ} {cs' : List Transfer} (h : Stage p pos cs pos') (h' : Stage p pos' cs' pos'') :
    Stage p pos (cs ++ cs') pos'' where
  tiles := by
    rw [List.flatMap_append]
    exact h.tiles.append h'.tiles
  aligned := by
    intro s hs
    rw [List.flatMap_append] at hs
    exact (List.mem_append.mp hs).elim (h.aligned s) (h'.aligned s)

/-- A loop that moves forward below a limit comes to its end. -/
theorem loopCalls_done (inv : ℕ → Prop) {size : ℕ} (hsize : IsSize size)
    (hcall : ∀ q, (call q).address = q ∧ (call q).size = size) (hlimit : limit < 256 ^ p.word)
    (hstep : ∀ q, inv q → cond q = true → size ∣ q ∧ 0 < (call q).length ∧
      q + (call q).length ≤ limit ∧ inv (q + (call q).length))
    (hpos : inv pos) (hfuel : limit - pos < fuel) :
    ∃ pos' cs, loopCalls p cond call fuel pos = some (pos', cs) ∧ Stage p pos cs pos' ∧ inv pos' ∧
      cond pos' = false := by
  induction fuel generalizing pos with
  | zero => omega
  | succ fuel ih =>
    rw [loopCalls]
    by_cases hcond : cond pos = true
    · obtain ⟨hdvd, hlen, hle, hinv⟩ := hstep pos hpos hcond
      obtain ⟨pos', cs, hcalls, hstage, hinv', hend⟩ := ih hinv (by omega)
      rw [if_pos hcond, Nat.mod_eq_of_lt (hle.trans_lt hlimit), hcalls]
      have hspans : (call pos).spans p = cycleSpans p size (call pos).count pos := by
        rw [Transfer.spans, (hcall pos).1, (hcall pos).2]
      have hlength : (call pos).length = size * (call pos).count := by
        rw [Transfer.length, (hcall pos).2]
      have hfirst : Stage p pos [call pos] (pos + (call pos).length) := by
        constructor
        · rw [List.flatMap_singleton, hspans, hlength]
          exact cycleSpans_tiles hsize (by omega)
        · rw [List.flatMap_singleton, hspans]
          exact cycleSpans_aligned hsize hdvd
      exact ⟨pos', call pos :: cs, rfl, hfirst.append hstage, hinv', hend⟩
    · rw [if_neg hcond]
      exact ⟨pos, [], rfl, ⟨rfl, by simp⟩, hpos, by simpa using hcond⟩

end Runs

section Planning

variable {p : Port} (sizes : AccessSizes p) (address length : ℕ)

/-- The first multiple of the large size from an address on. -/
def roundUp (size address : ℕ) : ℕ := (address + size - 1) / size * size

/-- The interval starts and ends between small operations, and does not end before the first
boundary of the large ones. -/
structure Plannable : Prop where
  edge_address : sizes.edge ∣ address
  edge_length : sizes.edge ∣ length
  reaches : roundUp sizes.bulk address ≤ address + length

variable {address length}

theorem le_roundUp {size : ℕ} (h : 0 < size) : address ≤ roundUp size address := by
  have hmod := Nat.div_add_mod' (address + size - 1) size
  have hlt := Nat.mod_lt (address + size - 1) h
  rw [roundUp]
  omega

theorem roundUp_le {size a : ℕ} (h : 0 < size) (hle : address ≤ a) (hdvd : size ∣ a) :
    roundUp size address ≤ a := by
  obtain ⟨k, rfl⟩ := hdvd
  have hlt : (address + size - 1) / size < k + 1 := by
    rw [Nat.div_lt_iff_lt_mul h, Nat.succ_mul, Nat.mul_comm]
    omega
  rw [roundUp, Nat.mul_comm]
  exact Nat.mul_le_mul_left size (Nat.le_of_lt_succ hlt)

theorem AccessSizes.edge_dvd : sizes.edge ∣ sizes.bulk := sizes.edge_mem.dvd_of_le sizes.bulk_mem sizes.edge_le

theorem not_bulk_iff (pos : ℕ) : (pos &&& (sizes.bulk - 1) != 0) = true ↔ ¬ sizes.bulk ∣ pos := by
  rw [and_size sizes.bulk_mem, bne_iff_ne, Nat.dvd_iff_mod_eq_zero]

theorem bulk_length (endBulk q : ℕ) :
    (Transfer.mk q sizes.bulk (min ((endBulk - q) / sizes.bulk) operationsPerCycle)).length ≤ endBulk - q :=
  (Nat.mul_le_mul_left _ (Nat.min_le_left _ _)).trans (Nat.mul_div_le _ _)

section Stages

variable {limit fuel pos : ℕ} (hlimit : limit < 256 ^ p.word) (hfuel : limit < fuel)

include hlimit hfuel

theorem headCalls_done (hpos : sizes.edge ∣ pos) (hle : roundUp sizes.bulk pos ≤ limit) :
    ∃ pos' cs, headCalls sizes fuel pos = some (pos', cs) ∧ Stage p pos cs pos' ∧ sizes.bulk ∣ pos' ∧
      pos' ≤ limit := by
  have hup : sizes.bulk ∣ roundUp sizes.bulk pos := Nat.dvd_mul_left _ _
  have hedge := sizes.edge_mem.pos
  have hstep : ∀ q, (sizes.edge ∣ q ∧ q ≤ roundUp sizes.bulk pos) → (q &&& (sizes.bulk - 1) != 0) = true →
      sizes.edge ∣ q ∧ 0 < (Transfer.mk q sizes.edge 1).length ∧
        q + (Transfer.mk q sizes.edge 1).length ≤ limit ∧
        sizes.edge ∣ q + (Transfer.mk q sizes.edge 1).length ∧
        q + (Transfer.mk q sizes.edge 1).length ≤ roundUp sizes.bulk pos := by
    rintro q ⟨hq, hqle⟩ hcond
    rw [not_bulk_iff] at hcond
    have hne : q ≠ roundUp sizes.bulk pos := fun heq => hcond (heq ▸ hup)
    have hadd := add_le_of_dvd hq (sizes.edge_dvd.trans hup) (by omega)
    rw [Transfer.length, Nat.mul_one]
    exact ⟨hq, hedge, hadd.trans hle, Nat.dvd_add hq dvd_rfl, hadd⟩
  obtain ⟨pos', cs, hcalls, hstage, hinv, hend⟩ := loopCalls_done _ sizes.edge_mem
    (fun q => ⟨rfl, rfl⟩) hlimit hstep ⟨hpos, le_roundUp sizes.bulk_mem.pos⟩ (show limit - pos < fuel by omega)
  rw [Bool.eq_false_iff, ne_eq, not_bulk_iff, not_not] at hend
  exact ⟨pos', cs, hcalls, hstage, hend, hinv.2.trans hle⟩

theorem bulkCalls_done {endBulk : ℕ} (hpos : sizes.bulk ∣ pos) (hbulk : sizes.bulk ∣ endBulk)
    (hle : pos ≤ endBulk) (hend : endBulk ≤ limit) :
    ∃ cs, bulkCalls sizes endBulk fuel pos = some (endBulk, cs) ∧ Stage p pos cs endBulk := by
  have hstep : ∀ q, (sizes.bulk ∣ q ∧ q ≤ endBulk) → decide (q < endBulk) = true →
      sizes.bulk ∣ q ∧
        0 < (Transfer.mk q sizes.bulk (min ((endBulk - q) / sizes.bulk) operationsPerCycle)).length ∧
        q + (Transfer.mk q sizes.bulk (min ((endBulk - q) / sizes.bulk) operationsPerCycle)).length ≤ limit ∧
        sizes.bulk ∣
          q + (Transfer.mk q sizes.bulk (min ((endBulk - q) / sizes.bulk) operationsPerCycle)).length ∧
        q + (Transfer.mk q sizes.bulk (min ((endBulk - q) / sizes.bulk) operationsPerCycle)).length ≤ endBulk := by
    rintro q ⟨hq, hqle⟩ hcond
    have hlt : q < endBulk := of_decide_eq_true hcond
    have hadd := add_le_of_dvd hq hbulk hlt
    have hlen := bulk_length sizes endBulk q
    have hcount : 0 < min ((endBulk - q) / sizes.bulk) operationsPerCycle :=
      lt_min (Nat.div_pos (by omega) sizes.bulk_mem.pos) (by decide)
    exact ⟨hq, Nat.mul_pos sizes.bulk_mem.pos hcount, by omega,
      Nat.dvd_add hq (Nat.dvd_mul_right _ _), by omega⟩
  obtain ⟨pos', cs, hcalls, hstage, hinv, hcond⟩ := loopCalls_done _ sizes.bulk_mem
    (fun q => ⟨rfl, rfl⟩) hlimit hstep ⟨hpos, hle⟩ (show limit - pos < fuel by omega)
  have heq : pos' = endBulk := by
    have hge := of_decide_eq_false hcond
    omega
  exact ⟨cs, heq ▸ hcalls, heq ▸ hstage⟩

theorem tailCalls_done {endAddress : ℕ} (hpos : sizes.edge ∣ pos) (hedge : sizes.edge ∣ endAddress)
    (hle : pos ≤ endAddress) (hend : endAddress ≤ limit) :
    ∃ cs, tailCalls sizes endAddress fuel pos = some (endAddress, cs) ∧ Stage p pos cs endAddress := by
  have hstep : ∀ q, (sizes.edge ∣ q ∧ q ≤ endAddress) → decide (q < endAddress) = true →
      sizes.edge ∣ q ∧ 0 < (Transfer.mk q sizes.edge 1).length ∧
        q + (Transfer.mk q sizes.edge 1).length ≤ limit ∧
        sizes.edge ∣ q + (Transfer.mk q sizes.edge 1).length ∧
        q + (Transfer.mk q sizes.edge 1).length ≤ endAddress := by
    rintro q ⟨hq, hqle⟩ hcond
    have hadd := add_le_of_dvd hq hedge (of_decide_eq_true hcond)
    rw [Transfer.length, Nat.mul_one]
    exact ⟨hq, sizes.edge_mem.pos, hadd.trans hend, Nat.dvd_add hq dvd_rfl, hadd⟩
  obtain ⟨pos', cs, hcalls, hstage, hinv, hcond⟩ := loopCalls_done _ sizes.edge_mem
    (fun q => ⟨rfl, rfl⟩) hlimit hstep ⟨hpos, hle⟩ (show limit - pos < fuel by omega)
  have heq : pos' = endAddress := by
    have hge := of_decide_eq_false hcond
    omega
  exact ⟨cs, heq ▸ hcalls, heq ▸ hstage⟩

end Stages

/-- The planned calls use the two sizes. -/
theorem planned_mem {fuel : ℕ} {calls : List Transfer} (h : planned sizes address length fuel = some calls) :
    ∀ c ∈ calls, c.size = sizes.edge ∨ c.size = sizes.bulk := by
  obtain ⟨⟨pos₁, cs₁⟩, hcalls₁, h⟩ := Option.bind_eq_some_iff.mp h
  obtain ⟨⟨pos₂, cs₂⟩, hcalls₂, h⟩ := Option.bind_eq_some_iff.mp h
  obtain ⟨⟨pos₃, cs₃⟩, hcalls₃, rfl⟩ := Option.map_eq_some_iff.mp h
  intro c hc
  rcases List.mem_append.mp hc with hc | hc
  · obtain ⟨q, rfl, -⟩ := (loopCalls_mem hcalls₁).2 c hc
    exact Or.inl rfl
  rcases List.mem_append.mp hc with hc | hc
  · obtain ⟨q, rfl, -⟩ := (loopCalls_mem hcalls₂).2 c hc
    exact Or.inr rfl
  · obtain ⟨q, rfl, -⟩ := (loopCalls_mem hcalls₃).2 c hc
    exact Or.inl rfl

theorem planned_size {fuel : ℕ} {calls : List Transfer} (h : planned sizes address length fuel = some calls) :
    ∀ c ∈ calls, IsSize c.size := by
  intro c hc
  rcases planned_mem sizes h c hc with hsize | hsize <;> rw [hsize]
  exacts [sizes.edge_mem, sizes.bulk_mem]

theorem planned_le {fuel : ℕ} {calls : List Transfer} (h : planned sizes address length fuel = some calls) :
    ∀ c ∈ calls, c.size ≤ p.word := by
  intro c hc
  have hbulk := sizes.bulk_le.trans p.data_le
  rcases planned_mem sizes h c hc with hsize | hsize <;> rw [hsize]
  exacts [sizes.edge_le.trans hbulk, hbulk]

section Whole

variable (hwrap : address + length < 256 ^ p.word)

include hwrap

/-- Where the interval can be planned, the three loops tile it with aligned operations. -/
theorem planned_stage (h : Plannable sizes address length) :
    ∃ fuel calls, planned sizes address length fuel = some calls ∧
      Stage p address calls (address + length) := by
  have hend : (address + length) % 256 ^ p.word = address + length := Nat.mod_eq_of_lt hwrap
  have hbulk : sizes.bulk ∣ (address + length) / sizes.bulk * sizes.bulk := Nat.dvd_mul_left _ _
  have hbulkle : (address + length) / sizes.bulk * sizes.bulk ≤ address + length := Nat.div_mul_le_self _ _
  have hfuel : address + length < address + length + 1 := Nat.lt_succ_self _
  obtain ⟨pos₁, cs₁, hcalls₁, hstage₁, hdvd₁, hle₁⟩ :=
    headCalls_done sizes hwrap hfuel h.edge_address h.reaches
  have hle : pos₁ ≤ (address + length) / sizes.bulk * sizes.bulk := by
    rw [← Nat.div_mul_cancel hdvd₁]
    exact Nat.mul_le_mul_right _ (Nat.div_le_div_right hle₁)
  obtain ⟨cs₂, hcalls₂, hstage₂⟩ := bulkCalls_done sizes hwrap hfuel hdvd₁ hbulk hle hbulkle
  obtain ⟨cs₃, hcalls₃, hstage₃⟩ := tailCalls_done sizes hwrap hfuel (sizes.edge_dvd.trans hbulk)
    (Nat.dvd_add h.edge_address h.edge_length) hbulkle le_rfl
  refine ⟨address + length + 1, cs₁ ++ (cs₂ ++ cs₃), ?_, hstage₁.append (hstage₂.append hstage₃)⟩
  simp [planned, hend, and_range sizes.bulk_mem hwrap, hcalls₁, hcalls₂, hcalls₃]

/-- Loops that come to their end inside the interval have found it fit for planning. -/
theorem plannable_of_planned {fuel : ℕ} {calls : List Transfer}
    (h : planned sizes address length fuel = some calls)
    (hin : ∀ s ∈ calls.flatMap (Transfer.spans p), 0 < s.2 → s.1 + s.2 ≤ address + length) :
    Plannable sizes address length := by
  have hend : (address + length) % 256 ^ p.word = address + length := Nat.mod_eq_of_lt hwrap
  have hbulkle : (address + length) / sizes.bulk * sizes.bulk ≤ address + length := Nat.div_mul_le_self _ _
  simp only [planned, hend, and_range sizes.bulk_mem hwrap] at h
  obtain ⟨⟨pos₁, cs₁⟩, hcalls₁, h⟩ := Option.bind_eq_some_iff.mp h
  obtain ⟨⟨pos₂, cs₂⟩, hcalls₂, h⟩ := Option.bind_eq_some_iff.mp h
  obtain ⟨⟨pos₃, cs₃⟩, hcalls₃, rfl⟩ := Option.map_eq_some_iff.mp h
  have hedge : ∀ q, Transfer.mk q sizes.edge 1 ∈ cs₁ ++ (cs₂ ++ cs₃) →
      q + (Transfer.mk q sizes.edge 1).length ≤ address + length := by
    intro q hq
    rw [Transfer.length, Nat.mul_one]
    have hspan : (q, sizes.edge) ∈ (Transfer.mk q sizes.edge 1).spans p := by simp [Transfer.spans, cycleSpans]
    exact hin (q, sizes.edge) (List.mem_flatMap_of_mem hq hspan) sizes.edge_mem.pos
  obtain ⟨hge₁, hle₁, hdvd₁, hcond₁⟩ := loopCalls_reaches (fun q => ⟨rfl, Nat.dvd_mul_right sizes.edge 1⟩)
    hcalls₁ hwrap (Nat.le_add_right _ _) fun q hq _ => hedge q (by simp [hq])
  obtain ⟨hge₂, hle₂, hdvd₂, -⟩ := loopCalls_reaches (fun q => ⟨rfl, Nat.dvd_mul_right sizes.bulk _⟩)
    hcalls₂ hwrap hle₁ fun q _ hcond => by
      have hlen := bulk_length sizes ((address + length) / sizes.bulk * sizes.bulk) q
      have hlt := of_decide_eq_true hcond
      omega
  obtain ⟨hge₃, hle₃, hdvd₃, hcond₃⟩ := loopCalls_reaches (fun q => ⟨rfl, Nat.dvd_mul_right sizes.edge 1⟩)
    hcalls₃ hwrap hle₂ fun q hq _ => hedge q (by simp [hq])
  have hbulk : sizes.bulk ∣ pos₁ := by
    rw [Bool.eq_false_iff, ne_eq, not_bulk_iff, not_not] at hcond₁
    exact hcond₁
  have hlast : pos₃ = address + length := by
    have hge := of_decide_eq_false hcond₃
    omega
  have hsub : length = (pos₁ - address) + (pos₂ - pos₁) + (pos₃ - pos₂) := by omega
  refine ⟨?_, ?_, (roundUp_le sizes.bulk_mem.pos hge₁ hbulk).trans hle₁⟩
  · have hdvd := Nat.dvd_sub (sizes.edge_dvd.trans hbulk) hdvd₁
    rwa [Nat.sub_sub_self hge₁] at hdvd
  · rw [hsub]
    exact Nat.dvd_add (Nat.dvd_add hdvd₁ (sizes.edge_dvd.trans hdvd₂)) hdvd₃

end Whole

end Planning

section Exact

variable {p : Port} {endian : Endian} {sizes : AccessSizes p} {address length : ℕ} {calls : List Transfer}

/-- The operations cover every byte of the interval once and no byte outside it, each of them
aligned to its own size. -/
structure ExactCover (address length : ℕ) (ops : List Operation) : Prop where
  once : ∀ x, address ≤ x → x < address + length → coverage x (ops.map Operation.span) = 1
  outside : ∀ x, x < address ∨ address + length ≤ x → coverage x (ops.map Operation.span) = 0
  aligned : ∀ op ∈ ops, op.size ∣ op.address

theorem Stage.exactCover {ops : List Operation} (h : Stage p address calls (address + length))
    (hops : ops.map Operation.span = calls.flatMap (Transfer.spans p)) : ExactCover address length ops where
  once := by
    intro x hge hlt
    rw [hops, h.tiles.coverage_eq, if_pos ⟨hge, hlt⟩]
  outside := by
    intro x hx
    rw [hops, h.tiles.coverage_eq, if_neg (by omega)]
  aligned := by
    intro op hop
    exact h.aligned op.span (hops ▸ List.mem_map_of_mem hop)

theorem ExactCover.le {ops : List Operation} (h : ExactCover address length ops) {s : Span}
    (hs : s ∈ ops.map Operation.span) (hpos : 0 < s.2) : address ≤ s.1 ∧ s.1 + s.2 ≤ address + length := by
  have hcover : ∀ x, s.1 ≤ x → x < s.1 + s.2 → 0 < coverage x (ops.map Operation.span) :=
    fun x hge hlt => coverage_pos_iff.mpr ⟨s, hs, hge, hlt⟩
  constructor
  · by_contra hgt
    have hout := h.outside s.1 (by omega)
    have hin := hcover s.1 le_rfl (by omega)
    omega
  · by_contra hgt
    have hout := h.outside (s.1 + s.2 - 1) (by omega)
    have hin := hcover (s.1 + s.2 - 1) (by omega) (by omega)
    omega

section Put

variable {s s' : PutState}

theorem putOperations_span {size count : ℕ} (hs : IsSize size) {unread rest : Bytes} {ops : List Operation}
    (h : putOperations p endian size count address unread = some (ops, rest)) :
    ops.map Operation.span = cycleSpans p size count address := by
  induction count generalizing address unread ops with
  | zero =>
    cases h
    rfl
  | succ count ih =>
    rw [putOperations] at h
    split at h
    · cases h
    · obtain ⟨later, hlater, heq⟩ := Option.map_eq_some_iff.mp h
      cases heq
      rw [List.map_cons, cycleSpans, ih hlater, Operation.span, Operation.size, format_size endian hs]

theorem putOperations_some (p : Port) (endian : Endian) (address : ℕ) {size count : ℕ} {unread : Bytes}
    (h : size * count ≤ unread.length) :
    ∃ ops, putOperations p endian size count address unread = some (ops, unread.drop (size * count)) := by
  induction count generalizing address unread with
  | zero => exact ⟨[], by simp [putOperations]⟩
  | succ count ih =>
    have hmul : size * (count + 1) = size + size * count := by ring
    have hrest : size * count ≤ (unread.drop size).length := by
      rw [List.length_drop]
      omega
    obtain ⟨ops, hops⟩ := ih ((address + size) % 256 ^ p.word) hrest
    rw [putOperations, if_neg (by omega), hops, List.drop_drop, hmul]
    exact ⟨_, rfl⟩

theorem put_spans (hsizes : ∀ c ∈ calls, IsSize c.size) (h : calls.foldlM (putTransfer p endian) s = some s') :
    s'.cycles.flatten.map Operation.span =
      s.cycles.flatten.map Operation.span ++ calls.flatMap (Transfer.spans p) := by
  induction calls generalizing s with
  | nil =>
    obtain rfl : s = s' := by simpa using h
    simp
  | cons c calls ih =>
    rw [List.foldlM_cons] at h
    obtain ⟨t, ht, h⟩ := Option.bind_eq_some_iff.mp h
    obtain ⟨done, hdone, rfl⟩ := Option.map_eq_some_iff.mp ht
    have hspans := putOperations_span (hsizes c (by simp)) hdone
    rw [ih (fun c' hc' => hsizes c' (List.mem_cons_of_mem c hc')) h]
    simp [hspans, Transfer.spans]

/-- No short read happens while the file lasts. -/
theorem put_some (p : Port) (endian : Endian) (h : (calls.map Transfer.length).sum ≤ s.unread.length) :
    ∃ s', calls.foldlM (putTransfer p endian) s = some s' := by
  induction calls generalizing s with
  | nil => exact ⟨s, rfl⟩
  | cons c calls ih =>
    rw [List.map_cons, List.sum_cons] at h
    obtain ⟨ops, hops⟩ := putOperations_some p endian c.address
      (show c.size * c.count ≤ s.unread.length by
        have hlen : c.length = c.size * c.count := rfl
        omega)
    have hrest : (calls.map Transfer.length).sum ≤ (s.unread.drop (c.size * c.count)).length := by
      have hlen : c.length = c.size * c.count := rfl
      rw [List.length_drop]
      omega
    obtain ⟨s', hs'⟩ := ih (s := ⟨s.unread.drop (c.size * c.count), s.cycles ++ [ops]⟩) hrest
    refine ⟨s', ?_⟩
    rw [List.foldlM_cons, putTransfer, hops]
    exact hs'

end Put

section Get

theorem getOperations_span (p : Port) (endian : Endian) (address count : ℕ) {size : ℕ} (hs : IsSize size) :
    (getOperations p endian size count address).map Operation.span = cycleSpans p size count address := by
  induction count generalizing address with
  | zero => rfl
  | succ count ih =>
    rw [getOperations, List.map_cons, cycleSpans, ih, Operation.span, Operation.size, format_size endian hs]

theorem get_foldlM (cycles : List (List Operation)) :
    calls.foldlM (getTransfer p endian) cycles =
      some (cycles ++ calls.map fun c => getOperations p endian c.size c.count c.address) := by
  induction calls generalizing cycles with
  | nil => simp
  | cons c calls ih =>
    rw [List.foldlM_cons, getTransfer]
    exact (ih _).trans (by simp)

theorem get_spans (p : Port) (endian : Endian) (hsizes : ∀ c ∈ calls, IsSize c.size) :
    (calls.map fun c => getOperations p endian c.size c.count c.address).flatten.map Operation.span =
      calls.flatMap (Transfer.spans p) := by
  induction calls with
  | nil => rfl
  | cons c calls ih =>
    have hspans := getOperations_span p endian c.address c.count (hsizes c (by simp))
    rw [List.map_cons, List.flatten_cons, List.map_append, hspans,
      ih fun c' hc' => hsizes c' (List.mem_cons_of_mem c hc')]
    rfl

/-- What the device answers to a queued read: the bytes of its memory, with the endian that was
asked for or without one. -/
structure Answers (endian : Endian) (m : Memory) (op answer : Operation) : Prop where
  address : answer.address = op.address
  size : answer.size = op.size
  format : answer.endian = 0 ∨ answer.endian = endianBits endian
  value : answer.value = endian.value (window m op.address op.size)
  error : answer.error = false

/-- A byte of the file is written exactly when an operation covers its address. -/
def Written (m : Memory) (address : ℕ) (ops : List Operation) (before after : Output) : Prop :=
  ∀ i, after.content i =
    if ∃ op ∈ ops, OnSpan (address + i) op.span then some (m (address + i)) else before.content i

variable {m : Memory} {out : Output}

theorem decTodoOperation_written {op answer : Operation} (hanswer : Answers endian m op answer)
    (hge : address ≤ op.address) (hlt : op.address + op.size < 256 ^ p.word)
    (hready : out.position = out.lastoff) :
    ∃ out', decTodoOperation p endian address out answer = some out' ∧ out'.position = out'.lastoff ∧
      Written m address [op] out out' := by
  have hoff : (op.address + (256 ^ p.word - address)) % 256 ^ p.word = op.address - address := by
    have hsum : op.address + (256 ^ p.word - address) = op.address - address + 256 ^ p.word := by omega
    rw [hsum, Nat.add_mod_right, Nat.mod_eq_of_lt (by omega)]
  have hformat : (if (if answer.endian = 0 then endianBits endian else answer.endian) = ebBigEndian
      then Endian.big else Endian.little) = endian := by
    rcases hanswer.format with h | h <;> rw [h] <;> cases endian <;> rfl
  have hbuffer : endian.bytes op.size (endian.value (window m op.address op.size)) =
      window m op.address op.size := by
    have hbytes := endian.bytes_value (window m op.address op.size)
    rwa [length_window] at hbytes
  have hseek : (if op.address - address ≠ out.lastoff then out.fseeko (op.address - address) else out) =
      out.fseeko (op.address - address) := by
    split
    · rfl
    · rename_i heq
      rw [not_not] at heq
      obtain ⟨content, position, lastoff⟩ := out
      obtain rfl : position = lastoff := hready
      rw [Output.fseeko, heq]
  have hnext : (op.address - address + op.size) % 256 ^ p.word = op.address - address + op.size :=
    Nat.mod_eq_of_lt (by omega)
  simp only [decTodoOperation, hanswer.error, hanswer.address, hanswer.size, hanswer.value, hoff, hformat,
    dataBuffer_eq, hbuffer, hseek, Bool.false_eq_true, if_false]
  refine ⟨_, rfl, ?_, fun i => ?_⟩
  · simp only [Output.fwrite, Output.fseeko, length_window, hnext]
  · have hspan : (∃ op' ∈ [op], OnSpan (address + i) op'.span) ↔
        op.address - address ≤ i ∧ i < op.address - address + op.size := by
      simp only [List.mem_singleton, exists_eq_left, OnSpan, Operation.span]
      omega
    simp only [Output.fwrite, Output.fseeko, length_window, hspan]
    split
    · rename_i hi
      have hidx : i - (op.address - address) < op.size := by omega
      have haddr : op.address + (i - (op.address - address)) = address + i := by omega
      rw [List.getElem?_eq_getElem (by simpa using hidx)]
      simp [window, haddr]
    · rfl

theorem Written.append {ops ops' : List Operation} {out' out'' : Output} (h : Written m address ops out out')
    (h' : Written m address ops' out' out'') : Written m address (ops ++ ops') out out'' := by
  intro i
  rw [h' i, h i]
  simp only [List.mem_append, or_and_right, exists_or]
  by_cases hops' : ∃ op ∈ ops', OnSpan (address + i) op.span
  · rw [if_pos hops', if_pos (Or.inr hops')]
  · simp only [hops', or_false, if_false]

theorem operations_written {ops answers : List Operation} (hanswers : List.Forall₂ (Answers endian m) ops answers)
    (hops : ∀ op ∈ ops, address ≤ op.address ∧ op.address + op.size < 256 ^ p.word)
    (hready : out.position = out.lastoff) :
    ∃ out', decTodo p endian address out .ok answers = some out' ∧ out'.position = out'.lastoff ∧
      Written m address ops out out' := by
  rw [decTodo, if_neg (by simp)]
  induction hanswers generalizing out with
  | nil => exact ⟨out, rfl, hready, fun i => by simp⟩
  | @cons op answer ops answers hanswer _ ih =>
    obtain ⟨hge, hlt⟩ := hops op (by simp)
    obtain ⟨mid, hmid, hmready, hmwritten⟩ := decTodoOperation_written hanswer hge hlt hready
    obtain ⟨out', hout', hready', hwritten'⟩ :=
      ih (fun op' hop' => hops op' (List.mem_cons_of_mem op hop')) hmready
    exact ⟨out', by rw [List.foldlM_cons, hmid]; exact hout', hready', hmwritten.append hwritten'⟩

/-- Callbacks for several cycles. -/
theorem cycles_written {order answered : List (List Operation)}
    (hanswered : List.Forall₂ (List.Forall₂ (Answers endian m)) order answered)
    (hops : ∀ op ∈ order.flatten, address ≤ op.address ∧ op.address + op.size < 256 ^ p.word)
    (hready : out.position = out.lastoff) :
    ∃ out', answered.foldlM (fun out ops => decTodo p endian address out .ok ops) out = some out' ∧
      Written m address order.flatten out out' := by
  induction hanswered generalizing out with
  | nil => exact ⟨out, rfl, fun i => by simp⟩
  | @cons ops answers order answered hanswers _ ih =>
    obtain ⟨mid, hmid, hmready, hmwritten⟩ := operations_written hanswers
      (fun op hop => hops op (List.mem_append_left _ hop)) hready
    obtain ⟨out', hout', hwritten'⟩ := ih (fun op hop => hops op (List.mem_append_right ops hop)) hmready
    exact ⟨out', by rw [List.foldlM_cons, hmid]; exact hout', hmwritten.append hwritten'⟩

/-- The file of an exact cover holds the interval. -/
theorem ExactCover.written {ops : List Operation} (h : ExactCover address length ops) {before after : Output}
    (hbefore : before.content = fun _ => none) (hwritten : Written m address ops before after) (i : ℕ) :
    after.content i = if i < length then some (m (address + i)) else none := by
  have hiff : (∃ op ∈ ops, OnSpan (address + i) op.span) ↔ i < length := by
    have hcover : (∃ op ∈ ops, OnSpan (address + i) op.span) ↔
        0 < coverage (address + i) (ops.map Operation.span) := by
      simp [coverage_pos_iff]
    rw [hcover]
    constructor
    · intro hpos
      by_contra hge
      have hout := h.outside (address + i) (by omega)
      omega
    · intro hlt
      have honce := h.once (address + i) (by omega) (by omega)
      omega
  rw [hwritten i, hbefore]
  simp only [hiff]

end Get

variable (p endian sizes address)

/-- `eb-put` ends, and the cycles it queued cover the interval. -/
def PutExact (firmware : Bytes) : Prop :=
  ∃ fuel s, ebPut p endian sizes address fuel firmware = some s ∧
    ExactCover address firmware.length s.cycles.flatten

/-- `eb-get` ends, the cycles it queued cover the interval, and in whatever order they are answered
its file gets the bytes of the interval at their offsets. -/
def GetExact (length : ℕ) : Prop :=
  ∃ fuel cycles, ebGet p endian sizes address length fuel = some cycles ∧
    ExactCover address length cycles.flatten ∧
    ∀ (m : Memory) (order answered : List (List Operation)), order.Perm cycles →
      List.Forall₂ (List.Forall₂ (Answers endian m)) order answered →
      ∃ out, answered.foldlM (fun out ops => decTodo p endian address out .ok ops) {} = some out ∧
        ∀ i, out.content i = if i < length then some (m (address + i)) else none

theorem plannable_of_exactCover {fuel : ℕ} {ops : List Operation} (hwrap : address + length < 256 ^ p.word)
    (hplanned : planned sizes address length fuel = some calls) (hexact : ExactCover address length ops)
    (hops : ops.map Operation.span = calls.flatMap (Transfer.spans p)) : Plannable sizes address length :=
  plannable_of_planned sizes hwrap hplanned fun _ hs hpos => (hexact.le (hops ▸ hs) hpos).2

theorem putExact_iff (firmware : Bytes) (hwrap : address + firmware.length < 256 ^ p.word) :
    PutExact p endian sizes address firmware ↔ Plannable sizes address firmware.length := by
  constructor
  · rintro ⟨fuel, s, hput, hexact⟩
    rw [ebPut, transferAll_eq] at hput
    obtain ⟨calls, hplanned, hfold⟩ := Option.bind_eq_some_iff.mp hput
    have hspans := put_spans (planned_size sizes hplanned) hfold
    exact plannable_of_exactCover p sizes address hwrap hplanned hexact hspans
  · intro h
    obtain ⟨fuel, calls, hplanned, hstage⟩ := planned_stage sizes hwrap h
    have hsum : (calls.map Transfer.length).sum ≤ firmware.length := by
      have htiles := hstage.tiles.sum_eq
      rw [sum_spans] at htiles
      omega
    obtain ⟨s, hfold⟩ := put_some p endian (s := ⟨firmware, []⟩) hsum
    have hspans := put_spans (planned_size sizes hplanned) hfold
    refine ⟨fuel, s, ?_, hstage.exactCover hspans⟩
    rw [ebPut, transferAll_eq, hplanned]
    exact hfold

theorem getExact_iff (hwrap : address + length < 256 ^ p.word) :
    GetExact p endian sizes address length ↔ Plannable sizes address length := by
  constructor
  · rintro ⟨fuel, cycles, hget, hexact, -⟩
    rw [ebGet, transferAll_eq] at hget
    obtain ⟨calls, hplanned, hfold⟩ := Option.bind_eq_some_iff.mp hget
    rw [get_foldlM] at hfold
    cases hfold
    exact plannable_of_exactCover p sizes address hwrap hplanned hexact
      (get_spans p endian (planned_size sizes hplanned))
  · intro h
    obtain ⟨fuel, calls, hplanned, hstage⟩ := planned_stage sizes hwrap h
    have hspans := get_spans p endian (planned_size sizes hplanned)
    have hexact := hstage.exactCover hspans
    refine ⟨fuel, _, ?_, hexact, fun m order answered hperm hanswered => ?_⟩
    · rw [ebGet, transferAll_eq, hplanned]
      exact get_foldlM []
    · have hin : ∀ op ∈ order.flatten, address ≤ op.address ∧ op.address + op.size < 256 ^ p.word := by
        intro op hop
        have hmem := List.mem_map_of_mem (f := Operation.span) (hperm.flatten.mem_iff.mp hop)
        have hspan := hmem
        rw [hspans] at hspan
        obtain ⟨c, hc, hspan⟩ := List.mem_flatMap.mp hspan
        have hpos : 0 < op.span.2 := by
          rw [cycleSpans_size _ hspan]
          exact (planned_size sizes hplanned c hc).pos
        have hle := hexact.le hmem hpos
        exact ⟨hle.1, hle.2.trans_lt hwrap⟩
      have hready : ({} : Output).position = ({} : Output).lastoff := rfl
      obtain ⟨out, hout, hwritten⟩ := cycles_written hanswered hin hready
      have hcycles : Written m address
          (calls.map fun c => getOperations p endian c.size c.count c.address).flatten {} out := by
        intro i
        rw [hwritten i]
        simp only [hperm.flatten.mem_iff]
      exact ⟨out, hout, hexact.written rfl hcycles⟩

/-- Both tools transfer exactly the intervals that can be planned. -/
theorem transfers_exact_iff (length : ℕ) (hwrap : address + length < 256 ^ p.word) :
    (∀ firmware : Bytes, firmware.length = length →
      (PutExact p endian sizes address firmware ↔ Plannable sizes address length)) ∧
    (GetExact p endian sizes address length ↔ Plannable sizes address length) := by
  refine ⟨?_, getExact_iff p endian sizes address hwrap⟩
  rintro firmware rfl
  exact putExact_iff p endian sizes address firmware hwrap

end Exact

namespace Sample

def wide : Port := Port.ofSizes 8 4 4 (by decide)

/-- A device with accesses of one and of four bytes. -/
def byteAndWord : AccessSizes wide := .ofSupport 5 (by decide)

/-- From `0x1001` the head loop goes on to `0x1004`, wherever the interval ends. -/
theorem head_overshoots :
    ¬ PutExact wide .big byteAndWord 0x1001 [0x5A] ∧ ¬ GetExact wide .big byteAndWord 0x1001 1 := by
  have hnot : ¬ Plannable byteAndWord 0x1001 1 := fun h => absurd h.reaches (by decide)
  constructor
  · exact fun h => hnot ((putExact_iff wide .big byteAndWord 0x1001 [0x5A] (by decide)).mp h)
  · exact fun h => hnot ((getExact_iff wide .big byteAndWord 0x1001 (by decide)).mp h)

theorem transfers_exact_word :
    (0x1001 + 3 < 256 ^ wide.word) ∧ PutExact wide .big byteAndWord 0x1001 [1, 2, 3] ∧
      GetExact wide .big byteAndWord 0x1001 3 := by
  have hwrap : 0x1001 + 3 < 256 ^ wide.word := by decide
  have hplan : Plannable byteAndWord 0x1001 3 := ⟨by decide, by decide, by decide⟩
  have hexact := transfers_exact_iff wide .big byteAndWord 0x1001 3 hwrap
  exact ⟨hwrap, (hexact.1 [1, 2, 3] rfl).mpr hplan, hexact.2.mpr hplan⟩

end Sample

end WhiteRabbit.Etherbone
