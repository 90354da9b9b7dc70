import WhiteRabbit.SnoopMemory
import WhiteRabbit.TransferPlans

/-!
# What eb-put writes, eb-get reads

On the memory of `eb-snoop` the cycles of `eb-put` store the firmware at its address. `eb-get` of the
interval then gives the firmware, with whatever sizes and in whatever order its cycles are answered.
-/

namespace WhiteRabbit.Etherbone

open BigEndian MemoryWords SpanTilings

section Stores

variable {endian : Endian} {m : Memory}

theorem stores_append (ops ops' : List Operation) :
    stores endian m (ops ++ ops') = stores endian (stores endian m ops) ops' := List.foldl_append

/-- Cycles one after the other. -/
def runCycles (p : Port) (s : Snoop) (cycles : List (List Operation)) : Snoop :=
  cycles.foldl (fun s ops => (runCycle p s ops).1) s

theorem runCycles_writes {p : Port} {s : Snoop} {cycles : List (List Operation)}
    (h : ∀ op ∈ cycles.flatten, op.isWrite = true ∧ Performable p op) :
    (runCycles p s cycles).bytes p = stores s.endian (s.bytes p) cycles.flatten ∧
      (runCycles p s cycles).endian = s.endian := by
  induction cycles generalizing s with
  | nil => exact ⟨rfl, rfl⟩
  | cons ops cycles ih =>
    obtain ⟨hbytes, hendian⟩ := runCycle_writes (s := s) fun op hop => h op (List.mem_append_left _ hop)
    obtain ⟨hbytes', hendian'⟩ := ih (s := (runCycle p s ops).1) fun op hop => h op (List.mem_append_right ops hop)
    rw [hendian, hbytes, ← stores_append] at hbytes'
    exact ⟨hbytes', hendian'.trans hendian⟩

end Stores

section Put

variable {p : Port} {endian : Endian} {a b address size count : ℕ} {unread rest : Bytes} {ops : List Operation}
  {calls : List Transfer} {s s' : PutState}

/-- Operations that write, all of which the device can perform. -/
def Writes (p : Port) (ops : List Operation) : Prop := ∀ op ∈ ops, op.isWrite = true ∧ Performable p op

theorem performable_of_format {op : Operation} (hformat : op.format = endianBits endian ||| size)
    (hs : IsSize size)
    (hword : size ≤ p.word) (hin : op.address + size ≤ 256 ^ p.word) : Performable p op := by
  have hsize : op.size = size := by rw [Operation.size, hformat, format_size endian hs]
  exact ⟨hsize.symm ▸ hs, hsize.symm ▸ hword, hsize.symm ▸ hin⟩

/-- A cycle takes no more than what is left of the file. -/
theorem putOperations_le {done : List Operation × Bytes}
    (h : putOperations p endian size count address unread = some done) : size * count ≤ unread.length := by
  induction count generalizing address unread done with
  | zero => exact Nat.zero_le _
  | succ count ih =>
    rw [putOperations] at h
    split at h
    · cases h
    rename_i hlong
    obtain ⟨later, hlater, -⟩ := Option.map_eq_some_iff.mp h
    have hle := ih hlater
    have hsplit : size * (count + 1) = size + size * count := by ring
    rw [List.length_drop] at hle
    omega

/-- The operations of a cycle store the bytes that it takes from the file. -/
theorem putOperations_stores (hs : IsSize size) (hword : size ≤ p.word)
    (htiles : Tiles a (cycleSpans p size count address) b) (hb : b ≤ 256 ^ p.word)
    (h : putOperations p endian size count address unread = some (ops, rest)) :
    Writes p ops ∧ rest = unread.drop (size * count) ∧
      ∀ m, stores endian m ops = store m a (unread.take (size * count)) := by
  induction count generalizing a address unread ops with
  | zero =>
    cases h
    exact ⟨by simp [Writes], by simp, fun m => by simp [stores]⟩
  | succ count ih =>
    obtain ⟨rfl, htail⟩ := htiles
    rw [putOperations] at h
    split at h
    · cases h
    rename_i hlong
    obtain ⟨later, hlater, heq⟩ := Option.map_eq_some_iff.mp h
    cases heq
    obtain ⟨hwrites, hrest, hstores⟩ := ih htail hlater
    have htake : (unread.take size).length = size := by
      rw [List.length_take]
      omega
    have hsplit : size * (count + 1) = size + size * count := by ring
    have hsize : (endianBits endian ||| size) &&& ebDataX = size := format_size endian hs
    have hword' : bufferData p endian (unread.take size) = endian.value (unread.take size) :=
      bufferData_eq p endian (htake.trans_le hword)
    have hbytes : endian.bytes size (bufferData p endian (unread.take size)) = unread.take size := by
      have hback := endian.bytes_value (unread.take size)
      rwa [htake, ← hword'] at hback
    refine ⟨fun op hop => ?_, ?_, fun m => ?_⟩
    · rcases List.mem_cons.mp hop with rfl | hop
      · exact ⟨rfl, performable_of_format rfl hs hword (htail.le.trans hb)⟩
      · exact hwrites op hop
    · rw [hrest, List.drop_drop, hsplit]
    · rw [stores, List.foldl_cons, ← stores, Operation.size, hsize, hbytes, hstores, hsplit, List.take_add,
        store_append, htake]

/-- The cycles of `eb-put` store the part of the file that they take. -/
theorem put_stores (hsizes : ∀ c ∈ calls, IsSize c.size ∧ c.size ≤ p.word)
    (htiles : Tiles a (calls.flatMap (Transfer.spans p)) b) (hb : b ≤ 256 ^ p.word)
    (h : calls.foldlM (putTransfer p endian) s = some s') :
    ∃ cycles, s'.cycles = s.cycles ++ cycles ∧ Writes p cycles.flatten ∧
      ∀ m, stores endian m cycles.flatten = store m a (s.unread.take (b - a)) := by
  induction calls generalizing a s with
  | nil =>
    obtain rfl : s = s' := by simpa using h
    obtain rfl : a = b := htiles
    exact ⟨[], by simp, by simp [Writes], fun m => by simp [stores]⟩
  | cons c calls ih =>
    rw [List.foldlM_cons] at h
    obtain ⟨t, ht, h⟩ := Option.bind_eq_some_iff.mp h
    obtain ⟨done, hdone, rfl⟩ := Option.map_eq_some_iff.mp ht
    obtain ⟨mid, hhead, htail⟩ := htiles.split
    obtain ⟨hsize, hword⟩ := hsizes c (by simp)
    have hsum := hhead.sum_eq
    rw [Transfer.spans, sum_cycleSpans] at hsum
    obtain ⟨hwrites, hrest, hstores⟩ := putOperations_stores hsize hword hhead (htail.le.trans hb) hdone
    obtain ⟨cycles, hcycles, hwrites', hstores'⟩ :=
      ih (fun c' hc' => hsizes c' (List.mem_cons_of_mem c hc')) htail h
    refine ⟨done.1 :: cycles, by simp [hcycles], fun op hop => ?_, fun m => ?_⟩
    · exact (List.mem_append.mp hop).elim (hwrites op) (hwrites' op)
    · have htake : (s.unread.take (c.size * c.count)).length = c.size * c.count := by
        rw [List.length_take]
        exact Nat.min_eq_left (putOperations_le hdone)
      have hlen : b - a = c.size * c.count + (b - mid) := by
        have hle := htail.le
        omega
      rw [List.flatten_cons, stores_append, hstores, hstores', hrest, hlen, List.take_add,
        store_append, htake, hsum]

end Put

section Get

variable {p : Port} {endian : Endian} {a b address size count : ℕ} {calls : List Transfer}

/-- Operations that read in an endian, all of which the device can perform. -/
structure Reads (p : Port) (endian : Endian) (op : Operation) : Prop where
  read : op.isWrite = false
  error : op.error = false
  format : op.endian = endianBits endian
  performable : Performable p op

theorem getOperations_mem {op : Operation} (h : op ∈ getOperations p endian size count address) :
    op.isWrite = false ∧ op.error = false ∧ op.format = endianBits endian ||| size := by
  induction count generalizing address with
  | zero => simp [getOperations] at h
  | succ count ih =>
    rcases List.mem_cons.mp h with rfl | h
    · exact ⟨rfl, rfl, rfl⟩
    · exact ih h

/-- Every cycle that `eb-get` queues inside the address space can be answered. -/
theorem ebGet_reads {sizes : AccessSizes p} {length fuel : ℕ} {cycles : List (List Operation)}
    (h : ebGet p endian sizes address length fuel = some cycles) (hwrap : address + length < 256 ^ p.word)
    (hcover : ExactCover address length cycles.flatten) : ∀ ops ∈ cycles, ∀ op ∈ ops, Reads p endian op := by
  rw [ebGet, transferAll_eq] at h
  obtain ⟨calls, hplanned, hfold⟩ := Option.bind_eq_some_iff.mp h
  rw [get_foldlM] at hfold
  cases hfold
  intro ops hops op hop
  obtain ⟨c, hc, rfl⟩ := List.mem_map.mp hops
  obtain ⟨hread, herror, hformat⟩ := getOperations_mem hop
  have hs := planned_size sizes hplanned c hc
  have hsize : op.size = c.size := by rw [Operation.size, hformat, format_size endian hs]
  have hmem : op.span ∈ ((calls.map fun c => getOperations p endian c.size c.count c.address).flatten).map
      Operation.span := List.mem_map_of_mem (List.mem_flatten_of_mem hops hop)
  have hle := hcover.le hmem (hsize.symm ▸ hs.pos : 0 < op.size)
  have hin : op.address + c.size ≤ 256 ^ p.word := hsize ▸ hle.2.trans hwrap.le
  exact ⟨hread, herror, by rw [Operation.endian, hformat, format_endian endian hs],
    performable_of_format hformat hs (planned_le sizes hplanned c hc) hin⟩

/-- The device answers the reads of a cycle with its memory, and keeps it. -/
theorem runCycle_answers {s : Snoop} {ops : List Operation} (hops : ∀ op ∈ ops, Reads p s.endian op) :
    (runCycle p s ops).1 = s ∧
      List.Forall₂ (Answers s.endian (s.bytes p)) ops (runCycle p s ops).2 := by
  rw [runCycle_reads fun op hop => ⟨(hops op hop).read, (hops op hop).performable⟩]
  refine ⟨rfl, List.forall₂_map_right_iff.mpr (List.forall₂_same.mpr fun op hop => ?_)⟩
  exact ⟨rfl, rfl, Or.inr (hops op hop).format, rfl, (hops op hop).error⟩

/-- Cycles of reads, one after the other. -/
theorem answered_cycles {s : Snoop} {order : List (List Operation)}
    (horder : ∀ ops ∈ order, ∀ op ∈ ops, Reads p s.endian op) :
    List.Forall₂ (List.Forall₂ (Answers s.endian (s.bytes p))) order (order.map fun ops => (runCycle p s ops).2) :=
  List.forall₂_map_right_iff.mpr (List.forall₂_same.mpr fun ops hops => (runCycle_answers (horder ops hops)).2)

end Get

/-- `eb-put` leaves the firmware in the memory of `eb-snoop` and nothing else changed. Then `eb-get` brings it
back, whatever its own sizes are and in whatever order its cycles are answered. -/
theorem put_get (p : Port) (sizes back : AccessSizes p) (s : Snoop) {address : ℕ} {firmware : Bytes}
    (hwrap : address + firmware.length < 256 ^ p.word) (h : Plannable sizes address firmware.length)
    (hback : Plannable back address firmware.length) :
    ∃ fuel put, ebPut p s.endian sizes address fuel firmware = some put ∧
      (runCycles p s put.cycles).bytes p = store (s.bytes p) address firmware ∧
      ∃ fuel cycles, ebGet p s.endian back address firmware.length fuel = some cycles ∧
        ∀ order : List (List Operation), order.Perm cycles →
          ∃ out : Output, (order.map fun ops => (runCycle p (runCycles p s put.cycles) ops).2).foldlM
              (fun out ops => decTodo p s.endian address out .ok ops) {} = some out ∧
            ∀ i, out.content i = firmware[i]? := by
  obtain ⟨fuel, calls, hplanned, hstage⟩ := planned_stage sizes hwrap h
  have hsum : (calls.map Transfer.length).sum ≤ firmware.length := by
    have htiles := hstage.tiles.sum_eq
    rw [sum_spans] at htiles
    omega
  obtain ⟨put, hfold⟩ := put_some p s.endian (s := ⟨firmware, []⟩) hsum
  obtain ⟨cycles, hcycles, hwrites, hstores⟩ := put_stores
    (fun c hc => ⟨planned_size sizes hplanned c hc, planned_le sizes hplanned c hc⟩) hstage.tiles hwrap.le hfold
  rw [List.nil_append] at hcycles
  obtain ⟨hbytes, hendian⟩ := runCycles_writes (s := s) hwrites
  rw [hstores, Nat.add_sub_cancel_left, List.take_length, ← hcycles] at hbytes
  rw [← hcycles] at hendian
  refine ⟨fuel, put, by rw [ebPut, transferAll_eq, hplanned]; exact hfold, hbytes, ?_⟩
  obtain ⟨fuel', reads, hget, hcover, hanswers⟩ := (getExact_iff p s.endian back address hwrap).mpr hback
  refine ⟨fuel', reads, hget, fun order horder => ?_⟩
  have hreads := ebGet_reads hget hwrap hcover
  have hdone : ∀ ops ∈ order, ∀ op ∈ ops, Reads p (runCycles p s put.cycles).endian op := by
    intro ops hops op hop
    rw [hendian]
    exact hreads ops (horder.mem_iff.mp hops) op hop
  have hanswered := answered_cycles hdone
  rw [hendian] at hanswered
  obtain ⟨out, hout, hcontent⟩ := hanswers _ order _ horder hanswered
  refine ⟨out, hout, fun i => ?_⟩
  rw [hcontent i, hbytes]
  split
  · rename_i hi
    rw [store_add _ _ hi, List.getElem?_eq_getElem hi]
  · rename_i hi
    rw [List.getElem?_eq_none (not_lt.mp hi)]

namespace Sample

def zeros : Snoop := ⟨0x1000, .big, fun _ => 0⟩

/-- Three bytes up to the end of a word are put into a memory of zeros, and come back. -/
theorem put_get_word : ∃ fuel put, ebPut wide .big byteAndWord 0x1001 fuel [1, 2, 3] = some put ∧
    (runCycles wide zeros put.cycles).bytes wide = store (zeros.bytes wide) 0x1001 [1, 2, 3] ∧
    ∃ fuel cycles, ebGet wide .big byteAndWord 0x1001 3 fuel = some cycles ∧
      ∃ out : Output, (cycles.map fun ops => (runCycle wide (runCycles wide zeros put.cycles) ops).2).foldlM
          (fun out ops => decTodo wide .big 0x1001 out .ok ops) {} = some out ∧
        ∀ i, out.content i = ([1, 2, 3] : Bytes)[i]? := by
  have hwrap : 0x1001 + ([1, 2, 3] : Bytes).length < 256 ^ wide.word := by decide
  have hplan : Plannable byteAndWord 0x1001 ([1, 2, 3] : Bytes).length := ⟨by decide, by decide, by decide⟩
  obtain ⟨fuel, put, hput, hbytes, fuel', cycles, hget, hback⟩ :=
    put_get wide byteAndWord byteAndWord zeros hwrap hplan hplan
  exact ⟨fuel, put, hput, hbytes, fuel', cycles, hget, hback cycles (List.Perm.refl cycles)⟩

end Sample

end WhiteRabbit.Etherbone
