import WhiteRabbit.DeviceFlush

/-!
# The rules for the operations of a cycle

What an operation has to look like, said without the masks of the code, and that a flush rejects
exactly the cycles with an operation that breaks a rule.
-/

namespace WhiteRabbit.Etherbone
open AlignedMasks

/-- A size that the format allows and that the data port has. -/
structure Fits (p : Port) (op : Operation) (size : ℕ) : Prop where
  isSize : IsSize size
  allowed : op.format &&& size = size
  le : size ≤ p.data

/-- The size of an operation is the largest one that fits. -/
structure Granularity (p : Port) (op : Operation) (size : ℕ) : Prop extends Fits p op size where
  largest : ∀ other, Fits p op other → other ≤ size

/-- How far the addresses of an operation go. -/
def addressBound (p : Port) (op : Operation) : ℕ := if op.cfgSpace then 2 ^ 16 else 256 ^ p.addr

/-- The rules, in the order in which they are checked. -/
inductive Rule where
  | size | endian | address | value

namespace Rule

def place : Rule → ℕ
  | size => 0
  | endian => 1
  | address => 2
  | value => 3

def status : Rule → Status
  | size => .width
  | endian => .endian
  | address => .address
  | value => .width

end Rule

/-- The operation breaks a rule. Operations of full width have no endian. -/
def Breaks (p : Port) (op : Operation) : Rule → Prop
  | .size => ∀ size, ¬ Fits p op size
  | .endian => ∃ size, Granularity p op size ∧ size ≠ p.data ∧
      (op.endian = ebBigEndian ||| ebLittleEndian ∨ op.endian = 0)
  | .address => ∃ size, Granularity p op size ∧ ¬ (op.address < addressBound p op ∧ size ∣ op.address)
  | .value => ∃ size, Granularity p op size ∧ op.isWrite = true ∧ 256 ^ size ≤ op.value

/-- The operation breaks no rule. -/
def Sound (p : Port) (op : Operation) : Prop := ∀ rule, ¬ Breaks p op rule

/-- The first rule that the operation breaks. -/
structure FirstBroken (p : Port) (op : Operation) (rule : Rule) : Prop where
  breaks : Breaks p op rule
  earlier : ∀ other : Rule, other.place < rule.place → ¬ Breaks p op other

/-- The first operation that breaks a rule, with the first rule it breaks. -/
structure Offends (p : Port) (ops : List Operation) (i : ℕ) (rule : Rule) : Prop where
  offender : ∃ op, ops[i]? = some op ∧ FirstBroken p op rule
  earlier : ∀ j < i, ∀ op, ops[j]? = some op → Sound p op

/-- The format ends up as the endian, of which full width has none, and the size. -/
def Settles (p : Port) (op op' : Operation) : Prop :=
  ∃ size, Granularity p op size ∧ op' = { op with format := (if size = p.data then 0 else op.endian) + size }

section Rules

variable {p : Port} {op : Operation} {size : ℕ}

theorem Granularity.unique (h : Granularity p op size) {other : ℕ} (hother : Granularity p op other) :
    other = size :=
  le_antisymm (h.largest other hother.toFits) (hother.largest size h.toFits)

theorem Granularity.sized (h : Granularity p op size) : ¬ Breaks p op .size := fun hnone => hnone size h.toFits

theorem Granularity.exists_iff (h : Granularity p op size) (P : ℕ → Prop) :
    (∃ other, Granularity p op other ∧ P other) ↔ P size := by
  constructor
  · rintro ⟨other, hother, hP⟩
    rw [h.unique hother] at hP
    exact hP
  · exact fun hP => ⟨size, h, hP⟩

theorem Granularity.breaks_endian (h : Granularity p op size) :
    Breaks p op .endian ↔ size ≠ p.data ∧ (op.endian = ebBigEndian ||| ebLittleEndian ∨ op.endian = 0) :=
  h.exists_iff fun size => size ≠ p.data ∧ (op.endian = ebBigEndian ||| ebLittleEndian ∨ op.endian = 0)

theorem Granularity.breaks_address (h : Granularity p op size) :
    Breaks p op .address ↔ ¬ (op.address < addressBound p op ∧ size ∣ op.address) :=
  h.exists_iff fun size => ¬ (op.address < addressBound p op ∧ size ∣ op.address)

theorem Granularity.breaks_value (h : Granularity p op size) :
    Breaks p op .value ↔ op.isWrite = true ∧ 256 ^ size ≤ op.value :=
  h.exists_iff fun size => op.isWrite = true ∧ 256 ^ size ≤ op.value

private theorem refine_largest : ∀ data ∈ [1, 2, 4, 8], ∀ format < 16,
    let size := ebWidthRefine (format &&& (data - 1 + data))
    (size = 0 ∧ ∀ other ∈ [1, 2, 4, 8], other ≤ data → format &&& other ≠ other) ∨
      (size ∈ [1, 2, 4, 8] ∧ format &&& size = size ∧ size ≤ data ∧
        ∀ other ∈ [1, 2, 4, 8], other ≤ data → format &&& other = other → other ≤ size) := by
  decide +kernel

theorem isSize_mem {n : ℕ} : IsSize n ↔ n ∈ [1, 2, 4, 8] := by simp [IsSize]

/-- Masks within the low nibble see only the low nibble. -/
theorem and_nibble {n : ℕ} (hn : 15 &&& n = n) (format : ℕ) : format % 16 &&& n = format &&& n := by
  rw [show format % 16 = format &&& 15 from (Nat.and_two_pow_sub_one_eq_mod format 4).symm, Nat.and_assoc, hn]

/-- Refining the sizes that are not larger than the port finds the size of the operation. -/
theorem refine_granularity (p : Port) (op : Operation) :
    (ebWidthRefine (op.format &&& (p.data - 1 + p.data)) = 0 ∧ Breaks p op .size) ∨
      Granularity p op (ebWidthRefine (op.format &&& (p.data - 1 + p.data))) := by
  have hsmall : ∀ n, IsSize n → 15 &&& n = n := by
    rintro n (rfl | rfl | rfl | rfl) <;> rfl
  have hmask : ∀ n, IsSize n → 15 &&& (n - 1 + n) = n - 1 + n := by
    rintro n (rfl | rfl | rfl | rfl) <;> rfl
  have hlargest := refine_largest p.data (isSize_mem.mp p.data_mem) (op.format % 16) (Nat.mod_lt _ (by decide))
  rw [and_nibble (hmask _ p.data_mem)] at hlargest
  rcases hlargest with ⟨hzero, hnone⟩ | ⟨hsize, hallowed, hle, hmax⟩
  · refine .inl ⟨hzero, fun size hfits => ?_⟩
    apply hnone size (isSize_mem.mp hfits.isSize) hfits.le
    rw [and_nibble (hsmall size hfits.isSize)]
    exact hfits.allowed
  · have hsize := isSize_mem.mpr hsize
    refine .inr ⟨⟨hsize, ?_, hle⟩, fun other hfits => ?_⟩
    · rw [and_nibble (hsmall _ hsize)] at hallowed
      exact hallowed
    · apply hmax other (isSize_mem.mp hfits.isSize) hfits.le
      rw [and_nibble (hsmall other hfits.isSize)]
      exact hfits.allowed

theorem endian_or_size (hsize : IsSize size) (format : ℕ) :
    (format &&& ebEndianMask) ||| size = (format &&& ebEndianMask) + size := by
  have hmask : format &&& ebEndianMask = format / 2 ^ 4 % 2 ^ 2 * 2 ^ 4 :=
    and_mask (n := 6) (k := 4) (by decide) format
  apply or_low (k := 4)
  · rw [hmask]
    exact Nat.dvd_mul_left _ _
  · rcases hsize with rfl | rfl | rfl | rfl <;> decide

/-- Both address checks in one. -/
theorem address_checks_iff (hsize : IsSize size) :
    ((op.cfgSpace = false ∧ op.address &&& (p.addressMask - (size - 1)) ≠ op.address) ∨
      (op.cfgSpace = true ∧ op.address &&& (0xFFFF - (size - 1)) ≠ op.address)) ↔
    ¬ (op.address < addressBound p op ∧ size ∣ op.address) := by
  rw [addressBound, ne_eq, ne_eq, bus_mask_iff hsize, cfg_mask_iff hsize]
  cases op.cfgSpace with
  | false => simp
  | true => simp

theorem value_check_iff (hle : size ≤ p.data) :
    op.value &&& p.dataMask size ≠ op.value ↔ 256 ^ size ≤ op.value := by
  have hpow : 256 ^ size = 2 ^ (8 * size) := (pow_mul 2 8 size).symm
  have hmask : p.dataMask size = 2 ^ (8 * size) - 2 ^ 0 := by rw [p.dataMask_eq hle, hpow, pow_zero]
  rw [ne_eq, hmask, and_mask_eq_self_iff (Nat.zero_le _), hpow, pow_zero]
  simp

theorem endian_check_iff (h : Granularity p op size) :
    ((if size = p.data then 0 else op.format &&& ebEndianMask) = ebBigEndian ||| ebLittleEndian ∨
      (size ≠ p.data ∧ (if size = p.data then 0 else op.format &&& ebEndianMask) = 0)) ↔ Breaks p op .endian := by
  rw [h.breaks_endian]
  by_cases hfull : size = p.data
  · simp [hfull, ebBigEndian, ebLittleEndian]
  · simp [hfull, Operation.endian]

/-- The check of one operation finds the first rule that it breaks. -/
theorem checkOperation_spec (p : Port) (op : Operation) :
    (∃ rule, FirstBroken p op rule ∧ (checkOperation p op).2 = rule.status) ∨
      (Sound p op ∧ (checkOperation p op).2 = .ok ∧ Settles p op (checkOperation p op).1) := by
  rw [checkOperation]
  dsimp only
  rcases refine_granularity p op with ⟨hzero, hsize⟩ | hgran
  · rw [if_pos hzero]
    exact .inl ⟨.size, ⟨hsize, fun other hother => absurd hother (Nat.not_lt_zero _)⟩, rfl⟩
  generalize ebWidthRefine (op.format &&& (p.data - 1 + p.data)) = size at hgran
  rw [if_neg (show size ≠ 0 from hgran.isSize.pos.ne')]
  by_cases hendian : Breaks p op .endian
  · rw [if_pos ((endian_check_iff hgran).mpr hendian)]
    refine .inl ⟨.endian, ⟨hendian, fun other hother => ?_⟩, rfl⟩
    cases other with
    | size => exact hgran.sized
    | _ => simp [Rule.place] at hother
  rw [if_neg (mt (endian_check_iff hgran).mp hendian)]
  have hchecks := (@address_checks_iff p op _ hgran.isSize).trans hgran.breaks_address.symm
  by_cases haddress : Breaks p op .address
  · refine .inl ⟨.address, ⟨haddress, fun other hother => ?_⟩, ?_⟩
    · cases other with
      | size => exact hgran.sized
      | endian => exact hendian
      | _ => simp [Rule.place] at hother
    · cases hchecks.mpr haddress with
      | inl hbus => rw [if_pos hbus]; rfl
      | inr hcfg => rw [if_neg (fun hbus => by simp [hcfg.1] at hbus), if_pos hcfg]; rfl
  rw [if_neg fun hbus => haddress (hchecks.mp (.inl hbus)), if_neg fun hcfg => haddress (hchecks.mp (.inr hcfg))]
  have hvalued : (op.isWrite = true ∧ op.value &&& p.dataMask size ≠ op.value) ↔ Breaks p op .value := by
    rw [hgran.breaks_value, value_check_iff hgran.le]
  by_cases hvalue : Breaks p op .value
  · rw [if_pos (hvalued.mpr hvalue)]
    refine .inl ⟨.value, ⟨hvalue, fun other hother => ?_⟩, rfl⟩
    cases other with
    | size => exact hgran.sized
    | endian => exact hendian
    | address => exact haddress
    | value => exact absurd hother (lt_irrefl _)
  rw [if_neg (mt hvalued.mp hvalue)]
  refine .inr ⟨fun rule => ?_, rfl, size, hgran, ?_⟩
  · cases rule with
    | size => exact hgran.sized
    | endian => exact hendian
    | address => exact haddress
    | value => exact hvalue
  · by_cases hfull : size = p.data
    · rw [if_pos hfull, if_pos hfull, Nat.zero_or, Nat.zero_add]
    · rw [if_neg hfull, if_neg hfull, endian_or_size hgran.isSize, Operation.endian]

end Rules

section Scan

variable {p : Port} {op : Operation} {ops : List Operation}

theorem checkOperations_ok (h : (checkOperation p op).2 = .ok) :
    checkOperations p (op :: ops) =
      ((checkOperation p op).1 :: (checkOperations p ops).1,
        (checkOperations p ops).2.map fun (i, reason) => (i + 1, reason)) := by
  rw [checkOperations]
  cases hcheck : checkOperation p op with
  | mk op' status =>
    rw [hcheck] at h
    cases h
    rfl

theorem checkOperations_bad (h : (checkOperation p op).2 ≠ .ok) :
    (checkOperations p (op :: ops)).2 = some (0, (checkOperation p op).2) := by
  rw [checkOperations]
  cases hcheck : checkOperation p op with
  | mk op' status =>
    rw [hcheck] at h
    cases status with
    | ok => exact absurd rfl h
    | _ => rfl

theorem Rule.status_ne_ok (rule : Rule) : rule.status ≠ .ok := by
  cases rule with
  | _ => exact Status.noConfusion

theorem Offends.head {rule : Rule} (h : FirstBroken p op rule) : Offends p (op :: ops) 0 rule where
  offender := ⟨op, rfl, h⟩
  earlier j hj := absurd hj (Nat.not_lt_zero j)

theorem Offends.tail {i : ℕ} {rule : Rule} (hop : Sound p op) (h : Offends p ops i rule) :
    Offends p (op :: ops) (i + 1) rule where
  offender := h.offender
  earlier j hj other hother := by
    cases j with
    | zero =>
      cases hother
      exact hop
    | succ j => exact h.earlier j (Nat.lt_of_succ_lt_succ hj) other hother

theorem Offends.not_sound {i : ℕ} {rule : Rule} (h : Offends p ops i rule) : ¬ ∀ op ∈ ops, Sound p op := by
  intro hsound
  obtain ⟨op, hop, hfirst⟩ := h.offender
  exact hsound op (List.mem_of_getElem? hop) rule hfirst.breaks

/-- The scan of a cycle stops at the first operation that breaks a rule. -/
theorem checkOperations_spec (p : Port) (ops : List Operation) :
    (∃ i rule, Offends p ops i rule ∧ (checkOperations p ops).2 = some (i, rule.status)) ∨
      ((∀ op ∈ ops, Sound p op) ∧ (checkOperations p ops).2 = none ∧
        List.Forall₂ (Settles p) ops (checkOperations p ops).1) := by
  induction ops with
  | nil => exact .inr ⟨by simp, rfl, .nil⟩
  | cons op ops ih =>
    rcases checkOperation_spec p op with ⟨rule, hfirst, hstatus⟩ | ⟨hsound, hstatus, hsettles⟩
    · refine .inl ⟨0, rule, .head hfirst, ?_⟩
      rw [checkOperations_bad (hstatus ▸ rule.status_ne_ok), hstatus]
    · rw [checkOperations_ok hstatus]
      rcases ih with ⟨i, rule, hoffends, hbad⟩ | ⟨hall, hnone, hformats⟩
      · exact .inl ⟨i + 1, rule, hoffends.tail hsound, by rw [hbad]; rfl⟩
      · exact .inr ⟨List.forall_mem_cons.mpr ⟨hsound, hall⟩, by rw [hnone]; rfl, .cons hsettles hformats⟩

end Scan

/-- The statuses that reject a cycle for one of its operations. -/
def Status.Rejects (status : Status) : Prop := status = .width ∨ status = .endian ∨ status = .address

theorem Rule.status_rejects (rule : Rule) : rule.status.Rejects := by
  cases rule with
  | size => exact .inl rfl
  | endian => exact .inr (.inl rfl)
  | address => exact .inr (.inr rfl)
  | value => exact .inl rfl

section Flush

variable (p : Port) (mtu : ℕ)

namespace FlushState

theorem flushCycles_append (s : FlushState) (before after : List Queued) :
    s.flushCycles p mtu (before ++ after) =
      (((s.flushCycles p mtu before).1.flushCycles p mtu after).1,
        (s.flushCycles p mtu before).2 ++ ((s.flushCycles p mtu before).1.flushCycles p mtu after).2) := by
  induction before generalizing s with
  | nil => rfl
  | cons c before ih => simp only [List.cons_append, flushCycles, ih]

theorem flushCycles_length (s : FlushState) (cycles : List Queued) :
    (s.flushCycles p mtu cycles).2.length = cycles.length := by
  induction cycles generalizing s with
  | nil => rfl
  | cons c cycles ih => simp only [flushCycles, List.length_cons, ih]

theorem formatCycle_accepts (s : FlushState) (ops : List Operation) {status : Status} {operation : Option ℕ}
    (hfate : (s.formatCycle p mtu ops).2 = .callback status operation) : ¬ status.Rejects := by
  rw [formatCycle] at hfate
  split at hfate
  · cases hfate
    simp [Status.Rejects]
  · rw [closeCycle] at hfate
    split at hfate
    · cases hfate
    · cases hfate
      simp [Status.Rejects]

/-- A cycle whose operations are sound is not rejected. -/
theorem flushCycle_accepts (s : FlushState) {c : Queued} (hsound : (checkOperations p c.ops).2 = none)
    {status : Status} {operation : Option ℕ} (hfate : (s.flushCycle p mtu c).2 = .callback status operation) :
    ¬ status.Rejects := by
  rw [flushCycle] at hfate
  split at hfate
  · cases hfate
    simp [Status.Rejects]
  split at hfate
  · cases hfate
    simp [Status.Rejects]
  split at hfate
  · rename_i hbad
    rw [hbad] at hsound
    cases hsound
  split at hfate
  · cases hfate
    simp [Status.Rejects]
  · exact formatCycle_accepts p mtu s _ hfate

/-- A cycle with an operation that breaks a rule is called back, and nothing else happens. -/
theorem flushCycle_rejects (s : FlushState) {c : Queued} (hdead : c.dead = false) {i : ℕ} {reason : Status}
    (hbad : (checkOperations p c.ops).2 = some (i, reason)) :
    s.flushCycle p mtu c = (s, .callback reason (some i)) := by
  have hops : c.ops ≠ [] := by
    intro hnil
    rw [hnil] at hbad
    cases hbad
  rw [flushCycle, hdead, if_neg Bool.false_ne_true, if_neg hops]
  cases hcheck : checkOperations p c.ops with
  | mk ops' bad =>
    rw [hcheck] at hbad
    cases hbad
    rfl

end FlushState

theorem ebDeviceFlush_append (rba : ℕ) (before after : List Queued) :
    ebDeviceFlush p mtu rba (before ++ after) =
      (((((FlushState.start rba).flushCycles p mtu before).1.flushCycles p mtu after).1).finish mtu,
        ((FlushState.start rba).flushCycles p mtu before).2 ++
          (((FlushState.start rba).flushCycles p mtu before).1.flushCycles p mtu after).2) := by
  rw [ebDeviceFlush, FlushState.flushCycles_append]

/-- What a flush does with a cycle of the ready list. -/
structure Validated (rba : ℕ) (before : List Queued) (c : Queued) (after : List Queued)
    (fate : CycleFate) : Prop where
  rejected : (∃ status operation, fate = .callback status operation ∧ status.Rejects) ↔ ∃ op ∈ c.ops, ¬ Sound p op
  offender : (∃ op ∈ c.ops, ¬ Sound p op) → ∃ i rule, Offends p c.ops i rule ∧
    fate = .callback rule.status (some i)
  /-- The state, with all that is sent, and the fates of the other cycles are those of a flush without this cycle. -/
  apart : (∃ op ∈ c.ops, ¬ Sound p op) →
    (ebDeviceFlush p mtu rba (before ++ c :: after)).1 = (ebDeviceFlush p mtu rba (before ++ after)).1 ∧
    (ebDeviceFlush p mtu rba (before ++ c :: after)).2.eraseIdx before.length =
      (ebDeviceFlush p mtu rba (before ++ after)).2
  formats : (∀ op ∈ c.ops, Sound p op) → List.Forall₂ (Settles p) c.ops (checkOperations p c.ops).1

theorem not_all_sound {ops : List Operation} : (∃ op ∈ ops, ¬ Sound p op) ↔ ¬ ∀ op ∈ ops, Sound p op := by
  simp

/-- A flush rejects exactly the cycles with an operation that breaks a rule. -/
theorem cycles_validated (rba : ℕ) (before : List Queued) (c : Queued) (after : List Queued)
    (hdead : c.dead = false) :
    ∃ fate, (ebDeviceFlush p mtu rba (before ++ c :: after)).2[before.length]? = some fate ∧
      Validated p mtu rba before c after fate := by
  have hlength := FlushState.flushCycles_length p mtu (FlushState.start rba) before
  have hflush := ebDeviceFlush_append p mtu rba before (c :: after)
  have hwithout := ebDeviceFlush_append p mtu rba before after
  generalize (FlushState.start rba).flushCycles p mtu before = early at hlength hflush hwithout
  refine ⟨(early.1.flushCycle p mtu c).2, ?_, ?_⟩
  · rw [hflush, ← hlength, List.getElem?_append_right le_rfl, Nat.sub_self]
    rfl
  rcases checkOperations_spec p c.ops with ⟨i, rule, hoffends, hbad⟩ | ⟨hsound, hnone, hformats⟩
  · have hbroken : ∃ op ∈ c.ops, ¬ Sound p op := (not_all_sound p).mpr hoffends.not_sound
    have hrejects := FlushState.flushCycle_rejects p mtu early.1 hdead hbad
    refine ⟨?_, fun _ => ⟨i, rule, hoffends, by rw [hrejects]⟩, fun _ => ?_,
      fun hall => absurd hall hoffends.not_sound⟩
    · refine ⟨fun _ => hbroken, fun _ => ⟨rule.status, some i, by rw [hrejects], rule.status_rejects⟩⟩
    · rw [hflush, hwithout, FlushState.flushCycles, hrejects]
      refine ⟨rfl, ?_⟩
      rw [← hlength, List.eraseIdx_append_of_length_le le_rfl, Nat.sub_self]
      rfl
  · have hnot : ¬ ∃ op ∈ c.ops, ¬ Sound p op := fun hbroken => (not_all_sound p).mp hbroken hsound
    refine ⟨⟨?_, fun hbroken => absurd hbroken hnot⟩, fun hbroken => absurd hbroken hnot,
      fun hbroken => absurd hbroken hnot, fun _ => hformats⟩
    rintro ⟨status, operation, hfate, hreject⟩
    exact absurd hreject (FlushState.flushCycle_accepts p mtu early.1 hnone hfate)

end Flush

namespace Sample

def fullPort : Port := .ofSizes 4 4 4 (by decide)

/-- A word is written on a port of this width, with both endians. -/
def bothEndians : Operation where
  address := 0x100
  value := 7
  kind := .write
  cfgSpace := false
  format := ebBigEndian ||| ebLittleEndian ||| 4

/-- An operation of full width is accepted with both endians. -/
theorem bothEndians_accepted : ¬ ∀ (p : Port) (mtu rba : ℕ) (c : Queued), c.dead = false →
    (∃ op ∈ c.ops, op.endian = ebBigEndian ||| ebLittleEndian) →
    ∃ status operation, (ebDeviceFlush p mtu rba [c]).2 = [.callback status operation] ∧ status.Rejects := by
  intro h
  obtain ⟨status, operation, hfate, hreject⟩ :=
    h fullPort 0 0x8000 { ops := [bothEndians] } rfl ⟨bothEndians, List.mem_singleton_self _, rfl⟩
  cases (List.cons.inj hfate).1
  simp [Status.Rejects] at hreject

theorem unaligned_validated : ∃ fate,
    (ebDeviceFlush fullPort 0 0x8000 [{ ops := [bothEndians, { bothEndians with address := 0x102 }] }]).2[0]? = some fate ∧
      Validated fullPort 0 0x8000 [] { ops := [bothEndians, { bothEndians with address := 0x102 }] } [] fate :=
  cycles_validated fullPort 0 0x8000 [] _ [] rfl

end Sample

end WhiteRabbit.Etherbone
