import WhiteRabbit.AlignedMasks
import WhiteRabbit.EtherboneWidths

/-!
# Queued operations and their validation

An operation records what the user asked for. Before a cycle is encoded every operation is
checked against the device width; the check also replaces the list of acceptable sizes in
`format` by the size and endian that will be used.
-/

namespace WhiteRabbit.Etherbone
open AlignedMasks

/-- Status codes passed to callbacks. -/
inductive Status where
  | ok | fail | address | width | overflow | endian | busy | timeout | oom | abi | segfault
  deriving DecidableEq, Repr

def ebEndianMask : ℕ := 0x30
def ebBigEndian : ℕ := 0x10
def ebLittleEndian : ℕ := 0x20

/-- The codes under `EB_OP_MASK`. -/
inductive OpKind where
  | write | readPtr | readVal
  deriving DecidableEq, Repr

/-- One queued operation. The bits of `flags` are separate fields. `value` is what is written,
or where the answer to a read goes. -/
structure Operation where
  address : ℕ
  value : ℕ
  kind : OpKind
  cfgSpace : Bool
  error : Bool := false
  checked : Bool := false
  format : ℕ
  deriving DecidableEq, Repr

namespace Operation

def isWrite (op : Operation) : Bool := op.kind == .write

def isRead (op : Operation) : Bool := !op.isWrite

def isBus (op : Operation) : Bool := !op.cfgSpace

def size (op : Operation) : ℕ := op.format &&& ebDataX

def endian (op : Operation) : ℕ := op.format &&& ebEndianMask

end Operation

/-- Validation of one operation: its size is the largest allowed one that fits the port. -/
def checkOperation (p : Port) (op : Operation) : Operation × Status :=
  let size := ebWidthRefine (op.format &&& (p.data - 1 + p.data))
  -- an operation of full width is endian agnostic
  let endian := if size = p.data then 0 else op.format &&& ebEndianMask
  if size = 0 then (op, .width)
  else if endian = ebBigEndian ||| ebLittleEndian ∨ (size ≠ p.data ∧ endian = 0) then (op, .endian)
  else
    let op' := { op with format := endian ||| size }
    if op.cfgSpace = false ∧ op.address &&& (p.addressMask - (size - 1)) ≠ op.address then
      (op', .address)
    else if op.cfgSpace = true ∧ op.address &&& (0xFFFF - (size - 1)) ≠ op.address then
      (op', .address)
    else if op.isWrite = true ∧ op.value &&& p.dataMask size ≠ op.value then (op', .width)
    else (op', .ok)

/-- Scan the operations of a cycle up to the first bad one, whose position and error are
returned. Formats are rewritten on the way. -/
def checkOperations (p : Port) : List Operation → List Operation × Option (ℕ × Status)
  | [] => ([], none)
  | op :: ops =>
    match checkOperation p op with
    | (op', .ok) =>
      let (ops', bad) := checkOperations p ops
      (op' :: ops', bad.map fun (i, reason) => (i + 1, reason))
    | (op', reason) => (op' :: ops, some (0, reason))

/-- What a successful check establishes. -/
structure Formatted (p : Port) (op : Operation) : Prop where
  size_mem : IsSize op.size
  size_le : op.size ≤ p.data
  endian_mem : (op.size = p.data ∧ op.endian = 0) ∨
    (op.size < p.data ∧ (op.endian = ebBigEndian ∨ op.endian = ebLittleEndian))
  format_eq : op.format = op.endian ||| op.size
  aligned : op.size ∣ op.address
  bus_lt : op.cfgSpace = false → op.address < 256 ^ p.addr
  cfg_lt : op.cfgSpace = true → op.address < 2 ^ 16
  value_lt : op.isWrite = true → op.value < 256 ^ op.size

private theorem refined_size (p : Port) (format : ℕ) :
    ebWidthRefine (format &&& (p.data - 1 + p.data)) ≤ p.data ∧
      (ebWidthRefine (format &&& (p.data - 1 + p.data)) = 0 ∨
        IsSize (ebWidthRefine (format &&& (p.data - 1 + p.data)))) := by
  have hle : format &&& (p.data - 1 + p.data) ≤ p.data - 1 + p.data := Nat.and_le_right
  have hd := p.data_mem
  generalize format &&& (p.data - 1 + p.data) = m at hle
  have key : ∀ d, IsSize d → ∀ m ≤ d - 1 + d, ebWidthRefine m ≤ d ∧
      (ebWidthRefine m = 0 ∨ IsSize (ebWidthRefine m)) := by
    rintro d (rfl | rfl | rfl | rfl) <;> decide
  exact key p.data hd m hle

private theorem format_parts {endian size : ℕ} (hs : IsSize size)
    (he : endian = 0 ∨ endian = ebBigEndian ∨ endian = ebLittleEndian) :
    (endian ||| size) &&& ebDataX = size ∧ (endian ||| size) &&& ebEndianMask = endian := by
  rcases hs with rfl | rfl | rfl | rfl <;> rcases he with rfl | rfl | rfl <;> decide

private theorem endian_cases (format : ℕ) : format &&& ebEndianMask = 0 ∨
    format &&& ebEndianMask = ebBigEndian ∨ format &&& ebEndianMask = ebLittleEndian ∨
      format &&& ebEndianMask = ebBigEndian ||| ebLittleEndian := by
  have h4 : format &&& ebEndianMask = format / 2 ^ 4 % 2 ^ 2 * 2 ^ 4 :=
    and_mask (n := 6) (k := 4) (by decide) format
  have hlt : format / 2 ^ 4 % 2 ^ 2 < 4 := Nat.mod_lt _ (by decide)
  rw [h4]
  generalize format / 2 ^ 4 % 2 ^ 2 = m at hlt
  interval_cases m <;> decide

/-- Is the address too big for a bus operation? -/
theorem bus_mask_iff {p : Port} {size a : ℕ} (hs : IsSize size) :
    a &&& (p.addressMask - (size - 1)) = a ↔ a < 256 ^ p.addr ∧ size ∣ a := by
  obtain ⟨k, hk, rfl⟩ := hs.eq_pow
  have hp : p.addressMask - (2 ^ k - 1) = 2 ^ (8 * p.addr) - 2 ^ k := by
    have h1 : 1 ≤ 2 ^ k := Nat.one_le_two_pow
    rw [p.addressMask_eq, show 256 ^ p.addr = 2 ^ (8 * p.addr) from (pow_mul 2 8 p.addr).symm]
    omega
  have hn : k ≤ 8 * p.addr := by have := p.addr_mem.pos; omega
  rw [hp, and_mask_eq_self_iff hn, show 256 ^ p.addr = 2 ^ (8 * p.addr) from (pow_mul 2 8 p.addr).symm]

/-- Is the address too big for a config operation? -/
theorem cfg_mask_iff {size a : ℕ} (hs : IsSize size) :
    a &&& (0xFFFF - (size - 1)) = a ↔ a < 2 ^ 16 ∧ size ∣ a := by
  obtain ⟨k, hk, rfl⟩ := hs.eq_pow
  have h1 : 1 ≤ 2 ^ k := Nat.one_le_two_pow
  have hp : 0xFFFF - (2 ^ k - 1) = 2 ^ 16 - 2 ^ k := by omega
  rw [hp, and_mask_eq_self_iff (by omega)]

theorem checkOperation_ok {p : Port} {op op' : Operation}
    (h : checkOperation p op = (op', .ok)) :
    Formatted p op' ∧ op' = { op with format := op'.format } := by
  obtain ⟨hle, hsize⟩ := refined_size p op.format
  have hend := endian_cases op.format
  unfold checkOperation at h
  generalize ebWidthRefine (op.format &&& (p.data - 1 + p.data)) = size at h hle hsize
  generalize op.format &&& ebEndianMask = e at h hend
  dsimp only at h
  generalize hg : (if size = p.data then 0 else e) = endian at h
  split at h
  · simp at h
  rename_i h0
  have hsz : IsSize size := hsize.resolve_left h0
  split at h
  · simp at h
  rename_i hendian
  split at h
  · simp at h
  rename_i hbus
  split at h
  · simp at h
  rename_i hcfg
  split at h
  · simp at h
  rename_i hval
  have hop : op' = { op with format := endian ||| size } := (congrArg Prod.fst h).symm
  -- the endian that remains is none at full width and exactly one below it
  have hcase : (size = p.data ∧ endian = 0) ∨
      (size < p.data ∧ (endian = ebBigEndian ∨ endian = ebLittleEndian)) := by
    by_cases hfull : size = p.data
    · exact Or.inl ⟨hfull, by rw [← hg, if_pos hfull]⟩
    · rw [if_neg hfull] at hg
      subst hg
      refine Or.inr ⟨lt_of_le_of_ne hle hfull, ?_⟩
      rcases hend with h0 | hb | hl | hbl
      · exact absurd (Or.inr ⟨hfull, h0⟩) hendian
      · exact Or.inl hb
      · exact Or.inr hl
      · exact absurd (Or.inl hbl) hendian
  have hmem : endian = 0 ∨ endian = ebBigEndian ∨ endian = ebLittleEndian := by
    rcases hcase with ⟨-, h⟩ | ⟨-, h | h⟩ <;> simp [h]
  obtain ⟨hps, hpe⟩ := format_parts hsz hmem
  have hsize' : op'.size = size := by rw [hop]; exact hps
  have hend' : op'.endian = endian := by rw [hop]; exact hpe
  have haddr : op'.address = op.address := by rw [hop]
  have hcs : op'.cfgSpace = op.cfgSpace := by rw [hop]
  have hbus' : op.cfgSpace = false → op.address < 256 ^ p.addr ∧ size ∣ op.address := fun hc =>
    (bus_mask_iff hsz).mp (by simpa [hc] using hbus)
  have hcfg' : op.cfgSpace = true → op.address < 2 ^ 16 ∧ size ∣ op.address := fun hc =>
    (cfg_mask_iff hsz).mp (by simpa [hc] using hcfg)
  refine ⟨⟨hsize' ▸ hsz, hsize' ▸ hle, by rw [hsize', hend']; exact hcase,
    by rw [hend', hsize', hop], ?_, ?_, ?_, ?_⟩, by rw [hop]⟩
  · rw [hsize', haddr]
    cases hc : op.cfgSpace with
    | false => exact (hbus' hc).2
    | true => exact (hcfg' hc).2
  · rw [hcs, haddr]
    exact fun hc => (hbus' hc).1
  · rw [hcs, haddr]
    exact fun hc => (hcfg' hc).1
  · intro hw
    have hw' : op.isWrite = true := by rw [hop] at hw; exact hw
    have hv : op.value &&& p.dataMask size = op.value := by simpa [hw'] using hval
    have hval' : op'.value = op.value := by rw [hop]
    rw [hsize', hval']
    have hp : p.dataMask size = 2 ^ (8 * size) - 2 ^ 0 := by
      rw [p.dataMask_eq hle, show 256 ^ size = 2 ^ (8 * size) from (pow_mul 2 8 size).symm, pow_zero]
    rw [hp, and_mask_eq_self_iff (Nat.zero_le _)] at hv
    rw [show 256 ^ size = 2 ^ (8 * size) from (pow_mul 2 8 size).symm]
    exact hv.1

theorem checkOperation_status (p : Port) (op : Operation) : (checkOperation p op).2 = .ok ∨
    (checkOperation p op).2 = .width ∨ (checkOperation p op).2 = .endian ∨
    (checkOperation p op).2 = .address := by
  rw [checkOperation]
  dsimp only
  split_ifs <;> simp

/-- A bad operation is reported with one of three errors. -/
theorem checkOperations_reason {p : Port} {ops ops' : List Operation} {i : ℕ} {reason : Status}
    (h : checkOperations p ops = (ops', some (i, reason))) :
    reason = .width ∨ reason = .endian ∨ reason = .address := by
  induction ops generalizing ops' i with
  | nil => simp [checkOperations] at h
  | cons op ops ih =>
    unfold checkOperations at h
    split at h
    · simp only [Prod.mk.injEq, Option.map_eq_some_iff, Prod.exists] at h
      obtain ⟨-, j, r, hr, -, rfl⟩ := h
      exact ih (Prod.ext rfl hr)
    · rename_i hne hcheck
      simp only [Prod.mk.injEq, Option.some.injEq] at h
      obtain ⟨-, -, rfl⟩ := h
      have hstatus := checkOperation_status p op
      rw [hcheck] at hstatus
      cases hstatus with
      | inl hok => exact absurd hok hne
      | inr hbad => exact hbad

/-- A successful check only replaces the formats of the operations. -/
theorem checkOperations_none {p : Port} {ops ops' : List Operation}
    (h : checkOperations p ops = (ops', none)) :
    (∀ op ∈ ops', Formatted p op) ∧
      List.Forall₂ (fun op op' => op' = { op with format := op'.format }) ops ops' := by
  induction ops generalizing ops' with
  | nil =>
    simp only [checkOperations, Prod.mk.injEq] at h
    simp [← h.1]
  | cons op ops ih =>
    unfold checkOperations at h
    split at h
    · rename_i op' hop
      obtain ⟨hf, he⟩ := checkOperation_ok hop
      simp only [Prod.mk.injEq, Option.map_eq_none_iff] at h
      obtain ⟨rfl, hbad⟩ := h
      obtain ⟨hall, hsame⟩ := ih (Prod.ext rfl hbad)
      exact ⟨List.forall_mem_cons.mpr ⟨hf, hall⟩, .cons he hsame⟩
    · simp at h

end WhiteRabbit.Etherbone
