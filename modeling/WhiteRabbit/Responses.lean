import WhiteRabbit.BusOperations

/-!
# Responses in flight

A response knows the cycle it belongs to and two cursors into its operations: the next read
that gets a value and the next bus operation that gets an error bit. Its deadline has only
the low 16 bits of the clock.
-/

namespace WhiteRabbit.Etherbone

/-- A response, with the operations of its cycle. The cursors are positions in `ops`. -/
structure Response where
  address : ℕ
  deadline : ℕ
  device : ℕ
  ops : List Operation
  writeCursor : Option ℕ
  statusCursor : Option ℕ

/-- The first read from a position on. -/
def ebFindRead (ops : List Operation) (i : ℕ) : Option ℕ :=
  ((ops.drop i).findIdx? Operation.isRead).map (i + ·)

/-- The first bus operation from a position on. -/
def ebFindBus (ops : List Operation) (i : ℕ) : Option ℕ :=
  ((ops.drop i).findIdx? Operation.isBus).map (i + ·)

/-- Let `n` bus operations take the low bits of `value`, the first one bit `n - 1`. -/
def markErrors (value : ℕ) : ℕ → List Operation → List Operation
  | 0, ops => ops
  | _, [] => []
  | n + 1, op :: ops =>
    if op.cfgSpace then op :: markErrors value (n + 1) ops
    else { op with error := op.error || value.testBit n } :: markErrors value n ops

/-- How far a walk over `n` bus operations gets. -/
def passBus : ℕ → List Operation → ℕ
  | 0, _ => 0
  | _, [] => 0
  | n + 1, op :: ops => 1 + passBus (if op.cfgSpace then n + 1 else n) ops

namespace Response

/-- A write-back of read data. -/
def writeValue (r : Response) (value : ℕ) : Option Response :=
  r.writeCursor.map fun i =>
    { r with
      ops := r.ops.modify i fun op => { op with value := value }
      writeCursor := ebFindRead r.ops (i + 1) }

/-- A write-back of error bits: of as many operations as the width has bits, or all that are
left. -/
def writeStatus (r : Response) (widths value : ℕ) : Option Response :=
  r.statusCursor.bind fun i =>
    let rest := r.ops.drop i
    let maxops := (widths &&& ebDataX) * 8
    let count := rest.countP Operation.isBus
    let ops := if maxops = 0 then count else min maxops count
    if ops = 0 then none
    else
      some
        { r with
          ops := r.ops.take i ++ markErrors value ops rest
          statusCursor := ebFindBus r.ops (i + passBus ops rest) }

/-- Detect segfault. -/
def status (r : Response) : Status := if r.ops.any Operation.error then .segfault else .ok

/-- The part of `eb_socket_write_config` that works on the response found: the response, and
the status of the callback if it is complete. -/
def writeBack (r : Response) (widths addr value : ℕ) : Response × Option Status :=
  match if addr % 2 = 0 then r.writeValue value else r.writeStatus widths value with
  | none => (r, some .fail)
  | some r =>
    (r, if r.writeCursor = none ∧ r.statusCursor = none then some r.status else none)

@[simp] theorem writeBack_address (r : Response) (widths addr value : ℕ) :
    (r.writeBack widths addr value).1.address = r.address ∧
      (r.writeBack widths addr value).1.deadline = r.deadline ∧
      (r.writeBack widths addr value).1.device = r.device := by
  rw [writeBack]
  split
  · exact ⟨rfl, rfl, rfl⟩
  · rename_i r' h
    split at h
    · obtain ⟨i, -, rfl⟩ := Option.map_eq_some_iff.mp h
      exact ⟨rfl, rfl, rfl⟩
    · obtain ⟨i, -, hi⟩ := Option.bind_eq_some_iff.mp h
      dsimp only at hi
      generalize (if (widths &&& ebDataX) * 8 = 0 then (r.ops.drop i).countP Operation.isBus
        else min ((widths &&& ebDataX) * 8) ((r.ops.drop i).countP Operation.isBus)) = ops at hi
      split at hi
      · simp at hi
      · cases hi
        exact ⟨rfl, rfl, rfl⟩

end Response

/-- The deadline rebuilt relative to the cached clock, on 32 bits. -/
def deadlineAt (timeCache deadline : ℕ) : ℕ :=
  let udelta := (deadline + 2 ^ 16 - timeCache % 2 ^ 16) % 2 ^ 16
  -- sign conversion
  if udelta < 2 ^ 15 then (timeCache + udelta) % 2 ^ 32
  else (timeCache + 2 ^ 32 - (2 ^ 16 - udelta)) % 2 ^ 32

end WhiteRabbit.Etherbone
