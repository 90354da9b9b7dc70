import WhiteRabbit.FlushContents

/-!
# The shape of an encoding

The return address of a cycle shows in nothing but the base return addresses of its records.
How a flush packs cycles and where they lie in a stream follows from their operations.
-/

namespace WhiteRabbit.Etherbone
open BigEndian GroupPacking

variable {p : Port}

/-- The record of a cycle with return address `0`, moved to another one. -/
def Record.redirect (rba : ℕ) (r : Record) : Record := { r with ret := rba ||| r.ret }

@[simp] theorem Record.redirect_reads (rba : ℕ) (r : Record) : (r.redirect rba).reads = r.reads := rfl

@[simp] theorem Record.redirect_length (rba : ℕ) (r : Record) :
    (r.redirect rba).length p = r.length p := by
  simp [length, length_words, redirect]

theorem nextRecord_redirect (needsCheck : Bool) (maxops rba ops : ℕ) (l : List Operation) :
    nextRecord p needsCheck maxops rba ops l =
      { nextRecord p needsCheck maxops 0 ops l with
        record := (nextRecord p needsCheck maxops 0 ops l).record.redirect rba } := by
  simp only [nextRecord, Record.redirect, Nat.zero_or]
  congr 2
  split <;> simp

theorem recordLoop_redirect (needsCheck : Bool) (maxops rba fuel ops : ℕ) (l : List Operation) :
    recordLoop p needsCheck maxops rba fuel ops l =
      (recordLoop p needsCheck maxops 0 fuel ops l).map (List.map (Record.redirect rba)) := by
  induction fuel generalizing ops l with
  | zero => rfl
  | succ fuel ih =>
    rw [recordLoop, recordLoop, nextRecord_redirect]
    dsimp only
    split
    · rfl
    · rw [ih]
      simp [Function.comp_def]

/-- The records of a cycle, up to its return address. -/
def layout (p : Port) (ops : List Operation) : List Record := (encodeCycle p 0 ops).getD []

theorem encodeCycle_layout (rba : ℕ) (ops : List Operation) :
    (encodeCycle p rba ops).getD [] = (layout p ops).map (Record.redirect rba) := by
  rw [layout, encodeCycle, recordLoop_redirect]
  dsimp only [encodeCycle]
  cases recordLoop p _ _ 0 _ 0 ops <;> rfl

/-- The number of bytes of an encoded cycle. -/
def encodedSize (p : Port) (ops : List Operation) : ℕ := load (Record.length p) (layout p ops)

theorem length_encoding {ops : List Operation} {recs : List Record} (h : IsEncoding p ops recs) {rba : ℕ}
    (hrecs : recs = (encodeCycle p rba ops).getD []) :
    (recordBytes p recs).length = encodedSize p ops := by
  rw [length_recordBytes h.wellFormed, hrecs, encodeCycle_layout, encodedSize]
  exact load_map _ (fun r => Record.redirect_length rba r) _

/-- What matters of a record when it is packed. -/
structure Shape where
  length : ℕ
  reads : Bool
  deriving DecidableEq

def Record.shape (p : Port) (r : Record) : Shape := ⟨r.length p, decide r.HasReads⟩

@[simp] theorem Record.redirect_shape (rba : ℕ) (r : Record) : (r.redirect rba).shape p = r.shape p := by
  rw [shape, shape, redirect_length]
  rfl

/-- The cycles that a flush formats, as groups of shapes. -/
def shapes (p : Port) (ready : List Queued) : List (List Shape) :=
  (ready.filterMap (formattedOps p)).map fun ops => (layout p ops).map (Record.shape p)

/-- How a flush packs its cycles, and which ones it keeps. -/
def packing (p : Port) (mtu : ℕ) (ready : List Queued) : Packing Shape × List Bool :=
  packGroups Shape.length (mtu - p.headerAlignment) Packing.empty (shapes p ready)

theorem map_shape {opss : List (List Operation)} {groups : List (List Record)}
    (h : List.Forall₂ (fun ops recs => IsEncoding p ops recs ∧
      ∃ rba, recs = (encodeCycle p rba ops).getD []) opss groups) :
    groups.map (List.map (Record.shape p)) = opss.map fun ops => (layout p ops).map (Record.shape p) := by
  induction h with
  | nil => rfl
  | cons hc _ ih =>
    obtain ⟨-, rba, rfl⟩ := hc
    simp [encodeCycle_layout, ih, Function.comp_def]

/-- The records of a flush are packed as their shapes are. -/
theorem packing_eq (mtu : ℕ) {ready : List Queued} {groups : List (List Record)}
    (h : List.Forall₂ (fun ops recs => IsEncoding p ops recs ∧
      ∃ rba, recs = (encodeCycle p rba ops).getD []) (ready.filterMap (formattedOps p)) groups) :
    packing p mtu ready =
      ((packGroups (Record.length p) (mtu - p.headerAlignment) Packing.empty groups).1.map
          (Record.shape p),
        (packGroups (Record.length p) (mtu - p.headerAlignment) Packing.empty groups).2) := by
  rw [packing, shapes, ← map_shape h]
  exact packGroups_map (Record.shape p) (fun _ => rfl) Packing.empty groups

end WhiteRabbit.Etherbone
