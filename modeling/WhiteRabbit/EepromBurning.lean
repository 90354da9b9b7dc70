import WhiteRabbit.EepromImage
import WhiteRabbit.TlvFiles

/-!
# Burning a file into the EEPROM

The records of a file go to the write operation of the carrier, one after the other. Over the bus of the card they end
up in the chip, up to the first one that does not fit.
-/

namespace WhiteRabbit.Spec
open TwoWireBus

def enotsupp : ℤ := 524

/-- `spec_write_ee`: the pins of the bus are in the golden image of the FPGA. -/
def specWriteEe (golden : Bool) (s : Slave) (polls : ℕ) (x : Card) (w : Fmc.EepromWrite) : Option (Card × ℤ) :=
  if golden then (x.call s polls (.write w.addr w.data)).map fun r => (r.1, r.2.1) else some (x, -enotsupp)

/-- Some writes, and what the last one returns. -/
def specWrites (golden : Bool) (s : Slave) (polls : ℕ) : Card × ℤ → List Fmc.EepromWrite → Option (Card × ℤ)
  | x, [] => some x
  | x, w :: ws => (specWriteEe golden s polls x.1 w).bind fun x => specWrites golden s polls x ws

/-- The card as the EEPROM that a file is written to. -/
def Card.device (golden : Bool) (s : Slave) (polls : ℕ) (x : Card) : Fmc.EepromDevice :=
  ⟨fun ws => ((specWrites golden s polls (x, 0) ws).map Prod.snd).getD 0⟩

/-- The record lies in the EEPROM. -/
def fits (w : Fmc.EepromWrite) : Bool := decide (w.addr + w.data.length ≤ specI2cEepromSize)

def overwrite (image : List UInt8) (w : Fmc.EepromWrite) : List UInt8 :=
  image.take w.addr ++ w.data ++ image.drop (w.addr + w.data.length)

theorem specWrites_append (golden : Bool) (s : Slave) (polls : ℕ) (x : Card × ℤ) (ws vs : List Fmc.EepromWrite) :
    specWrites golden s polls x (ws ++ vs) =
      (specWrites golden s polls x ws).bind fun x => specWrites golden s polls x vs := by
  induction ws generalizing x with
  | nil => rfl
  | cons w ws ih =>
    rw [List.cons_append, specWrites, specWrites]
    cases specWriteEe golden s polls x.1 w with
    | none => rfl
    | some x => exact ih x

section Burn

variable {c now : Chip} {polls : ℕ} {x : Card}

theorem Card.Mirrors.writeEe (h : x.Mirrors c polls now) {w : Fmc.EepromWrite} (hsane : w.addr + w.data.length < 2 ^ 64) :
    ∃ x' now', specWriteEe true c.slave polls x w = some (x', if fits w then (w.data.length : ℤ) else -einval) ∧
      x'.Mirrors c polls now' ∧ x'.fmc.eeprom = if fits w then overwrite x.fmc.eeprom w else x.fmc.eeprom := by
  obtain ⟨x', now', hcall, hmirrors, himage⟩ := h.call (show (EepromCall.write w.addr w.data).Sane from hsane)
  rw [arrayCall, h.length_eq] at hcall himage
  rw [specWriteEe, if_pos rfl, hcall, fits]
  by_cases hfit : w.addr + w.data.length ≤ specI2cEepromSize
  · rw [if_pos hfit] at himage
    refine ⟨x', now', ?_, hmirrors, ?_⟩
    · rw [if_pos hfit, if_pos (decide_eq_true hfit)]
      rfl
    · rw [himage, if_pos (decide_eq_true hfit)]
      rfl
  · rw [if_neg hfit] at himage
    refine ⟨x', now', ?_, hmirrors, ?_⟩
    · rw [if_neg hfit, if_neg (by simpa using hfit)]
      rfl
    · rw [himage, if_neg (by simpa using hfit)]

/-- Writes that are issued one after the other, after some others. -/
theorem issue_writes {x₀ : Card} {done : List Fmc.EepromWrite} {ret : ℤ}
    (hdone : specWrites true c.slave polls (x₀, 0) done = some (x, ret)) (h : x.Mirrors c polls now)
    {ws : List Fmc.EepromWrite} (hsane : ∀ w ∈ ws, w.addr + w.data.length < 2 ^ 64) :
    (Fmc.issue (x₀.device true c.slave polls) done ws).1 = (if ws.all fits then 0 else -einval) ∧
      ∃ x' ret' now', specWrites true c.slave polls (x₀, 0) (Fmc.issue (x₀.device true c.slave polls) done ws).2 =
          some (x', ret') ∧ x'.Mirrors c polls now' ∧ x'.fmc.eeprom = (ws.takeWhile fits).foldl overwrite x.fmc.eeprom := by
  induction ws generalizing done x ret now with
  | nil => exact ⟨rfl, x, ret, now, hdone, h, rfl⟩
  | cons w ws ih =>
    obtain ⟨hw, hws⟩ := List.forall_mem_cons.mp hsane
    obtain ⟨x₁, now₁, hwrite, h₁, himage⟩ := h.writeEe hw
    have hdone₁ : specWrites true c.slave polls (x₀, 0) (done ++ [w]) =
        some (x₁, if fits w then (w.data.length : ℤ) else -einval) := by
      rw [specWrites_append, hdone, Option.bind_some, specWrites, hwrite]
      rfl
    have hret : (x₀.device true c.slave polls).writeEe (done ++ [w]) = if fits w then (w.data.length : ℤ) else -einval := by
      rw [Card.device]
      dsimp only
      rw [hdone₁]
      rfl
    rw [Fmc.issue, hret]
    cases hfit : fits w with
    | true =>
      rw [hfit, if_pos rfl] at himage hdone₁
      obtain ⟨hall, x', ret', now', hrun, h', himage'⟩ := ih hdone₁ h₁ hws
      have hpos : ¬ (w.data.length : ℤ) < 0 := Int.not_lt.mpr (Int.natCast_nonneg _)
      rw [if_pos rfl, if_neg hpos, hall, List.all_cons, hfit, Bool.true_and, List.takeWhile_cons, hfit, if_pos rfl]
      refine ⟨rfl, x', ret', now', hrun, h', ?_⟩
      rw [himage', himage, List.foldl_cons]
    | false =>
      rw [hfit, if_neg Bool.false_ne_true] at himage hdone₁
      rw [if_neg Bool.false_ne_true, if_pos (by decide), List.all_cons, hfit, Bool.false_and, List.takeWhile_cons, hfit]
      exact ⟨rfl, x₁, _, now₁, hdone₁, h₁, himage⟩

/-- A file of records is burned into the chip, up to the first record that does not fit; the image of the driver follows
the chip, and an error is returned exactly when there is such a record. -/
theorem tlv_burned (h : x.Mirrors c polls now) {data : List UInt8} {rs : List Fmc.TlvRecord}
    (hreads : Fmc.TlvReads (Fmc.intSize data) data rs) {name : Fmc.FileName}
    (hname : name.chars.drop (name.chars.length - 4) = ['.', 't', 'l', 'v']) :
    (Fmc.fweRun (x.device true c.slave polls) data name).1 =
        (if (rs.map Fmc.TlvRecord.write).all fits then 0 else -einval) ∧
      ∃ x' ret now', specWrites true c.slave polls (x, 0) (Fmc.fweRun (x.device true c.slave polls) data name).2 =
          some (x', ret) ∧ x'.Mirrors c polls now' ∧
        x'.fmc.eeprom = ((rs.map Fmc.TlvRecord.write).takeWhile fits).foldl overwrite x.fmc.eeprom := by
  rw [hreads.fweRun hname]
  apply issue_writes rfl h
  intro w hw
  obtain ⟨r, -, rfl⟩ := List.mem_map.mp hw
  have haddr := r.addr_lt
  have hlength := r.length_lt
  rw [Fmc.TlvRecord.write]
  dsimp only
  omega

end Burn

namespace Sample

/-- A card with the chip, and its image. -/
def imaged (c : Chip) : Card := ⟨⟨c.addr, false, c.image⟩, Bus.fresh⟩

theorem imaged_mirrors {c : Chip} {polls : ℕ} (hfree : c.bits = none) (hready : c.busy = 0)
    (hdelay : ∀ n, c.delay n < polls) : (imaged c).Mirrors c polls c where
  real := rfl
  idle := Bus.idle_fresh _
  rests := ⟨rfl, rfl⟩
  free := hfree
  ready := hready
  addr := rfl
  delay := hdelay
  length_eq := c.length_image
  mem _ hi := c.image_getElem? hi

def oneByte : Fmc.TlvRecord := ⟨2, [0xab], by decide, by decide⟩

theorem oneByte_reads : Fmc.TlvReads (Fmc.intSize [0x77, 2, 0, 1, 0, 0xab]) [0x77, 2, 0, 1, 0, 0xab] [oneByte] := by
  have hread : Fmc.TlvReads 6 (oneByte.encode ++ []) [oneByte] :=
    Fmc.TlvReads.next (by decide) (by decide) (Fmc.TlvReads.stop (by decide))
  have hbytes : oneByte.encode ++ [] = [0x77, 2, 0, 1, 0, 0xab] := by decide
  have hsize : Fmc.intSize [0x77, 2, 0, 1, 0, 0xab] = 6 := by decide
  rwa [hbytes, ← hsize] at hread

theorem oneByte_burned :
    (Fmc.fweRun ((imaged blankChip).device true blankChip.slave 3) [0x77, 2, 0, 1, 0, 0xab]
        ⟨['a', '.', 't', 'l', 'v'], by decide⟩).1 =
        (if ([oneByte].map Fmc.TlvRecord.write).all fits then 0 else -einval) ∧
      ∃ x' ret now', specWrites true blankChip.slave 3 (imaged blankChip, 0)
          (Fmc.fweRun ((imaged blankChip).device true blankChip.slave 3) [0x77, 2, 0, 1, 0, 0xab]
            ⟨['a', '.', 't', 'l', 'v'], by decide⟩).2 = some (x', ret) ∧ x'.Mirrors blankChip 3 now' ∧
        x'.fmc.eeprom = (([oneByte].map Fmc.TlvRecord.write).takeWhile fits).foldl overwrite (imaged blankChip).fmc.eeprom :=
  tlv_burned (imaged_mirrors rfl rfl fun _ => (by decide : 2 < 3)) oneByte_reads rfl

end Sample

end WhiteRabbit.Spec
