import WhiteRabbit.EepromChip
import Mathlib.Data.List.Basic

/-!
# The image of the EEPROM

The driver reads the EEPROM once and keeps the image. Writes go to the chip, byte by byte, and to the image, reads to
the chip only. Seen from above the chip, its bus and the driver are an array of bytes, and the image is its contents.
-/

namespace WhiteRabbit.Spec
open TwoWireBus

/-- Whether the chip of the card answers. -/
def mi2cScan (s : Slave) (fmc : FmcDevice) (b : Bus) : Bus × Bool :=
  -- ensure the bus is reset
  let b := mi2cStop s (mi2cStart s b)
  let (b, ret) := mi2cPutByte s (mi2cStart s b) (fmc.eepromAddr <<< 1)
  (mi2cStop s b, decide (ret = 0))

structure Card where
  fmc : FmcDevice
  bus : Bus

/-- What `spec_i2c_init` leaves, and returns. A card without a chip has no mezzanine. -/
structure I2cInit where
  card : Card
  noMezzanine : Bool
  ret : ℤ

/-- `spec_i2c_init`; an image may be asked for instead of the one of the chip, when it can be loaded. -/
def specI2cInit (s : Slave) (fmc : FmcDevice) (fw : Option (List UInt8)) (b : Bus) : I2cInit :=
  let (b, found) := mi2cScan s fmc b
  if found = false then ⟨⟨fmc, b⟩, true, 0⟩
  else
    let fmc := { fmc with fakeEeprom := fmc.fakeEeprom || fw.isSome }
    let buf := (fw.getD []).take specI2cEepromSize
    let buf := buf ++ List.replicate (specI2cEepromSize - buf.length) 0
    let r := specEepromRead s fmc b 0 specI2cEepromSize
    if r.ret ≠ specI2cEepromSize then ⟨⟨{ fmc with eeprom := [] }, r.bus⟩, false, -eio⟩
    else ⟨⟨{ fmc with eeprom := r.stored ++ buf.drop r.stored.length }, r.bus⟩, false, 0⟩

inductive EepromCall where
  | read (offset size : ℕ)
  | write (offset : ℕ) (data : List UInt8)

/-- A call of the driver: what it returns, and the bytes it stores. A write polls at most so often. -/
def Card.call (s : Slave) (polls : ℕ) (x : Card) : EepromCall → Option (Card × ℤ × List UInt8)
  | .read offset size =>
    let r := specEepromRead s x.fmc x.bus offset size
    some ({ x with bus := r.bus }, r.ret, r.stored)
  | .write offset data =>
    let r := specEepromWrite s x.fmc x.bus offset data polls
    r.ret.map fun ret => (⟨{ x.fmc with eeprom := r.eeprom }, r.bus⟩, ret, [])

def Card.calls (s : Slave) (polls : ℕ) : Card → List EepromCall → Option (Card × List (ℤ × List UInt8))
  | x, [] => some (x, [])
  | x, call :: rest =>
    (x.call s polls call).bind fun (x, result) =>
      (x.calls s polls rest).map fun (x, results) => (x, result :: results)

/-- The same call on an array of bytes. -/
def arrayCall (image : List UInt8) : EepromCall → List UInt8 × ℤ × List UInt8
  | .read offset size =>
    if offset + size ≤ image.length then (image, size, (image.drop offset).take size) else (image, -einval, [])
  | .write offset data =>
    if offset + data.length ≤ image.length then
      (image.take offset ++ data ++ image.drop (offset + data.length), data.length, [])
    else (image, -einval, [])

def arrayCalls : List UInt8 → List EepromCall → List UInt8 × List (ℤ × List UInt8)
  | image, [] => (image, [])
  | image, call :: rest =>
    let (image, result) := arrayCall image call
    let (image, results) := arrayCalls image rest
    (image, result :: results)

/-- A call with a range that does not wrap, and bytes to read. -/
def EepromCall.Sane : EepromCall → Prop
  | .read offset size => 1 ≤ size ∧ offset + size < 2 ^ 64
  | .write offset data => offset + data.length < 2 ^ 64

instance : (call : EepromCall) → Decidable call.Sane
  | .read _ _ => inferInstanceAs (Decidable (_ ∧ _))
  | .write _ _ => inferInstanceAs (Decidable (_ < _))

/-- A card with a chip that is ready: it has come to a state where the bus is at rest. -/
structure Card.Ready (x : Card) (c : Chip) (polls : ℕ) (now : Chip) : Prop where
  real : x.fmc.fakeEeprom = false
  idle : x.bus.Idle c.slave
  rests : c.Rests x.bus.heard now
  free : now.bits = none
  ready : now.busy = 0
  addr : now.addr = x.fmc.eepromAddr
  delay : ∀ n, now.delay n < polls

/-- Its memory is the image. -/
structure Card.Mirrors (x : Card) (c : Chip) (polls : ℕ) (now : Chip) : Prop extends x.Ready c polls now where
  length_eq : x.fmc.eeprom.length = specI2cEepromSize
  mem : ∀ i < specI2cEepromSize, x.fmc.eeprom[i]? = some (now.mem i)

/-- The memory of a chip as an array. -/
def Chip.image (c : Chip) : List UInt8 := (List.range specI2cEepromSize).map c.mem

section Bytes

theorem Chip.length_image (c : Chip) : c.image.length = specI2cEepromSize := by
  rw [image, List.length_map, List.length_range]

theorem Chip.image_getElem? (c : Chip) {i : ℕ} (hi : i < specI2cEepromSize) : c.image[i]? = some (c.mem i) := by
  rw [image, List.getElem?_map, List.getElem?_range hi]
  rfl

theorem Chip.image_eq (c : Chip) : c.image = (List.range specI2cEepromSize).map fun i => c.mem i := rfl

-- nothing is gained by evaluating it
attribute [irreducible] Chip.image

theorem storeBytes_apply (mem : ℕ → UInt8) (offset : ℕ) (data : List UInt8) (i : ℕ) :
    storeBytes mem offset data i = if offset ≤ i then (data[i - offset]?).getD (mem i) else mem i := by
  induction data generalizing mem offset with
  | nil => simp [storeBytes]
  | cons d data ih =>
    rw [storeBytes, ih]
    by_cases hlt : offset ≤ i
    · rw [if_pos hlt]
      rcases Nat.eq_or_lt_of_le hlt with rfl | hlt'
      · rw [if_neg (by omega), Nat.sub_self, Function.update_self]
        rfl
      · have hsucc : i - offset = (i - (offset + 1)) + 1 := by omega
        rw [if_pos (by omega), Function.update_of_ne (by omega), hsucc, List.getElem?_cons_succ]
    · rw [if_neg hlt, if_neg (by omega), Function.update_of_ne (by omega)]

theorem byteBits_injective : Function.Injective byteBits := by
  intro a b h
  have hnumber := congrArg number h
  rw [byteBits, byteBits, number_msbFirst, number_msbFirst, Nat.mod_eq_of_lt (UInt8.toNat_lt a),
    Nat.mod_eq_of_lt (UInt8.toNat_lt b)] at hnumber
  exact UInt8.toNat_inj.mp hnumber

end Bytes

section Calls

variable {c now : Chip} {polls offset size : ℕ} {x : Card} {data : List UInt8}

theorem tooFar_iff (h : offset + size < 2 ^ 64) : tooFar offset size = true ↔ specI2cEepromSize < offset + size := by
  rw [tooFar, Nat.mod_eq_of_lt h, Bool.or_eq_true, decide_eq_true_iff, decide_eq_true_iff]
  omega

/-- A part of the image, as it is in the memory of the chip. -/
theorem Card.image_range {image : List UInt8} {mem : ℕ → UInt8}
    (hmem : ∀ i < specI2cEepromSize, image[i]? = some (mem i)) (hfit : offset + size ≤ specI2cEepromSize) :
    (image.drop offset).take size = (List.range size).map fun i => mem (offset + i) := by
  apply List.ext_getElem?
  intro i
  rw [List.getElem?_take, List.getElem?_map]
  by_cases hi : i < size
  · rw [if_pos hi, List.getElem?_drop, hmem _ (by omega), List.getElem?_range hi]
    rfl
  · rw [if_neg hi, List.getElem?_eq_none (by rw [List.length_range]; omega)]
    rfl

/-- Overwriting keeps the image what the memory is. -/
theorem Card.overwrite_mem {image : List UInt8} {mem : ℕ → UInt8}
    (hmem : ∀ i < specI2cEepromSize, image[i]? = some (mem i)) (hlength : image.length = specI2cEepromSize)
    (hfit : offset + data.length ≤ specI2cEepromSize) {i : ℕ} (hi : i < specI2cEepromSize) :
    (image.take offset ++ data ++ image.drop (offset + data.length))[i]? = some (storeBytes mem offset data i) := by
  have htake : (image.take offset).length = offset := by
    rw [List.length_take, hlength]
    omega
  rw [storeBytes_apply, List.append_assoc]
  by_cases hbefore : i < offset
  · rw [if_neg (by omega), List.getElem?_append_left (by omega), List.getElem?_take, if_pos hbefore, hmem i hi]
  · rw [if_pos (by omega), List.getElem?_append_right (by omega), htake]
    by_cases hin : i - offset < data.length
    · rw [List.getElem?_append_left hin, List.getElem?_eq_getElem hin, Option.getD_some]
    · have hindex : offset + data.length + (i - offset - data.length) = i := by omega
      rw [List.getElem?_append_right (by omega), List.getElem?_drop, hindex, hmem i hi,
        List.getElem?_eq_none (by omega), Option.getD_none]

/-- A read returns a part of the memory. -/
theorem Card.Ready.read (h : x.Ready c polls now) (hsize : 1 ≤ size) (hfit : offset + size ≤ specI2cEepromSize) :
    (specEepromRead c.slave x.fmc x.bus offset size).ret = size ∧
      (specEepromRead c.slave x.fmc x.bus offset size).stored = (List.range size).map (fun i => now.mem (offset + i)) ∧
      ∃ pointer, Card.Ready { x with bus := (specEepromRead c.slave x.fmc x.bus offset size).bus } c polls
        { now with pointer := pointer } := by
  have hoffset : offset < 2 ^ 16 := by
    rw [specI2cEepromSize] at hfit
    omega
  obtain ⟨hrefuses, hbytes, pointer, hended⟩ := h.rests.reads h.free h.ready hsize hoffset
  have hrun := specEepromRead_at c.slave x.fmc x.bus h.real h.idle hsize hfit
  rw [h.addr] at hrefuses hbytes hended
  simp only [hrefuses, Bool.false_eq_true, if_false] at hrun
  obtain ⟨hsaid, hret, hstored⟩ := hrun
  refine ⟨hret, ?_, pointer, h.real, hsaid.idle, ?_, h.free, h.ready, h.addr, h.delay⟩
  · apply List.map_injective_iff.mpr byteBits_injective
    rw [hstored, hbytes, List.map_map]
    rfl
  · dsimp only
    rw [hsaid.heard_eq, h.addr]
    exact hended

/-- A write ends, and puts its bytes in the image and in the chip. -/
theorem Card.Mirrors.write (h : x.Mirrors c polls now) (hfit : offset + data.length ≤ specI2cEepromSize) :
    (specEepromWrite c.slave x.fmc x.bus offset data polls).ret = some (data.length : ℤ) ∧
      (specEepromWrite c.slave x.fmc x.bus offset data polls).eeprom =
        x.fmc.eeprom.take offset ++ data ++ x.fmc.eeprom.drop (offset + data.length) ∧
      ∃ now', Card.Mirrors ⟨{ x.fmc with eeprom := (specEepromWrite c.slave x.fmc x.bus offset data polls).eeprom },
        (specEepromWrite c.slave x.fmc x.bus offset data polls).bus⟩ c polls now' := by
  have hfit16 : offset + data.length ≤ 2 ^ 16 := by
    rw [specI2cEepromSize] at hfit
    omega
  obtain ⟨hcomplete, pointer, writes, hended⟩ := h.rests.writes h.free h.ready h.delay hfit16
  rw [h.addr] at hcomplete hended
  have hmeant := writeMeant c.slave x.fmc x.bus h.idle hfit polls
  simp only [WriteMeant, h.real, Bool.false_eq_true, if_false, hcomplete] at hmeant
  obtain ⟨hsaid, hret⟩ := hmeant
  have hint : asInt data.length = data.length := asInt_fits (by omega)
  have himage : (specEepromWrite c.slave x.fmc x.bus offset data polls).eeprom =
      x.fmc.eeprom.take offset ++ data ++ x.fmc.eeprom.drop (offset + data.length) := by
    rw [specEepromWrite, not_tooFar hfit] at hret ⊢
    simp only [Bool.false_eq_true, if_false] at hret ⊢
    apply writeLoop_image
    · rw [hint]
      exact Int.natCast_nonneg _
    · rw [h.length_eq]
      exact hfit
    · rw [hret, hint]
  refine ⟨hret, himage, { now with mem := storeBytes now.mem offset data, pointer := pointer, writes := writes },
    ⟨h.real, hsaid.idle, ?_, h.free, h.ready, h.addr, h.delay⟩, ?_, ?_⟩
  · dsimp only
    rw [hsaid.heard_eq, h.addr]
    exact hended
  · dsimp only
    rw [himage, List.length_append, List.length_append, List.length_take, List.length_drop, h.length_eq]
    omega
  · intro i hi
    dsimp only
    rw [himage]
    exact Card.overwrite_mem h.mem h.length_eq hfit hi

/-- A call of the driver is the call on the image. -/
theorem Card.Mirrors.call (h : x.Mirrors c polls now) {call : EepromCall} (hsane : call.Sane) :
    ∃ x' now', x.call c.slave polls call = some (x', (arrayCall x.fmc.eeprom call).2) ∧ x'.Mirrors c polls now' ∧
      x'.fmc.eeprom = (arrayCall x.fmc.eeprom call).1 := by
  cases call with
  | read offset size =>
    obtain ⟨hsize, hwrap⟩ := hsane
    rw [arrayCall, h.length_eq]
    by_cases hfit : offset + size ≤ specI2cEepromSize
    · obtain ⟨hret, hstored, pointer, hready⟩ := h.toReady.read hsize hfit
      refine ⟨_, _, ?_, ⟨hready, h.length_eq, h.mem⟩, ?_⟩
      · rw [if_pos hfit, Card.call, hret, hstored, Card.image_range h.mem hfit]
      · rw [if_pos hfit]
    · have hfar := (tooFar_iff hwrap).mpr (Nat.lt_of_not_le hfit)
      refine ⟨x, now, ?_, h, ?_⟩
      · simp only [Card.call, specEepromRead, h.real, hfar, if_neg hfit, Bool.false_eq_true, if_false, if_true]
      · rw [if_neg hfit]
  | write offset data =>
    rw [arrayCall, h.length_eq]
    by_cases hfit : offset + data.length ≤ specI2cEepromSize
    · obtain ⟨hret, himage, now', hmirrors⟩ := h.write hfit
      refine ⟨_, now', ?_, hmirrors, ?_⟩
      · rw [if_pos hfit, Card.call, hret]
        rfl
      · rw [if_pos hfit]
        exact himage
    · have hfar := (tooFar_iff hsane).mpr (Nat.lt_of_not_le hfit)
      refine ⟨x, now, ?_, h, ?_⟩
      · simp only [Card.call, specEepromWrite, hfar, if_neg hfit, if_true]
        rfl
      · rw [if_neg hfit]

theorem Card.Mirrors.calls (h : x.Mirrors c polls now) {list : List EepromCall} (hsane : ∀ call ∈ list, call.Sane) :
    ∃ x' now', x.calls c.slave polls list = some (x', (arrayCalls x.fmc.eeprom list).2) ∧ x'.Mirrors c polls now' ∧
      x'.fmc.eeprom = (arrayCalls x.fmc.eeprom list).1 := by
  induction list generalizing x now with
  | nil => exact ⟨x, now, rfl, h, rfl⟩
  | cons call rest ih =>
    obtain ⟨hcall, hrest⟩ := List.forall_mem_cons.mp hsane
    obtain ⟨x₁, now₁, hrun, h₁, himage⟩ := h.call hcall
    obtain ⟨x', now', hruns, h', himage'⟩ := ih h₁ hrest
    rw [himage] at hruns himage'
    refine ⟨x', now', ?_, h', himage'⟩
    rw [Card.calls, hrun, Option.bind_some]
    dsimp only
    rw [hruns]
    rfl

/-- The scan finds the chip, and leaves it alone. -/
theorem Card.Ready.scan (h : x.Ready c polls now) :
    (mi2cScan c.slave x.fmc x.bus).2 = true ∧
      Card.Ready { x with bus := (mi2cScan c.slave x.fmc x.bus).1 } c polls now := by
  obtain ⟨q, hb⟩ := h.idle.rest
  have hsame : ({ now with bits := none } : Chip) = now := by rw [← h.free]
  -- START and STOP
  have hreset := mi2cStop_at (mi2cStart_at hb h.rests.frame_eq) (Speaks.of_start x.bus.heard).drive_next
  have hrests := h.rests.start.stop
  have hempty : now.finish [] = now := rfl
  rw [hempty, hsame] at hrests
  obtain ⟨hat, hret⟩ := addressed_at false x.fmc.eepromAddr hreset (frame_stop _)
  obtain ⟨hrefuses, hheard⟩ := hrests.call false
  have hzero : decide (now.busy ≠ 0) = false := by simp [h.ready]
  rw [hzero, h.addr] at hrefuses hheard
  simp only [Bool.false_eq_true, if_false, hrefuses] at hat hret
  have hsaid := says_of_at (mi2cStop_at hat (addressed_speaks x.fmc.eepromAddr _).drive_next) (frame_stop _)
  have hended := hheard.stop
  have hpolled : now.finish (address x.fmc.eepromAddr false ++ [false]) = now := by
    have := Chip.finish_selected now []
    rwa [List.append_nil, h.addr] at this
  rw [hpolled, hsame] at hended
  refine ⟨?_, h.real, hsaid.idle, ?_, h.free, h.ready, h.addr, h.delay⟩
  · simp only [mi2cScan, hret, decide_true]
  · dsimp only
    rw [show (mi2cScan c.slave x.fmc x.bus).1.heard = _ from hsaid.heard_eq]
    exact hended

/-- At first the image is read. -/
theorem specI2cInit_mirrors (h : x.Ready c polls now) :
    (specI2cInit c.slave x.fmc none x.bus).ret = 0 ∧ (specI2cInit c.slave x.fmc none x.bus).noMezzanine = false ∧
      (specI2cInit c.slave x.fmc none x.bus).card.fmc.eeprom = now.image ∧
      ∃ now', (specI2cInit c.slave x.fmc none x.bus).card.Mirrors c polls now' := by
  obtain ⟨hfound, hready⟩ := h.scan
  obtain ⟨hret, hstored, pointer, hready'⟩ := hready.read (show 1 ≤ specI2cEepromSize by decide)
    (show 0 + specI2cEepromSize ≤ specI2cEepromSize by decide)
  dsimp only at hret hstored hready'
  have hrun : specI2cInit c.slave x.fmc none x.bus =
      let r := specEepromRead c.slave x.fmc (mi2cScan c.slave x.fmc x.bus).1 0 specI2cEepromSize
      if r.ret ≠ specI2cEepromSize then ⟨⟨{ x.fmc with eeprom := [] }, r.bus⟩, false, -eio⟩
      else ⟨⟨{ x.fmc with eeprom := r.stored ++ (List.replicate specI2cEepromSize 0).drop r.stored.length }, r.bus⟩, false, 0⟩ := by
    rw [specI2cInit]
    simp only [hfound, Bool.true_eq_false, if_false, Option.getD_none, List.take_nil, List.nil_append, List.length_nil,
      Nat.sub_zero, Option.isSome_none, Bool.or_false]
  rw [hrun]
  generalize specEepromRead c.slave x.fmc (mi2cScan c.slave x.fmc x.bus).1 0 specI2cEepromSize = r at *
  have himage : r.stored = now.image := by
    rw [hstored, Chip.image_eq]
    simp only [Nat.zero_add]
  have hrest : (List.replicate specI2cEepromSize (0 : UInt8)).drop now.image.length = [] :=
    List.drop_of_length_le (by rw [List.length_replicate, Chip.length_image])
  dsimp only
  rw [if_neg (not_not_intro hret), himage, hrest, List.append_nil]
  dsimp only
  refine ⟨rfl, rfl, rfl, { now with pointer := pointer }, ⟨hready'.real, hready'.idle, hready'.rests, hready'.free,
    hready'.ready, hready'.addr, hready'.delay⟩, ?_, ?_⟩
  · dsimp only
    exact now.length_image
  · dsimp only
    exact fun i hi => now.image_getElem? hi

/-- From a chip at rest on: the image that `spec_i2c_init` reads is the memory of the chip, and the calls of the driver
after it, over the bus, are calls on that image, which stays the memory of the chip. -/
theorem eeprom_is_array (c : Chip) (hfree : c.bits = none) (hready : c.busy = 0) (hdelay : ∀ n, c.delay n < polls)
    {list : List EepromCall} (hsane : ∀ call ∈ list, call.Sane) :
    (specI2cInit c.slave ⟨c.addr, false, []⟩ none Bus.fresh).ret = 0 ∧
      (specI2cInit c.slave ⟨c.addr, false, []⟩ none Bus.fresh).card.fmc.eeprom = c.image ∧
      ∃ x' now', (specI2cInit c.slave ⟨c.addr, false, []⟩ none Bus.fresh).card.calls c.slave polls list =
          some (x', (arrayCalls c.image list).2) ∧
        x'.fmc.eeprom = (arrayCalls c.image list).1 ∧ x'.Mirrors c polls now' := by
  have hstart : Card.Ready ⟨⟨c.addr, false, []⟩, Bus.fresh⟩ c polls c :=
    ⟨rfl, Bus.idle_fresh c.slave, ⟨rfl, rfl⟩, hfree, hready, rfl, hdelay⟩
  have hinit := specI2cInit_mirrors hstart
  dsimp only at hinit
  generalize specI2cInit c.slave ⟨c.addr, false, []⟩ none Bus.fresh = init at *
  obtain ⟨hret, -, himage, now, hmirrors⟩ := hinit
  obtain ⟨x', now', hcalls, hmirrors', himage'⟩ := hmirrors.calls hsane
  rw [himage] at hcalls himage'
  exact ⟨hret, himage, x', now', hcalls, himage', hmirrors'⟩

end Calls

namespace Sample

/-- An empty chip that refuses its address twice after each write. -/
def blankChip : Chip where
  addr := 0x50
  delay _ := 2
  mem _ := 0xff

def writeAndRead : List EepromCall := [.write 7 [1, 2], .read 6 3]

theorem blankChip_array : (specI2cInit blankChip.slave ⟨blankChip.addr, false, []⟩ none Bus.fresh).ret = 0 ∧
    (specI2cInit blankChip.slave ⟨blankChip.addr, false, []⟩ none Bus.fresh).card.fmc.eeprom = blankChip.image ∧
    ∃ x' now', (specI2cInit blankChip.slave ⟨blankChip.addr, false, []⟩ none Bus.fresh).card.calls blankChip.slave 3
        writeAndRead = some (x', (arrayCalls blankChip.image writeAndRead).2) ∧
      x'.fmc.eeprom = (arrayCalls blankChip.image writeAndRead).1 ∧ x'.Mirrors blankChip 3 now' :=
  eeprom_is_array blankChip rfl rfl (fun _ => (by decide : 2 < 3))
    (by simp only [writeAndRead, List.forall_mem_cons]; decide)

end Sample

end WhiteRabbit.Spec
