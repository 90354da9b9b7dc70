import WhiteRabbit.EepromTransfers

/-!
# The dialogues that the EEPROM transfers mean

What the transfers of the EEPROM are meant to say are dialogues over whole bytes, in which the
slave answers as it likes. A read that has its second address refused is the only transfer whose
waveform says something else.
-/

namespace WhiteRabbit.Spec
open TwoWireBus

/-- Seven bits of address and the direction. -/
def address (addr : ℕ) (read : Bool) : List Bool := msbFirst 7 addr ++ [read]

section Dialogues
variable (s : Slave) (addr : ℕ)

def refusesAddress (read : Bool) (h : List Symbol) : Bool :=
  s.refuses (h ++ [.start]) (address addr read)

/-- START and the address, with the slave's answer. -/
def addressed (read : Bool) (h : List Symbol) : List Symbol :=
  s.sent (h ++ [.start]) (address addr read)

/-- The two bytes of an offset, high one first. -/
def located (offset : ℕ) (h : List Symbol) : List Symbol :=
  s.sent (s.sent h (msbFirst 8 (offset / 256))) (msbFirst 8 offset)

/-- Bytes from the slave, each acknowledged except the last, and their bits. -/
def receives : ℕ → List Symbol → List Symbol × List (List Bool)
  | 0, h => (h, [])
  | size+1, h =>
    let (k, bytes) := receives size (s.received h (size != 0))
    (k, s.bits 8 h :: bytes)

/-- A read as it is meant: all that has been heard when it ends, and the bytes unless an address
is refused. -/
def readDialogue (offset size : ℕ) (h : List Symbol) : List Symbol × Option (List (List Bool)) :=
  if refusesAddress s addr false h then (addressed s addr false h ++ [.stop], none)
  else
    let k := located s offset (addressed s addr false h) ++ [.stop]
    if refusesAddress s addr true k then (addressed s addr true k ++ [.stop], none)
    else
      let (k, bytes) := receives s size (addressed s addr true k)
      (k ++ [.stop], some bytes)

/-- The address again and again, until it is acknowledged. -/
def polled : ℕ → List Symbol → List Symbol × Bool
  | 0, h => (h, false)
  | polls+1, h =>
    if refusesAddress s addr false h then polled polls (addressed s addr false h ++ [.stop])
    else (addressed s addr false h ++ [.stop], true)

inductive Outcome where
  | complete
  | refused
  | polling
deriving DecidableEq, Repr

/-- A write as it is meant: one transfer and its polls for each byte. -/
def writeDialogue (polls : ℕ) : ℕ → List UInt8 → List Symbol → List Symbol × Outcome
  | _, [], h => (h, .complete)
  | offset, c :: data, h =>
    if refusesAddress s addr false h then (addressed s addr false h ++ [.stop], .refused)
    else
      let (k, ready) := polled s addr polls
        (s.sent (located s offset (addressed s addr false h)) (byteBits c) ++ [.stop])
      if ready then writeDialogue polls (offset+1) data k else (k, .polling)

end Dialogues

/-- A waveform that says what has been heard so far, with no move of SDA under a high clock but its
STARTs and STOPs, and leaves the bus at rest. -/
structure Says (s : Slave) (b : Bus) (h : List Symbol) : Prop where
  heard_eq : b.heard = h
  moves_eq : moves ⟨true, true⟩ b.wave = h.filter Symbol.isCondition
  idle : b.Idle s

def ReadMeant (s : Slave) (fmc : FmcDevice) (b : Bus) (offset size : ℕ) : Prop :=
  let run := specEepromRead s fmc b offset size
  let (k, meant) := readDialogue s fmc.eepromAddr offset size b.heard
  if fmc.fakeEeprom then run.bus = b ∧ run.ret = size
  else Says s run.bus k ∧
    match meant with
    | none => run.ret < 0
    | some bytes => run.ret = size ∧ run.stored.map byteBits = bytes

def WriteMeant (s : Slave) (fmc : FmcDevice) (b : Bus) (offset : ℕ) (data : List UInt8)
    (polls : ℕ) : Prop :=
  let run := specEepromWrite s fmc b offset data polls
  let (k, outcome) := writeDialogue s fmc.eepromAddr polls offset data b.heard
  if fmc.fakeEeprom then run.bus = b ∧ run.ret = some (data.length : ℤ)
  else Says s run.bus k ∧
    match outcome with
    | .complete => run.ret = some (data.length : ℤ)
    | .refused => ∃ e < 0, run.ret = some e
    | .polling => run.ret = none

theorem address_length (addr : ℕ) (read : Bool) : (address addr read).length = 8 := by
  simp [address]

theorem address_direction (addr : ℕ) (read : Bool) : (address addr read)[7]? = some read := by
  rw [address, List.getElem?_append_right (by simp)]
  simp

theorem address_bits (addr : ℕ) (read : Bool) :
    msbFirst 8 (if read then addr <<< 1 ||| 1 else addr <<< 1) = address addr read :=
  msbFirst_or 7 addr read

section Simulation
variable {s : Slave} {b : Bus} {x q : Bool} {h : List Symbol} {bits : List Bool}

theorem says_of_at (hb : b.At s ⟨true, true⟩ q h) (hf : frame h = none) : Says s b h :=
  ⟨hb.heard_eq, by rw [← conditions_listen, ← hb.heard_eq]; rfl, hb.idle hf⟩

/-- A START and an address, from a bus at rest. -/
theorem addressed_at (read : Bool) (addr : ℕ) (hb : b.At s ⟨true, true⟩ q h) (hf : frame h = none) :
    let run := mi2cPutByte s (mi2cStart s b) (if read then addr <<< 1 ||| 1 else addr <<< 1)
    run.1.At s ⟨false, false⟩ false (addressed s addr read h) ∧
      run.2 = if refusesAddress s addr read h then -eio else 0 := by
  have hp := mi2cPutByte_at (if read then addr <<< 1 ||| 1 else addr <<< 1) (mi2cStart_at hb hf)
    fun more hm => (Speaks.of_start h).drive hm
  rwa [address_bits] at hp

theorem addressed_speaks (addr : ℕ) (h : List Symbol) :
    Speaks (addressed s addr false h) (address addr false ++ [refusesAddress s addr false h]) :=
  (Speaks.of_start h).sent (address_length addr false) fun _ => address_direction addr false

theorem addressed_asks (addr : ℕ) (h : List Symbol) :
    Asks (addressed s addr true h) (address addr true ++ [refusesAddress s addr true h]) :=
  (Speaks.of_start h).asks (address_length addr true) (address_direction addr true)

theorem putByte_at (hb : b.At s ⟨x, false⟩ false h) (hs : Speaks h bits) (v : ℕ) :
    (mi2cPutByte s b v).1.At s ⟨false, false⟩ false (s.sent h (msbFirst 8 v)) :=
  (mi2cPutByte_at v hb fun _ hm => hs.drive hm).1

theorem speaks_more (hs : Speaks h bits) (hne : bits ≠ []) {byte : List Bool} (hl : byte.length = 8) :
    ∃ more ≠ [], Speaks (s.sent h byte) more :=
  ⟨_, by simp, hs.sent hl fun hnil => absurd hnil hne⟩

theorem msbFirst_and (v : ℕ) : msbFirst 8 (v &&& 0xff) = msbFirst 8 v := by
  have hand := Nat.and_two_pow_sub_one_eq_mod v 8
  rw [show (0xff : ℕ) = 2 ^ 8 - 1 from rfl, hand, msbFirst_mod 8 _ le_rfl]

theorem offset_high (offset : ℕ) : msbFirst 8 ((offset >>> 8) &&& 0xff) = msbFirst 8 (offset / 256) := by
  rw [msbFirst_and, Nat.shiftRight_eq_div_pow]

/-- The two bytes of the offset, in the frame of an address for writing. -/
theorem located_at (offset : ℕ) (hb : b.At s ⟨x, false⟩ false h) (hs : Speaks h bits) (hne : bits ≠ []) :
    (mi2cPutByte s (mi2cPutByte s b ((offset >>> 8) &&& 0xff)).1 (offset &&& 0xff)).1.At s
        ⟨false, false⟩ false (located s offset h) ∧
      ∃ more ≠ [], Speaks (located s offset h) more := by
  have hhigh := putByte_at hb hs ((offset >>> 8) &&& 0xff)
  rw [offset_high] at hhigh
  obtain ⟨more, hmore, hsh⟩ := speaks_more (s := s) hs hne (msbFirst_length 8 (offset / 256))
  have hlow := putByte_at hhigh hsh (offset &&& 0xff)
  rw [msbFirst_and] at hlow
  exact ⟨hlow, speaks_more hsh hmore (msbFirst_length 8 offset)⟩

/-- The reading loop, byte by byte in a frame that reads. -/
theorem readLoop_at (size : ℕ) (hb : b.At s ⟨false, false⟩ false h) (ha : Asks h bits) :
    (readLoop s size b).1.At s ⟨false, false⟩ false (receives s size h).1 ∧
      (readLoop s size b).2.map byteBits = (receives s size h).2 := by
  induction size generalizing b h bits with
  | zero => exact ⟨hb, rfl⟩
  | succ size ih =>
    obtain ⟨hat, hbyte⟩ := mi2cGetByte_at (size != 0) hb ha
    obtain ⟨hrest, hbytes⟩ := ih hat (ha.received (size != 0))
    refine ⟨hrest, ?_⟩
    simp only [readLoop, receives, List.map_cons, hbyte, hbytes]

/-- The last byte is refused, and the slave lets go. -/
theorem drive_receives {size : ℕ} (hsize : 1 ≤ size) (ha : Asks h bits) :
    s.drive (receives s size h).1 = true := by
  induction size generalizing h bits with
  | zero => omega
  | succ size ih =>
    rcases Nat.eq_zero_or_pos size with rfl | hpos
    · exact ha.drive_received
    · exact ih hpos (ha.received (size != 0))

/-- The polls, each a whole dialogue of its own. -/
theorem waitReady_at (fmc : FmcDevice) (polls : ℕ) (hb : b.At s ⟨true, true⟩ q h) (hf : frame h = none) :
    ∃ r, (waitReady s fmc polls b).1.At s ⟨true, true⟩ r (polled s fmc.eepromAddr polls h).1 ∧
      frame (polled s fmc.eepromAddr polls h).1 = none ∧
      (waitReady s fmc polls b).2 = (polled s fmc.eepromAddr polls h).2 := by
  induction polls generalizing b q h with
  | zero => exact ⟨q, hb, hf, rfl⟩
  | succ polls ih =>
    obtain ⟨hat, hret⟩ := addressed_at false fmc.eepromAddr hb hf
    have hstop := mi2cStop_at hat (addressed_speaks fmc.eepromAddr h).drive_next
    simp only [Bool.false_eq_true, if_false] at hret hstop
    simp only [waitReady, polled, hret]
    cases refusesAddress s fmc.eepromAddr false h
    · exact ⟨false, hstop, frame_stop _, rfl⟩
    · exact ih hstop (frame_stop _)

/-- Where the writing loop of a real card leaves the bus, and what it returns. -/
theorem writeLoop_at {fmc : FmcDevice} (hreal : fmc.fakeEeprom = false) (polls size : ℕ)
    (data : List UInt8) (offset : ℕ) (eeprom : List UInt8) (hb : b.At s ⟨true, true⟩ q h)
    (hf : frame h = none) :
    let run := writeLoop s fmc polls size offset data b eeprom
    let meant := writeDialogue s fmc.eepromAddr polls offset data h
    Says s run.bus meant.1 ∧
      run.ret = match meant.2 with
        | .complete => some (asInt size)
        | .refused => some (-1)
        | .polling => none := by
  induction data generalizing offset eeprom b q h with
  | nil => exact ⟨says_of_at hb hf, rfl⟩
  | cons c data ih =>
    obtain ⟨hat, hret⟩ := addressed_at false fmc.eepromAddr hb hf
    have hsp := addressed_speaks (s := s) fmc.eepromAddr h
    simp only [Bool.false_eq_true, if_false] at hat hret
    simp only [writeLoop, writeDialogue, hreal, hret, Bool.false_eq_true, if_false]
    cases refusesAddress s fmc.eepromAddr false h with
    | true =>
      -- refused: STOP
      simpa [eio] using says_of_at (mi2cStop_at hat hsp.drive_next) (frame_stop _)
    | false =>
      obtain ⟨hloc, more, hmore, hsl⟩ := located_at offset hat hsp (by simp)
      have hbyte := putByte_at hloc hsl c.toNat
      rw [show msbFirst 8 c.toNat = byteBits c from rfl] at hbyte
      have hlen : (byteBits c).length = 8 := msbFirst_length 8 c.toNat
      obtain ⟨_, _, hsb⟩ := speaks_more (s := s) hsl hmore hlen
      obtain ⟨r, hwait, hfree, hready⟩ :=
        waitReady_at fmc polls (mi2cStop_at hbyte hsb.drive_next) (frame_stop _)
      simp only [Bool.false_eq_true, if_false, lt_irrefl, hready]
      cases hp : (polled s fmc.eepromAddr polls (s.sent (located s offset
          (addressed s fmc.eepromAddr false h)) (byteBits c) ++ [.stop])).2 with
      | true => exact ih (offset+1) (eeprom.set offset c) hwait hfree
      | false => exact ⟨says_of_at hwait hfree, rfl⟩

end Simulation

/-- The slave takes the address for writing and then refuses it for reading. -/
def refusesReading (s : Slave) (addr offset : ℕ) (h : List Symbol) : Bool :=
  !refusesAddress s addr false h &&
    refusesAddress s addr true (located s offset (addressed s addr false h) ++ [.stop])

theorem asInt_fits {n : ℕ} (hn : n ≤ specI2cEepromSize) : asInt n = n := by
  unfold specI2cEepromSize at hn
  exact Int.bmod_eq_of_le (by omega) (by omega)

theorem not_tooFar {offset size : ℕ} (hfit : offset + size ≤ specI2cEepromSize) :
    tooFar offset size = false := by
  have hmod := Nat.mod_le (offset + size) (2 ^ 64)
  simp only [tooFar, Bool.or_eq_false_iff, decide_eq_false_iff_not]
  omega

section Transfers
variable (s : Slave) (fmc : FmcDevice) (b : Bus)

/-- A faked image is written without a look at the bus. -/
theorem writeLoop_fake (hfake : fmc.fakeEeprom = true) (polls size : ℕ) (data : List UInt8)
    (offset : ℕ) (eeprom : List UInt8) :
    let run := writeLoop s fmc polls size offset data b eeprom
    run.bus = b ∧ run.ret = some (asInt size) := by
  induction data generalizing offset eeprom with
  | nil => exact ⟨rfl, rfl⟩
  | cons c data ih =>
    simp only [writeLoop, hfake, if_true]
    exact ih (offset+1) (eeprom.set offset c)

private theorem overwrite_cons {eeprom : List UInt8} {offset : ℕ} (c : UInt8) (data : List UInt8)
    (hlt : offset < eeprom.length) :
    (eeprom.set offset c).take (offset+1) ++ data ++ (eeprom.set offset c).drop (offset+1+data.length) =
      eeprom.take offset ++ c :: data ++ eeprom.drop (offset + (c :: data).length) := by
  have htake : (eeprom.set offset c).take (offset+1) = eeprom.take offset ++ [c] := by
    rw [List.take_succ_eq_append_getElem (by simpa using hlt), List.take_set_of_le le_rfl]
    simp
  have hdrop : (eeprom.set offset c).drop (offset+1+data.length) = eeprom.drop (offset + (c :: data).length) := by
    rw [List.drop_set_of_lt (by omega), List.length_cons]
    congr 1
    omega
  rw [htake, hdrop]
  simp

/-- A write that returns its size has put the bytes in the cached image, and nothing else. -/
theorem writeLoop_image {size : ℕ} (hsize : 0 ≤ asInt size) (polls : ℕ) (data : List UInt8)
    {b : Bus} {offset : ℕ} {eeprom : List UInt8} (hfits : offset + data.length ≤ eeprom.length)
    (hret : (writeLoop s fmc polls size offset data b eeprom).ret = some (asInt size)) :
    (writeLoop s fmc polls size offset data b eeprom).eeprom =
      eeprom.take offset ++ data ++ eeprom.drop (offset + data.length) := by
  induction data generalizing offset b eeprom with
  | nil => simp [writeLoop]
  | cons c data ih =>
    have hlt : offset < eeprom.length := by simp at hfits; omega
    have hrest : offset + 1 + data.length ≤ (eeprom.set offset c).length := by
      simp at hfits ⊢; omega
    rw [← overwrite_cons c data hlt]
    simp only [writeLoop] at hret ⊢
    split_ifs at hret ⊢ with hfake hneg hready
    · exact ih hrest hret
    · -- a refused address returns an error, not the size
      simp only [Option.some.injEq] at hret
      omega
    · exact ih hrest hret

theorem writeMeant {offset : ℕ} {data : List UInt8} (hidle : b.Idle s)
    (hfit : offset + data.length ≤ specI2cEepromSize) (polls : ℕ) :
    WriteMeant s fmc b offset data polls := by
  have hint : asInt data.length = data.length := asInt_fits (by omega)
  simp only [WriteMeant, specEepromWrite, not_tooFar hfit, Bool.false_eq_true, if_false]
  cases hfake : fmc.fakeEeprom with
  | true =>
    obtain ⟨hbus, hret⟩ := writeLoop_fake s fmc b hfake polls data.length data offset fmc.eeprom
    exact ⟨hbus, by rw [hret, hint]⟩
  | false =>
    obtain ⟨q, hb⟩ := hidle.rest
    obtain ⟨hsaid, hret⟩ := writeLoop_at hfake polls data.length data offset fmc.eeprom hb hidle.free
    refine ⟨hsaid, ?_⟩
    rw [hret, hint]
    cases (writeDialogue s fmc.eepromAddr polls offset data b.heard).2 with
    | complete => rfl
    | refused => exact ⟨-1, by omega, rfl⟩
    | polling => rfl

/-- A read of a real card: unless the address is refused for writing it says the whole dialogue
and returns the bits of the slave, whatever answer comes to the address for reading. -/
theorem specEepromRead_at (hreal : fmc.fakeEeprom = false) {offset size : ℕ} (hidle : b.Idle s)
    (hsize : 1 ≤ size) (hfit : offset + size ≤ specI2cEepromSize) :
    let run := specEepromRead s fmc b offset size
    if refusesAddress s fmc.eepromAddr false b.heard then
      Says s run.bus (addressed s fmc.eepromAddr false b.heard ++ [.stop]) ∧ run.ret = -eio
    else
      let k := located s offset (addressed s fmc.eepromAddr false b.heard) ++ [.stop]
      let meant := receives s size (addressed s fmc.eepromAddr true k)
      Says s run.bus (meant.1 ++ [.stop]) ∧ run.ret = size ∧ run.stored.map byteBits = meant.2 := by
  obtain ⟨q, hb⟩ := hidle.rest
  obtain ⟨hat, hret⟩ := addressed_at false fmc.eepromAddr hb hidle.free
  have hsp := addressed_speaks (s := s) fmc.eepromAddr b.heard
  simp only [Bool.false_eq_true, if_false] at hat hret
  simp only [specEepromRead, hreal, not_tooFar hfit, hret, Bool.false_eq_true, if_false]
  cases refusesAddress s fmc.eepromAddr false b.heard with
  | true => simpa [eio] using says_of_at (mi2cStop_at hat hsp.drive_next) (frame_stop _)
  | false =>
    obtain ⟨hloc, more, _, hsl⟩ := located_at offset hat hsp (by simp)
    have hstop := mi2cStop_at hloc hsl.drive_next
    obtain ⟨hagain, _⟩ := addressed_at true fmc.eepromAddr hstop (frame_stop _)
    have hask := addressed_asks (s := s) fmc.eepromAddr
      (located s offset (addressed s fmc.eepromAddr false b.heard) ++ [.stop])
    obtain ⟨hread, hbytes⟩ := readLoop_at size hagain hask
    have hend := mi2cStop_at hread (drive_receives hsize hask)
    simp only [Bool.false_eq_true, if_false, lt_irrefl]
    exact ⟨says_of_at hend (frame_stop _), asInt_fits (by omega), hbytes⟩

/-- A read of a real card is as meant exactly when the second address, like the first, is not refused. -/
theorem readMeant_iff (hreal : fmc.fakeEeprom = false) {offset size : ℕ} (hidle : b.Idle s)
    (hsize : 1 ≤ size) (hfit : offset + size ≤ specI2cEepromSize) :
    ReadMeant s fmc b offset size ↔ refusesReading s fmc.eepromAddr offset b.heard = false := by
  have hrun := specEepromRead_at s fmc b hreal hidle hsize hfit
  simp only [ReadMeant, readDialogue, hreal, refusesReading, Bool.false_eq_true, if_false]
  simp only at hrun
  cases hfirst : refusesAddress s fmc.eepromAddr false b.heard with
  | true =>
    rw [hfirst, if_pos rfl] at hrun
    obtain ⟨hsaid, hret⟩ := hrun
    simp [hsaid, hret, eio]
  | false =>
    rw [hfirst, if_neg Bool.false_ne_true] at hrun
    obtain ⟨hsaid, hret, hbytes⟩ := hrun
    simp only [Bool.false_eq_true, if_false, Bool.not_false, Bool.true_and]
    cases refusesAddress s fmc.eepromAddr true
        (located s offset (addressed s fmc.eepromAddr false b.heard) ++ [.stop]) with
    | true =>
      -- the code goes on reading and returns the size, where an error was meant
      simp [hret]
    | false => simpa using ⟨hsaid, hret, hbytes⟩

end Transfers

/-- Every transfer says and returns what is meant exactly when the card is not a real one, or its
slave does not take the address for writing and then refuse it for reading. -/
theorem transfers_meant_iff (s : Slave) (fmc : FmcDevice) (b : Bus) (offset size : ℕ)
    (hidle : b.Idle s) (hsize : 1 ≤ size) (hfit : offset + size ≤ specI2cEepromSize) :
    (ReadMeant s fmc b offset size ∧
      ∀ data : List UInt8, data.length = size → ∀ polls, WriteMeant s fmc b offset data polls) ↔
      fmc.fakeEeprom = true ∨ refusesReading s fmc.eepromAddr offset b.heard = false := by
  have hwrite : ∀ data : List UInt8, data.length = size → ∀ polls,
      WriteMeant s fmc b offset data polls :=
    fun data hl polls => writeMeant s fmc b hidle (by omega) polls
  rw [and_iff_left hwrite]
  cases hfake : fmc.fakeEeprom with
  | true =>
    simp only [ReadMeant, specEepromRead, hfake, if_true, true_or, iff_true, true_and]
    exact asInt_fits (by omega)
  | false =>
    simpa using readMeant_iff s fmc b hfake hidle hsize hfit

/-- A chip that takes its address only for writing. -/
def writeOnlySlave : Slave := ⟨fun h => match frame h with
  | some bits => bits.length == 8 && bits[7]? == some true
  | none => true⟩

def firstSlot : FmcDevice := ⟨0x50, false, []⟩

/-- Its refusal goes unseen: the read returns one byte that nobody sent. -/
theorem reading_refused : Bus.fresh.Idle writeOnlySlave ∧
    refusesReading writeOnlySlave firstSlot.eepromAddr 0 [] = true ∧
    (specEepromRead writeOnlySlave firstSlot Bus.fresh 0 1).ret = 1 ∧
    ¬ ReadMeant writeOnlySlave firstSlot Bus.fresh 0 1 := by
  have hidle := Bus.idle_fresh writeOnlySlave
  have href : refusesReading writeOnlySlave firstSlot.eepromAddr 0 [] = true := by decide
  refine ⟨hidle, href, ?_, fun hmeant => ?_⟩
  · have hfit : 0 + 1 ≤ specI2cEepromSize := by decide
    have hrun := specEepromRead_at writeOnlySlave firstSlot Bus.fresh rfl hidle le_rfl hfit
    have hfirst : refusesAddress writeOnlySlave firstSlot.eepromAddr false Bus.fresh.heard = false := by decide
    simp only [hfirst] at hrun
    exact hrun.2.1
  · have hcond := (readMeant_iff writeOnlySlave firstSlot Bus.fresh rfl hidle le_rfl (by decide)).mp hmeant
    exact absurd (href.symm.trans hcond) (by decide)

/-- A chip that acknowledges everything and holds zeros. -/
def zeroSlave : Slave := ⟨fun _ => false⟩

/-- Across the end of the first 256 bytes. -/
theorem transfers_meant_zeros : ReadMeant zeroSlave firstSlot Bus.fresh 0xFE 4 ∧
    ∀ data : List UInt8, data.length = 4 → ∀ polls,
      WriteMeant zeroSlave firstSlot Bus.fresh 0xFE data polls :=
  (transfers_meant_iff zeroSlave firstSlot Bus.fresh 0xFE 4 (Bus.idle_fresh zeroSlave) (by decide)
    (by decide)).mpr (.inr (by decide))

end WhiteRabbit.Spec
