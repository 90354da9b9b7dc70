import WhiteRabbit.TwoWireBus
import Mathlib.Algebra.Ring.Int.Defs
import Mathlib.Data.Int.Init
import Mathlib.Tactic.NormNum

/-!
# The EEPROM driver on the pins

The driver of the card's EEPROM moves the two pins of its bus by hand. Each of the five helpers
leaves SCL low with SDA free, or both lines high, and that is what the next one starts from; the
waveform of a whole transfer is compared, symbol by symbol, with the dialogue it was meant to be.
-/

namespace WhiteRabbit.Spec
open TwoWireBus

def eio : ℤ := 5
def einval : ℤ := 22

def specI2cEepromSize : ℕ := 8 * 1024

/-- The card as the driver of its bus uses it. -/
structure FmcDevice where
  eepromAddr : ℕ
  fakeEeprom : Bool
  eeprom : List UInt8

def mi2cStart (s : Slave) (b : Bus) : Bus := (b.setSda s false).setScl s false

def mi2cStop (s : Slave) (b : Bus) : Bus := ((b.setSda s false).setScl s true).setSda s true

/-- The eight turns of the loop in `mi2cPutByte`. -/
def putBits (s : Slave) : ℕ → Bus → ℕ → Bus
  | 0, b, _ => b
  | n+1, b, data =>
    putBits s n (((b.setSda s (data &&& 0x80 != 0)).setScl s true).setScl s false) (data <<< 1)

def mi2cPutByte (s : Slave) (b : Bus) (data : ℕ) : Bus × ℤ :=
  let b := ((putBits s 8 b data).setSda s true).setScl s true
  let ack := b.sda
  ((b.setScl s false).setSda s false, if ack then -eio else 0)

/-- The eight turns of the loop in `mi2cGetByte`. -/
def getBits (s : Slave) : ℕ → Bus → ℕ → Bus × ℕ
  | 0, b, indata => (b, indata)
  | n+1, b, indata =>
    let b := b.setScl s true
    let indata := indata <<< 1
    getBits s n (b.setScl s false) (if b.sda then indata ||| 1 else indata)

def mi2cGetByte (s : Slave) (b : Bus) (ack : Bool) : Bus × UInt8 :=
  let (b, indata) := getBits s 8 ((b.setScl s false).setSda s true) 0
  ((((b.setSda s !ack).setScl s true).setScl s false).setSda s false, UInt8.ofNat indata)

/-- `while (size--)`: every byte but the last is acknowledged. -/
def readLoop (s : Slave) : ℕ → Bus → Bus × List UInt8
  | 0, b => (b, [])
  | size+1, b =>
    let (b, c) := mi2cGetByte s b (size != 0)
    let (b, cs) := readLoop s size b
    (b, c :: cs)

/-- A `size_t` put in an `int`. -/
def asInt (n : ℕ) : ℤ := Int.bmod n (2 ^ 32)

/-- What a read leaves: the bus, what it returns and the bytes it stores. -/
structure EepromRead where
  bus : Bus
  ret : ℤ
  stored : List UInt8

def tooFar (offset size : ℕ) : Bool :=
  offset > specI2cEepromSize || (offset + size) % 2 ^ 64 > specI2cEepromSize

def specEepromRead (s : Slave) (fmc : FmcDevice) (b : Bus) (offset size : ℕ) : EepromRead :=
  if fmc.fakeEeprom then ⟨b, asInt size, []⟩
  else if tooFar offset size then ⟨b, -einval, []⟩
  else
    let (b, refused) := mi2cPutByte s (mi2cStart s b) (fmc.eepromAddr <<< 1)
    if refused < 0 then ⟨mi2cStop s b, -eio, []⟩
    else
      let (b, _) := mi2cPutByte s b ((offset >>> 8) &&& 0xff)
      let (b, _) := mi2cPutByte s b (offset &&& 0xff)
      let b := mi2cStart s (mi2cStop s b)
      -- nobody looks at what this one returns
      let (b, _) := mi2cPutByte s b ((fmc.eepromAddr <<< 1) ||| 1)
      let (b, stored) := readLoop s size b
      ⟨mi2cStop s b, asInt size, stored⟩

/-- `do … while (busy)`, for at most so many polls, and whether the chip became ready. -/
def waitReady (s : Slave) (fmc : FmcDevice) : ℕ → Bus → Bus × Bool
  | 0, b => (b, false)
  | polls+1, b =>
    let (b, busy) := mi2cPutByte s (mi2cStart s b) (fmc.eepromAddr <<< 1)
    let b := mi2cStop s b
    if busy != 0 then waitReady s fmc polls b else (b, true)

/-- What a write leaves: the bus, the cached image, and what it returns if it is not still polling. -/
structure EepromWrite where
  bus : Bus
  eeprom : List UInt8
  ret : Option ℤ

/-- The loop over the bytes, from one of them on. -/
def writeLoop (s : Slave) (fmc : FmcDevice) (polls size : ℕ) :
    ℕ → List UInt8 → Bus → List UInt8 → EepromWrite
  | _, [], b, eeprom => ⟨b, eeprom, some (asInt size)⟩
  | offset, c :: data, b, eeprom =>
    if fmc.fakeEeprom then writeLoop s fmc polls size (offset+1) data b (eeprom.set offset c)
    else
      let (b, refused) := mi2cPutByte s (mi2cStart s b) (fmc.eepromAddr <<< 1)
      if refused < 0 then ⟨mi2cStop s b, eeprom, some (-1)⟩
      else
        let (b, _) := mi2cPutByte s b ((offset >>> 8) &&& 0xff)
        let (b, _) := mi2cPutByte s b (offset &&& 0xff)
        let (b, _) := mi2cPutByte s b c.toNat
        let (b, ready) := waitReady s fmc polls (mi2cStop s b)
        if ready then writeLoop s fmc polls size (offset+1) data b (eeprom.set offset c)
        else ⟨b, eeprom, none⟩

def specEepromWrite (s : Slave) (fmc : FmcDevice) (b : Bus) (offset : ℕ) (data : List UInt8)
    (polls : ℕ) : EepromWrite :=
  if tooFar offset data.length then ⟨b, fmc.eeprom, some (-einval)⟩
  else writeLoop s fmc polls data.length offset data b fmc.eeprom

section Helpers
variable {s : Slave} {b : Bus} {x q : Bool} {h : List Symbol}

theorem mi2cStart_at (hb : b.At s ⟨true, true⟩ q h) (hf : frame h = none) :
    (mi2cStart s b).At s ⟨false, false⟩ false (h ++ [.start]) :=
  (hb.start hf).scl_fall_start

/-- SCL is low when a frame is stopped, so that the fall of SDA says nothing. -/
theorem mi2cStop_at (hb : b.At s ⟨x, false⟩ false h) (hd : s.drive h = true) :
    (mi2cStop s b).At s ⟨true, true⟩ false (h ++ [.stop]) :=
  (hb.sda_low false).scl_rise.stop hd

private theorem shifted_bit {n : ℕ} (hn : n + 1 ≤ 8) (v : ℕ) :
    (v <<< (8 - (n+1)) &&& 0x80 != 0) = v.testBit n := by
  have hpow : (0x80 : ℕ) = 2 ^ 7 := rfl
  have hbit : (v <<< (8 - (n+1))).testBit 7 = v.testBit n := by
    have hle : 8 - (n+1) ≤ 7 := by omega
    have hsub : 7 - (8 - (n+1)) = n := by omega
    rw [Nat.testBit_shiftLeft, hsub, decide_eq_true hle, Bool.true_and]
  rw [hpow, Nat.and_two_pow, hbit]
  cases v.testBit n <;> rfl

/-- The loop sends the low bits of a byte that has been shifted up to it. -/
theorem putBits_at {n : ℕ} (hn : n ≤ 8) (v : ℕ) (hb : b.At s ⟨x, false⟩ false h)
    (hfree : ∀ more, more.length < n → s.drive (h ++ said more) = true) :
    ∃ y, (putBits s n b (v <<< (8 - n))).At s ⟨y, false⟩ false (h ++ said (msbFirst n v)) := by
  induction n generalizing b x h with
  | zero => exact ⟨x, by simpa [putBits, msbFirst, said] using hb⟩
  | succ n ih =>
    have hbit : s.drive h = true := by simpa [said] using hfree [] (by simp)
    have hp := hb.pulse (v.testBit n)
    rw [hbit, Bool.and_true] at hp
    have hshift : v <<< (8 - (n+1)) <<< 1 = v <<< (8 - n) := by
      rw [← Nat.shiftLeft_add]
      congr 1
      omega
    rw [putBits, shifted_bit hn, hshift]
    obtain ⟨y, hy⟩ := ih (by omega) hp fun more hm => by
      simpa [said] using hfree (v.testBit n :: more) (by simpa using hm)
    exact ⟨y, by simpa [msbFirst, said] using hy⟩

/-- A byte is heard as its eight bits and the slave's answer, which is also what is returned. -/
theorem mi2cPutByte_at (v : ℕ) (hb : b.At s ⟨x, false⟩ false h)
    (hfree : ∀ more, more.length < 8 → s.drive (h ++ said more) = true) :
    (mi2cPutByte s b v).1.At s ⟨false, false⟩ false (s.sent h (msbFirst 8 v)) ∧
      (mi2cPutByte s b v).2 = if s.refuses h (msbFirst 8 v) then -eio else 0 := by
  obtain ⟨y, hy⟩ := putBits_at (n := 8) (by omega) v hb hfree
  rw [Nat.sub_self, Nat.shiftLeft_zero] at hy
  have hr := (hy.sda_low true).scl_rise
  have hack : (((putBits s 8 b v).setSda s true).setScl s true).sda = s.refuses h (msbFirst 8 v) := by
    rw [hr.sda_eq]
    rfl
  refine ⟨?_, by simp only [mi2cPutByte, hack]⟩
  have hf := hr.scl_fall.sda_low false
  rwa [Bool.true_and] at hf

theorem msbFirst_or (k v : ℕ) (x : Bool) :
    msbFirst (k+1) (if x then v <<< 1 ||| 1 else v <<< 1) = msbFirst k v ++ [x] := by
  have hdiv : (if x then v <<< 1 ||| 1 else v <<< 1) / 2 = v := by
    cases x
    · simp [Nat.shiftLeft_eq]
    · have := Nat.or_div_two_pow (a := v <<< 1) (b := 1) (n := 1)
      simp_all [Nat.shiftLeft_eq]
  have hlow : (if x then v <<< 1 ||| 1 else v <<< 1).testBit 0 = x := by
    cases x <;> simp
  rw [msbFirst_snoc, hdiv, hlow]

/-- The loop collects the bits the slave drives under the ones it has. -/
theorem getBits_at (n k indata : ℕ) (hb : b.At s ⟨true, false⟩ false h) :
    (getBits s n b indata).1.At s ⟨true, false⟩ false (h ++ said (s.bits n h)) ∧
      msbFirst (k+n) (getBits s n b indata).2 = msbFirst k indata ++ s.bits n h := by
  induction n generalizing b h k indata with
  | zero => exact ⟨by simpa [getBits, Slave.bits, said] using hb, by simp [getBits, Slave.bits]⟩
  | succ n ih =>
    have hr := hb.scl_rise
    have hd : (b.setScl s true).sda = s.drive h := by rw [hr.sda_eq, Bool.true_and]
    have hf := hr.scl_fall
    rw [Bool.true_and] at hf
    simp only [getBits, hd]
    obtain ⟨hat, hval⟩ := ih (k+1) (if s.drive h then indata <<< 1 ||| 1 else indata <<< 1) hf
    rw [msbFirst_or] at hval
    refine ⟨by simpa [Slave.bits, said] using hat, ?_⟩
    rw [show k + (n+1) = k+1+n by omega, hval]
    simp [Slave.bits]

end Helpers

section Bytes
variable {s : Slave} {b : Bus} {x q : Bool} {h : List Symbol} {bits : List Bool}

/-- The eight bits of a byte of memory, as they go over the bus. -/
def byteBits (c : UInt8) : List Bool := msbFirst 8 c.toNat

theorem mi2cGetByte_at (ack : Bool) (hb : b.At s ⟨x, false⟩ false h) (ha : Asks h bits) :
    (mi2cGetByte s b ack).1.At s ⟨false, false⟩ false (s.received h ack) ∧
      byteBits (mi2cGetByte s b ack).2 = s.bits 8 h := by
  obtain ⟨hat, hval⟩ := getBits_at 8 0 0 (hb.scl_low.sda_low true)
  have hd : s.drive (h ++ said (s.bits 8 h)) = true := ha.drive (s.bits_length 8 h)
  have hp := (hat.pulse !ack).sda_low false
  rw [hd, Bool.and_true] at hp
  refine ⟨hp, ?_⟩
  rw [msbFirst, List.nil_append, Nat.zero_add] at hval
  rw [← hval, byteBits, mi2cGetByte, UInt8.toNat_ofNat', msbFirst_mod 8 _ (by omega)]

end Bytes

end WhiteRabbit.Spec
