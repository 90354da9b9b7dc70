import WhiteRabbit.BitFields
import WhiteRabbit.DioTimestamps

/-!
# Modes of the I/O channels

Each channel has four bits of the IOMODE register: two select where the output comes from, one
disables the output driver and one enables the termination. A channel driven as GPIO has its level
in a GPIO block of its own. A user command sets or reads the modes of one channel or of a mask of
them, in a layout of its own.
-/

namespace WhiteRabbit.Dio

open BitFields

def wrDioFGet : ℕ := 0x20
def wrDioInoutDio : ℕ := 1 <<< 0
def wrDioInoutValue : ℕ := 1 <<< 8
def wrDioInoutOutput : ℕ := 1 <<< 16
def wrDioInoutTerm : ℕ := 1 <<< 24
def wrDioIomodeSrcMask : ℕ := 0x3
def wrDioIomodeOutputEnableN : ℕ := 1 <<< 2
def wrDioIomodeTermEnable : ℕ := 1 <<< 3
def wrDioIomodeSrcGpio : ℕ := 0
def wrDioIomodeSrcWrpc : ℕ := 2

def wrnGpioValue (bit : ℕ) : ℕ := 1 <<< (4 * bit)

/-- `WR_DIO_IOMODE_CH_DECODE`. -/
def wrDioIomodeChDecode (reg ch : ℕ) : ℕ := reg >>> (4 * ch) &&& 0xF

structure InoutCmd extends WrDioCmd where
  value : ℕ

/-- The registers of the channel modes. A bit of `gpio` reads back as it was last set or cleared. -/
structure ModeRegs where
  iomode : ℕ
  gpio : ℕ
  deriving DecidableEq

namespace ModeRegs

/-- What a GET adds to the value for one channel. -/
def getChannel (r : ModeRegs) (value ch : ℕ) : ℕ :=
  let iomode := wrDioIomodeChDecode r.iomode ch
  let src := iomode &&& wrDioIomodeSrcMask
  let value := if src ≠ wrDioIomodeSrcGpio then value ||| wrDioInoutDio <<< ch else value
  let value := if src = wrDioIomodeSrcWrpc then value ||| wrDioInoutValue <<< ch else value
  let value := if iomode &&& wrDioIomodeOutputEnableN = 0 then value ||| wrDioInoutOutput <<< ch else value
  let value := if iomode &&& wrDioIomodeTermEnable ≠ 0 then value ||| wrDioInoutTerm <<< ch else value
  if src = wrDioIomodeSrcGpio ∧ r.gpio &&& wrnGpioValue ch ≠ 0 then value ||| wrDioInoutValue <<< ch
  else value

/-- Set one channel as the bits say. -/
def setChannel (r : ModeRegs) (ch bits : ℕ) : ModeRegs :=
  let regVal := andNot r.iomode (0xF <<< (4 * ch))
  let iomode :=
    if bits &&& wrDioInoutDio ≠ 0 then
      -- WRPC connection, or DIO connection
      if bits &&& wrDioInoutValue ≠ 0 then 2 else 1
    else 0
  let gpio :=
    if bits &&& wrDioInoutDio ≠ 0 then r.gpio
    else if bits &&& wrDioInoutValue ≠ 0 then r.gpio ||| wrnGpioValue ch
    else andNot r.gpio (wrnGpioValue ch)
  let iomode := iomode ||| ((if bits &&& wrDioInoutTerm ≠ 0 then 1 else 0) <<< 3 |||
    (if bits &&& wrDioInoutOutput = 0 then 1 else 0) <<< 2)
  ⟨regVal ||| iomode <<< (4 * ch), gpio⟩

end ModeRegs

/-- The channels the loop of the command comes to. -/
def InoutCmd.chosen (cmd : InoutCmd) : List ℕ :=
  (DioDevice.WrDioCmd.channels cmd.toWrDioCmd).filter
    fun ch => 1 <<< ch &&& DioDevice.WrDioCmd.mask cmd.toWrDioCmd ≠ 0

/-- With a mask the value carries channel bitmaps. A single channel takes it as it is. -/
def InoutCmd.bits (cmd : InoutCmd) (ch : ℕ) : ℕ :=
  if cmd.flags &&& wrDioFMask ≠ 0 then cmd.value >>> ch else cmd.value

/-- `wrn_dio_cmd_inout`. -/
def wrnDioCmdInout (r : ModeRegs) (cmd : InoutCmd) : ModeRegs × InoutCmd :=
  if cmd.flags &&& wrDioFGet ≠ 0 then (r, { cmd with value := cmd.chosen.foldl r.getChannel 0 })
  else (cmd.chosen.foldl (fun r ch => r.setChannel ch (cmd.bits ch)) r, cmd)

/-- What a channel is: driven by the DIO core or by the White Rabbit core, or a GPIO with its level, and
with or without an output driver and a termination. -/
structure ChannelMode where
  dio : Bool
  value : Bool
  output : Bool
  term : Bool
  deriving DecidableEq

namespace ChannelMode

/-- An input without termination, whose level is low. -/
def idle : ChannelMode := ⟨false, false, false, false⟩

def or (m n : ChannelMode) : ChannelMode :=
  ⟨m.dio || n.dio, m.value || n.value, m.output || n.output, m.term || n.term⟩

/-- The bits of a command for one channel. -/
def ofBits (bits : ℕ) : ChannelMode :=
  ⟨bits.testBit 0, bits.testBit 8, bits.testBit 16, bits.testBit 24⟩

/-- The mode of a channel as the user sees it. -/
def layout (m : ChannelMode) (ch : ℕ) : ℕ :=
  m.dio.toNat <<< ch ||| m.value.toNat <<< (8 + ch) ||| m.output.toNat <<< (16 + ch) |||
    m.term.toNat <<< (24 + ch)

def source (m : ChannelMode) : ℕ := if m.dio then if m.value then 2 else 1 else 0

/-- The bits of the IOMODE register. -/
def nibble (m : ChannelMode) : ℕ := m.source ||| (m.term.toNat <<< 3 ||| (!m.output).toNat <<< 2)

/-- The mode that a nibble and the level of the GPIO stand for. -/
def decode (nibble : ℕ) (level : Bool) : ChannelMode where
  dio := nibble &&& 3 ≠ 0
  value := if nibble &&& 3 = 0 then level else nibble &&& 3 = 2
  output := !nibble.testBit 2
  term := nibble.testBit 3

variable {m : ChannelMode}

theorem nibble_lt (m : ChannelMode) : m.nibble < 2 ^ 4 := by
  rcases m with ⟨_ | _, _ | _, _ | _, _ | _⟩ <;> decide

theorem decode_nibble (m : ChannelMode) (level : Bool) (h : m.dio = false → level = m.value) :
    decode m.nibble level = m := by
  rcases m with ⟨_ | _, _ | _, _ | _, _ | _⟩ <;> cases level <;> first | rfl | simp at h

/-- A nibble with a legal source is the one of its mode. -/
theorem nibble_decode {n : ℕ} (hn : n < 2 ^ 4) (hlegal : n &&& 3 ≠ 3) (level : Bool) :
    (decode n level).nibble = n := by
  have : ∀ n : Fin 16, n.val &&& 3 ≠ 3 → ∀ level, (decode n.val level).nibble = n.val := by decide
  exact this ⟨n, hn⟩ hlegal level

theorem testBit_layout (m : ChannelMode) (ch i : ℕ) : (m.layout ch).testBit i =
    (m.dio && decide (i = ch) || m.value && decide (i = 8 + ch) || m.output && decide (i = 16 + ch) ||
      m.term && decide (i = 24 + ch)) := by
  simp only [layout, Nat.testBit_or, testBit_toNat_shiftLeft]

/-- Of the bits of a word, those that the layout of a channel has. -/
theorem layout_ofBits (v ch : ℕ) :
    (ofBits (v >>> ch)).layout ch = v &&& (⟨true, true, true, true⟩ : ChannelMode).layout ch := by
  refine Nat.eq_of_testBit_eq fun i => ?_
  rw [Nat.testBit_and, testBit_layout, testBit_layout]
  simp only [ofBits, Nat.testBit_shiftRight, Bool.true_and]
  by_cases h0 : i = ch
  · simp [h0]
  · by_cases h8 : i = 8 + ch
    · simp [h8, Nat.add_comm]
    · by_cases h16 : i = 16 + ch
      · simp [h16, Nat.add_comm]
      · by_cases h24 : i = 24 + ch
        · simp [h24, Nat.add_comm]
        · simp [h0, h8, h16, h24]

/-- The bits of one channel in the layout of another, or of the channel itself. -/
theorem ofBits_layout (m : ChannelMode) {ch j : ℕ} (hch : ch < 8) (hj : j < 8) :
    ofBits (m.layout ch >>> j) = if ch = j then m else idle := by
  simp only [ofBits, Nat.testBit_shiftRight, testBit_layout]
  split_ifs with h
  · subst h
    simp [Nat.add_comm]
  · -- the two positions differ by what the channels do, up to a multiple of eight
    simp (disch := omega) only [decide_eq_false, Bool.and_false, Bool.or_false, idle]

/-- The modes of some channels side by side. -/
def layouts (f : ℕ → ChannelMode) (chs : List ℕ) : ℕ := chs.foldr (fun ch v => (f ch).layout ch ||| v) 0

theorem layouts_congr {f g : ℕ → ChannelMode} {chs : List ℕ} (h : ∀ ch ∈ chs, f ch = g ch) :
    layouts f chs = layouts g chs := by
  induction chs with
  | nil => rfl
  | cons ch chs ih =>
    rw [layouts, List.foldr_cons, ← layouts, h ch List.mem_cons_self,
      ih fun other hother => h other (List.mem_cons_of_mem ch hother)]
    rfl

@[simp] theorem layouts_singleton (f : ℕ → ChannelMode) (ch : ℕ) : layouts f [ch] = (f ch).layout ch := by
  simp [layouts]

theorem layout_injective {m n : ChannelMode} {ch : ℕ} (hch : ch < 8) (h : m.layout ch = n.layout ch) : m = n := by
  have hm := ofBits_layout m hch hch
  rw [h, ofBits_layout n hch hch, if_pos rfl, if_pos rfl] at hm
  exact hm.symm

theorem ofBits_layouts (f : ℕ → ChannelMode) {chs : List ℕ} (hchs : ∀ ch ∈ chs, ch < 8) {j : ℕ} (hj : j < 8) :
    ofBits (layouts f chs >>> j) = if j ∈ chs then f j else idle := by
  induction chs with
  | nil => simp [layouts, ofBits, idle]
  | cons ch chs ih =>
    have hor : ofBits (layouts f (ch :: chs) >>> j) =
        (ofBits ((f ch).layout ch >>> j)).or (ofBits (layouts f chs >>> j)) := by
      simp [layouts, ofBits, or]
    rw [hor, ofBits_layout (f ch) (hchs ch List.mem_cons_self) hj,
      ih fun other hother => hchs other (List.mem_cons_of_mem ch hother)]
    by_cases hch : ch = j
    · subst hch
      by_cases hmem : ch ∈ chs <;> simp [hmem, or, idle]
    · by_cases hmem : j ∈ chs <;> simp [hmem, hch, Ne.symm hch, or, idle]

theorem layouts_ofBits (v : ℕ) (chs : List ℕ) :
    layouts (fun ch => ofBits (v >>> ch)) chs = v &&& layouts (fun _ => ⟨true, true, true, true⟩) chs := by
  induction chs with
  | nil => simp [layouts]
  | cons ch chs ih =>
    simp only [layouts, List.foldr_cons] at ih ⊢
    rw [ih, layout_ofBits, Nat.and_or_distrib_left]

end ChannelMode

namespace ModeRegs

variable {r : ModeRegs} {ch j : ℕ}

def mode (r : ModeRegs) (ch : ℕ) : ChannelMode :=
  .decode (field 4 r.iomode ch) (r.gpio.testBit (4 * ch))

/-- Give a channel a mode; the level of a GPIO is set only where the channel is driven as one. -/
def setMode (r : ModeRegs) (ch : ℕ) (m : ChannelMode) : ModeRegs where
  iomode := setField 4 r.iomode ch m.nibble
  gpio := if m.dio then r.gpio else setField 1 r.gpio (4 * ch) m.value.toNat

/-- The source field of a channel is GPIO, DIO or WRPC. -/
def LegalAt (r : ModeRegs) (ch : ℕ) : Prop := field 4 r.iomode ch &&& 3 ≠ 3

theorem setChannel_eq (r : ModeRegs) (ch bits : ℕ) : r.setChannel ch bits = r.setMode ch (.ofBits bits) := by
  have hfield : ∀ n, andNot r.iomode (0xF <<< (4 * ch)) ||| n <<< (4 * ch) = setField 4 r.iomode ch n :=
    fun n => rfl
  have hclear : ∀ x, andNot x (wrnGpioValue ch) = setField 1 x (4 * ch) false.toNat := by
    simp [setField, wrnGpioValue]
  have hset : ∀ x, x ||| wrnGpioValue ch = setField 1 x (4 * ch) true.toNat := by
    intro x
    refine Nat.eq_of_testBit_eq fun i => ?_
    simp only [setField, wrnGpioValue, Nat.testBit_or, testBit_andNot, one_mul, Bool.toNat_true]
    cases (1 <<< (4 * ch)).testBit i <;> simp
  have hdio := and_bit_eq_zero bits 0
  have hvalue := and_bit_eq_zero bits 8
  have houtput := and_bit_eq_zero bits 16
  have hterm := and_bit_eq_zero bits 24
  rw [← wrDioInoutDio] at hdio
  rw [← wrDioInoutValue] at hvalue
  rw [← wrDioInoutOutput] at houtput
  rw [← wrDioInoutTerm] at hterm
  simp only [setChannel, setMode, ChannelMode.nibble, ChannelMode.source, ChannelMode.ofBits, ne_eq, hdio, hvalue,
    houtput, hterm, hclear, hset, hfield]
  by_cases h0 : bits.testBit 0 = true <;> by_cases h8 : bits.testBit 8 = true <;>
    by_cases h16 : bits.testBit 16 = true <;> by_cases h24 : bits.testBit 24 = true <;>
    simp [h0, h8, h16, h24]

theorem getChannel_eq (r : ModeRegs) (value ch : ℕ) :
    r.getChannel value ch = value ||| (r.mode ch).layout ch := by
  have hdio : wrDioInoutDio <<< ch = 1 <<< ch := rfl
  have hvalue : wrDioInoutValue <<< ch = 1 <<< (8 + ch) := (Nat.shiftLeft_add 1 8 ch).symm
  have houtput : wrDioInoutOutput <<< ch = 1 <<< (16 + ch) := (Nat.shiftLeft_add 1 16 ch).symm
  have hterm : wrDioInoutTerm <<< ch = 1 <<< (24 + ch) := (Nat.shiftLeft_add 1 24 ch).symm
  have hdecode : wrDioIomodeChDecode r.iomode ch = field 4 r.iomode ch := rfl
  simp only [getChannel, mode, ChannelMode.decode, ChannelMode.layout, hdio, hvalue, houtput, hterm, hdecode,
    wrDioIomodeSrcMask, wrDioIomodeSrcGpio, wrDioIomodeSrcWrpc]
  generalize field 4 r.iomode ch = n
  have henable := and_bit_eq_zero n 2
  have htermBit := and_bit_eq_zero n 3
  have hlevel := and_bit_eq_zero r.gpio (4 * ch)
  rw [← wrDioIomodeOutputEnableN] at henable
  rw [← wrDioIomodeTermEnable] at htermBit
  rw [← wrnGpioValue] at hlevel
  simp only [ne_eq, henable, htermBit, hlevel]
  by_cases h2 : n.testBit 2 = true <;> by_cases h3 : n.testBit 3 = true <;>
    by_cases hhigh : r.gpio.testBit (4 * ch) = true <;> by_cases hgpio : n &&& 3 = 0 <;> by_cases hwrpc : n &&& 3 = 2 <;>
    simp [h2, h3, hhigh, hgpio, hwrpc, Nat.or_assoc, Nat.or_comm, Nat.or_left_comm]

@[simp] theorem mode_setMode_self (r : ModeRegs) (ch : ℕ) (m : ChannelMode) : (r.setMode ch m).mode ch = m := by
  rw [mode, setMode, field_setField_self m.nibble_lt]
  refine ChannelMode.decode_nibble m _ fun hdio => ?_
  rw [hdio, if_neg Bool.false_ne_true, testBit_setField m.value.toNat_lt, if_pos (by omega), one_mul,
    Nat.sub_self]
  cases m.value <;> rfl

/-- Another channel keeps its nibble and its level. -/
theorem setMode_of_ne (h : j ≠ ch) (m : ChannelMode) :
    field 4 (r.setMode ch m).iomode j = field 4 r.iomode j ∧
      (r.setMode ch m).gpio.testBit (4 * j) = r.gpio.testBit (4 * j) := by
  refine ⟨field_setField_of_ne m.nibble_lt h, ?_⟩
  rw [setMode]
  split
  · rfl
  · rw [testBit_setField m.value.toNat_lt, if_neg (by omega)]

theorem setMode_mode (h : r.LegalAt ch) : r.setMode ch (r.mode ch) = r := by
  have hiomode : setField 4 r.iomode ch (r.mode ch).nibble = r.iomode := by
    rw [mode, ChannelMode.nibble_decode (field_lt 4 r.iomode ch) h, setField_field]
  have hgpio : (r.mode ch).dio = false → setField 1 r.gpio (4 * ch) (r.mode ch).value.toNat = r.gpio := by
    intro hdio
    have hsource : field 4 r.iomode ch &&& 3 = 0 := by simpa [mode, ChannelMode.decode] using hdio
    have hvalue : (r.mode ch).value.toNat = field 1 r.gpio (4 * ch) := by
      refine Nat.eq_of_testBit_eq fun i => ?_
      rw [testBit_field, mode, ChannelMode.decode, if_pos hsource, one_mul]
      cases i with
      | zero => cases r.gpio.testBit (4 * ch) <;> simp
      | succ i => cases r.gpio.testBit (4 * ch) <;> simp [Nat.testBit_succ]
    rw [hvalue, setField_field]
  rw [setMode, hiomode]
  cases hdio : (r.mode ch).dio with
  | true => rw [if_pos rfl]
  | false => rw [if_neg Bool.false_ne_true, hgpio hdio]

theorem mode_setMode_of_ne (h : j ≠ ch) (m : ChannelMode) : (r.setMode ch m).mode j = r.mode j := by
  obtain ⟨hiomode, hgpio⟩ := setMode_of_ne (r := r) h m
  rw [mode, mode, hiomode, hgpio]

/-- Set some channels. -/
def setModes (r : ModeRegs) (f : ℕ → ChannelMode) (chs : List ℕ) : ModeRegs :=
  chs.foldl (fun r ch => r.setMode ch (f ch)) r

theorem mode_setModes (r : ModeRegs) (f : ℕ → ChannelMode) (chs : List ℕ) (j : ℕ) :
    (r.setModes f chs).mode j = if j ∈ chs then f j else r.mode j := by
  induction chs generalizing r with
  | nil => rfl
  | cons ch chs ih =>
    rw [setModes, List.foldl_cons, ← setModes, ih]
    by_cases hj : j = ch
    · subst hj
      simp
    · simp [hj, mode_setMode_of_ne hj]

theorem setModes_others (r : ModeRegs) (f : ℕ → ChannelMode) {chs : List ℕ} (hj : j ∉ chs) :
    field 4 (r.setModes f chs).iomode j = field 4 r.iomode j ∧
      (r.setModes f chs).gpio.testBit (4 * j) = r.gpio.testBit (4 * j) := by
  induction chs generalizing r with
  | nil => exact ⟨rfl, rfl⟩
  | cons ch chs ih =>
    obtain ⟨hne, hrest⟩ := not_or.mp (mt List.mem_cons.mpr hj)
    rw [setModes, List.foldl_cons, ← setModes, (ih (r.setMode ch (f ch)) hrest).1,
      (ih (r.setMode ch (f ch)) hrest).2]
    exact setMode_of_ne hne (f ch)

theorem setModes_above (r : ModeRegs) (f : ℕ → ChannelMode) {chs : List ℕ} (hchs : ∀ ch ∈ chs, ch < 5) :
    (r.setModes f chs).iomode >>> 20 = r.iomode >>> 20 := by
  induction chs generalizing r with
  | nil => rfl
  | cons ch chs ih =>
    have hch := hchs ch List.mem_cons_self
    rw [setModes, List.foldl_cons, ← setModes, ih _ fun other hother => hchs other (List.mem_cons_of_mem ch hother)]
    exact setField_above (f ch).nibble_lt (by omega)

/-- Setting channels to what they are changes nothing. -/
theorem setModes_self {f : ℕ → ChannelMode} {chs : List ℕ} (hlegal : ∀ ch ∈ chs, r.LegalAt ch)
    (hf : ∀ ch ∈ chs, f ch = r.mode ch) : r.setModes f chs = r := by
  induction chs with
  | nil => rfl
  | cons ch chs ih =>
    rw [setModes, List.foldl_cons, ← setModes, hf ch List.mem_cons_self, setMode_mode (hlegal ch List.mem_cons_self)]
    exact ih (fun other hother => hlegal other (List.mem_cons_of_mem ch hother))
      fun other hother => hf other (List.mem_cons_of_mem ch hother)

theorem getChannels_eq (r : ModeRegs) (value : ℕ) (chs : List ℕ) :
    chs.foldl r.getChannel value = value ||| ChannelMode.layouts r.mode chs := by
  induction chs generalizing value with
  | nil => simp [ChannelMode.layouts]
  | cons ch chs ih =>
    rw [List.foldl_cons, ih, getChannel_eq, Nat.or_assoc]
    rfl

end ModeRegs

namespace InoutCmd

open ChannelMode

variable {cmd : InoutCmd} {r : ModeRegs}

/-- A mask, or one of the channels of the device. -/
def Valid (cmd : InoutCmd) : Prop := cmd.flags &&& wrDioFMask ≠ 0 ∨ cmd.channel < 5

/-- The bits of the value that belong to the channels of the command. -/
def addressed (cmd : InoutCmd) : ℕ := layouts (fun _ => ⟨true, true, true, true⟩) cmd.chosen

/-- The GET of the same channels with the same addressing. -/
def get (cmd : InoutCmd) : InoutCmd := { cmd with flags := cmd.flags ||| wrDioFGet }

theorem chosen_single (h : cmd.flags &&& wrDioFMask = 0) : cmd.chosen = [cmd.channel] := by
  simp [chosen, DioDevice.WrDioCmd.channels, DioDevice.WrDioCmd.mask, h]

theorem chosen_lt (h : cmd.Valid) : ∀ ch ∈ cmd.chosen, ch < 5 := by
  intro ch hch
  by_cases hmask : cmd.flags &&& wrDioFMask = 0
  · rw [chosen_single hmask, List.mem_singleton] at hch
    exact hch ▸ h.resolve_left (not_not_intro hmask)
  · have hmem := (List.mem_filter.mp hch).1
    rw [DioDevice.WrDioCmd.channels, if_pos hmask] at hmem
    simp only [List.mem_cons, List.not_mem_nil, or_false] at hmem
    omega

theorem set_eq (hset : cmd.flags &&& wrDioFGet = 0) (r : ModeRegs) :
    (wrnDioCmdInout r cmd).1 = r.setModes (fun ch => ofBits (cmd.bits ch)) cmd.chosen := by
  simp only [wrnDioCmdInout, ne_eq, hset, not_true_eq_false, if_false, ModeRegs.setChannel_eq, ModeRegs.setModes]

theorem get_eq (cmd : InoutCmd) (r : ModeRegs) :
    (wrnDioCmdInout r cmd.get).2.value = layouts r.mode cmd.chosen := by
  have hflag : cmd.get.flags &&& wrDioFGet ≠ 0 := by
    simp [get, wrDioFGet, Nat.and_or_distrib_right]
  have hchosen : cmd.get.chosen = cmd.chosen := by
    have hmask : cmd.get.flags &&& wrDioFMask = cmd.flags &&& wrDioFMask := by
      simp [get, wrDioFGet, wrDioFMask, Nat.and_or_distrib_right]
    have hchannel : cmd.get.channel = cmd.channel := rfl
    simp only [chosen, DioDevice.WrDioCmd.channels, DioDevice.WrDioCmd.mask, hmask, hchannel]
    rfl
  rw [wrnDioCmdInout, if_pos hflag, hchosen, ModeRegs.getChannels_eq, Nat.zero_or]

/-- With one addressing mode the value that comes back is the one that was set, a value that was read
can be set, and the other channels and the upper bits stay as they are. -/
structure RoundTrip (r : ModeRegs) (cmd : InoutCmd) : Prop where
  setGet : (wrnDioCmdInout (wrnDioCmdInout r cmd).1 cmd.get).2.value = cmd.value &&& cmd.addressed
  getSet : (wrnDioCmdInout r { cmd with value := (wrnDioCmdInout r cmd.get).2.value }).1 = r
  others : ∀ j, j ∉ cmd.chosen →
    wrDioIomodeChDecode (wrnDioCmdInout r cmd).1.iomode j = wrDioIomodeChDecode r.iomode j ∧
      (wrnDioCmdInout r cmd).1.gpio.testBit (4 * j) = r.gpio.testBit (4 * j)
  above : (wrnDioCmdInout r cmd).1.iomode >>> 20 = r.iomode >>> 20

/-- What a set leaves alone, in either addressing mode. -/
theorem set_frame (hset : cmd.flags &&& wrDioFGet = 0) (hvalid : cmd.Valid) (r : ModeRegs) :
    (∀ j, j ∉ cmd.chosen →
      wrDioIomodeChDecode (wrnDioCmdInout r cmd).1.iomode j = wrDioIomodeChDecode r.iomode j ∧
        (wrnDioCmdInout r cmd).1.gpio.testBit (4 * j) = r.gpio.testBit (4 * j)) ∧
      (wrnDioCmdInout r cmd).1.iomode >>> 20 = r.iomode >>> 20 := by
  rw [set_eq hset]
  exact ⟨fun j hj => r.setModes_others _ hj, r.setModes_above _ (chosen_lt hvalid)⟩

/-- What a GET returns after a set. -/
theorem setGet_eq (hset : cmd.flags &&& wrDioFGet = 0) (r : ModeRegs) :
    (wrnDioCmdInout (wrnDioCmdInout r cmd).1 cmd.get).2.value =
      layouts (fun ch => ofBits (cmd.bits ch)) cmd.chosen := by
  rw [get_eq, set_eq hset]
  refine layouts_congr fun ch hch => ?_
  rw [ModeRegs.mode_setModes, if_pos hch]

/-- What a set makes of the value of a GET. -/
theorem getSet_eq (hset : cmd.flags &&& wrDioFGet = 0) (r : ModeRegs) :
    (wrnDioCmdInout r { cmd with value := (wrnDioCmdInout r cmd.get).2.value }).1 =
      r.setModes (fun ch => ofBits (bits { cmd with value := layouts r.mode cmd.chosen } ch)) cmd.chosen := by
  rw [get_eq]
  exact @set_eq { cmd with value := layouts r.mode cmd.chosen } hset r

theorem roundTrip_mask (hset : cmd.flags &&& wrDioFGet = 0) (hmask : cmd.flags &&& wrDioFMask ≠ 0)
    (hlegal : ∀ ch < 5, r.LegalAt ch) : RoundTrip r cmd := by
  have hvalid : cmd.Valid := .inl hmask
  obtain ⟨hothers, habove⟩ := set_frame hset hvalid r
  refine ⟨?_, ?_, hothers, habove⟩
  · rw [setGet_eq hset, addressed, ← layouts_ofBits]
    refine layouts_congr fun ch _ => ?_
    rw [bits, if_pos hmask]
  · rw [getSet_eq hset]
    refine ModeRegs.setModes_self (fun ch hch => hlegal ch (chosen_lt hvalid ch hch)) fun ch hch => ?_
    have hlt := chosen_lt hvalid
    rw [bits, if_pos hmask, ofBits_layouts r.mode (fun c hc => (hlt c hc).trans (by decide))
      ((hlt ch hch).trans (by decide)), if_pos hch]

/-- A single channel takes the lowest bits of the value, and a GET gives the ones of the channel. -/
theorem roundTrip_single (hset : cmd.flags &&& wrDioFGet = 0) (hmask : cmd.flags &&& wrDioFMask = 0)
    (hch : cmd.channel < 5) (hlegal : ∀ ch < 5, r.LegalAt ch) : RoundTrip r cmd ↔
    ofBits cmd.value = ofBits (cmd.value >>> cmd.channel) ∧
      ofBits ((r.mode cmd.channel).layout cmd.channel) = r.mode cmd.channel := by
  have hchosen := chosen_single hmask
  have hbits : ∀ value ch, bits { cmd with value := value } ch = value := fun value ch => by
    rw [bits, if_neg (not_not_intro hmask)]
  have hget : (wrnDioCmdInout (wrnDioCmdInout r cmd).1 cmd.get).2.value = (ofBits cmd.value).layout cmd.channel := by
    rw [setGet_eq hset, hchosen, layouts_singleton, hbits cmd.value]
  have haddressed : cmd.value &&& cmd.addressed = (ofBits (cmd.value >>> cmd.channel)).layout cmd.channel := by
    rw [addressed, hchosen, layouts_singleton, layout_ofBits]
  have hback : (wrnDioCmdInout r { cmd with value := (wrnDioCmdInout r cmd.get).2.value }).1 =
      r.setModes (fun _ => ofBits ((r.mode cmd.channel).layout cmd.channel)) [cmd.channel] := by
    rw [getSet_eq hset, hchosen, layouts_singleton]
    simp only [hbits]
  obtain ⟨hothers, habove⟩ := set_frame hset (.inr hch) r
  constructor
  · intro h
    refine ⟨layout_injective (hch.trans (by decide)) ?_, ?_⟩
    · rw [← hget, h.setGet, haddressed]
    · have hmode := congrArg (fun r => r.mode cmd.channel) (hback.symm.trans h.getSet)
      simpa only [ModeRegs.mode_setModes, List.mem_singleton, if_true] using hmode
  · rintro ⟨hvalue, hidle⟩
    refine ⟨?_, ?_, hothers, habove⟩
    · rw [hget, hvalue, haddressed]
    · rw [hback]
      refine ModeRegs.setModes_self (fun ch hmem => ?_) fun ch hmem => ?_
      · exact hlegal ch (List.mem_singleton.mp hmem ▸ hch)
      · rw [hidle, List.mem_singleton.mp hmem]

/-- A set and a GET agree exactly with a mask, for channel 0, or where the lowest bits of the value are
those of the channel and the channel is an idle input. -/
theorem modesRoundTrip_iff (hset : cmd.flags &&& wrDioFGet = 0) (hvalid : cmd.Valid)
    (hlegal : ∀ ch < 5, r.LegalAt ch) : RoundTrip r cmd ↔
    cmd.flags &&& wrDioFMask ≠ 0 ∨ cmd.channel = 0 ∨
      (ofBits cmd.value = ofBits (cmd.value >>> cmd.channel) ∧ r.mode cmd.channel = idle) := by
  by_cases hmask : cmd.flags &&& wrDioFMask = 0
  · have hch : cmd.channel < 5 := hvalid.resolve_left (not_not_intro hmask)
    have hlowest := ofBits_layout (r.mode cmd.channel) (hch.trans (by decide : 5 < 8)) (by decide : 0 < 8)
    rw [Nat.shiftRight_zero] at hlowest
    rw [roundTrip_single hset hmask hch hlegal, hlowest]
    by_cases hzero : cmd.channel = 0
    · simp [hzero]
    · simp [hmask, hzero, eq_comm (a := idle)]
  · exact iff_of_true (roundTrip_mask hset hmask hlegal) (.inl hmask)

/-- Channel 3 gets what it is, an idle input. -/
theorem roundTrip_idle : RoundTrip ⟨0x4000, 0⟩ ⟨⟨3, 0⟩, 0⟩ :=
  (modesRoundTrip_iff rfl (.inr (by decide)) (by unfold ModeRegs.LegalAt; decide)).mpr (.inr (.inr ⟨rfl, rfl⟩))

/-- Channel 1 becomes an output of the DIO core, and the GET returns the bits of channel 1 where the set
had taken those of channel 0. -/
theorem single_shifted : ¬ RoundTrip ⟨0, 0⟩ ⟨⟨1, 0⟩, 0x00010001⟩ ∧
    (wrnDioCmdInout (wrnDioCmdInout ⟨0, 0⟩ ⟨⟨1, 0⟩, 0x00010001⟩).1 ⟨⟨1, wrDioFGet⟩, 0⟩).2.value = 0x00020002 :=
  ⟨fun h => absurd h.setGet (by decide), by decide⟩

end InoutCmd

end WhiteRabbit.Dio
