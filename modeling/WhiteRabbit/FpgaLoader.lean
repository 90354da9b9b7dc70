import WhiteRabbit.StepRuns
import Mathlib.Data.List.Range
import Mathlib.Data.List.TakeDrop

/-!
# Loading the FPGA

`loader_low_level` resets the configuration logic of the bridge and writes an image to its FIFO, from which the FPGA
takes the words at its own pace. The loader does not know how full the FIFO is: it waits for a bit of the interrupt
register that is clear when half of it is empty, and then writes up to 32 words. `spec_load_fpga` waits for the FPGA to
be done.
-/

namespace WhiteRabbit.Spec
open StepRuns

section Words

def reverseBits8 (x : BitVec 8) : BitVec 8 :=
  let x := ((x >>> 1) &&& 0x55) ||| ((x &&& 0x55) <<< 1)
  let x := ((x >>> 2) &&& 0x33) ||| ((x &&& 0x33) <<< 2)
  ((x >>> 4) &&& 0x0f) ||| ((x &&& 0x0f) <<< 4)

/-- The word that is written for four bytes. -/
def unalignedBitswapLe32 (mem : ℕ → BitVec 8) (ptr8 : ℕ) : BitVec 32 :=
  reverseBits8 (mem (ptr8 + 3)) ++ reverseBits8 (mem (ptr8 + 2)) ++ reverseBits8 (mem (ptr8 + 1)) ++ reverseBits8 (mem ptr8)

def size32 (size8 : ℕ) : ℕ := (size8 + 3) >>> 2

/-- The words of an image. The last one holds what lies behind the image when this ends inside it. -/
def imageWords (mem : ℕ → BitVec 8) (size8 : ℕ) : List (BitVec 32) :=
  (List.range (size32 size8)).map fun k => unalignedBitswapLe32 mem (4 * k)

@[simp] theorem length_imageWords (mem : ℕ → BitVec 8) (size8 : ℕ) : (imageWords mem size8).length = size32 size8 := by
  rw [imageWords, List.length_map, List.length_range]

end Words

/-- The registers of the bridge that the loader uses. -/
def gngpioDirectionMode : ℕ := 0xA04
def gngpioOutputEnable : ℕ := 0xA08
def gngpioOutputValue : ℕ := 0xA0C
def fclCtrl : ℕ := 0xB00
def fclEn : ℕ := 0xB10
def fclTimer0 : ℕ := 0xB14
def fclTimer1 : ℕ := 0xB18
def fclClkDiv : ℕ := 0xB1C
def fclIrq : ℕ := 0xB20
def fclTimerCtrl : ℕ := 0xB24
def fclTimer20 : ℕ := 0xB2C
def fclTimer21 : ℕ := 0xB30

def gpioBootsel0 : ℕ := 15
def gpioBootsel1 : ℕ := 14

/-- How far `spec_load_fpga` is. In `burst` it has written some words of a few, in `programmed` it waits with what
`loader_low_level` returned. -/
inductive LoaderPc where
  | start
  | readback
  | check
  | wait
  | burst (i : ℕ)
  | programmed (wrote : ℤ)
  | finished (ret : ℤ)
deriving DecidableEq

/-- The loader and the bridge. `left` is `size32` in the source; `taken` is what the FPGA took from the FIFO. -/
structure Loader where
  regs : ℕ → BitVec 32
  fifo : List (BitVec 32) := []
  taken : List (BitVec 32) := []
  left : ℕ
  data32 : ℕ := 0
  wrote : ℕ := 0
  done : Bool := false
  pc : LoaderPc := .start

/-- The FPGA takes a word, or the loader goes on: `read` is what it reads from a register there, and `late` whether
two seconds have passed. -/
inductive LoaderAct where
  | drain
  | cpu (read : BitVec 32) (late : Bool)

namespace Loader

def lllWrite (s : Loader) (val : BitVec 32) (reg : ℕ) : Loader := { s with regs := Function.update s.regs reg val }

def gpioOut (s : Loader) (addr bit : ℕ) (value : Bool) : Loader :=
  s.lllWrite (if value then s.regs addr ||| (1#32 <<< bit) else s.regs addr &&& ~~~(1#32 <<< bit)) addr

/-- Up to the read of the control register. -/
def reset (s : Loader) : Loader :=
  let s := s.gpioOut gngpioDirectionMode gpioBootsel0 false
  let s := s.gpioOut gngpioDirectionMode gpioBootsel1 false
  let s := s.gpioOut gngpioOutputEnable gpioBootsel0 true
  let s := s.gpioOut gngpioOutputEnable gpioBootsel1 true
  let s := s.gpioOut gngpioOutputValue gpioBootsel0 true
  let s := s.gpioOut gngpioOutputValue gpioBootsel1 false
  let s := s.lllWrite 0x00 fclClkDiv
  s.lllWrite 0x40 fclCtrl

/-- The control word tells how many bytes of the last word are of the image. -/
def ctrl (size8 : ℕ) : BitVec 32 :=
  match size8 % 4 with
  | 3 => 0x116
  | 2 => 0x126
  | 1 => 0x136
  | _ => 0x106

/-- Up to the loop. -/
def configure (s : Loader) (size8 : ℕ) : Loader :=
  let s := s.lllWrite 0x00 fclCtrl
  let s := s.lllWrite 0x00 fclIrq
  let s := s.lllWrite (ctrl size8) fclCtrl
  let s := s.lllWrite 0x00 fclClkDiv
  let s := s.lllWrite 0x00 fclTimerCtrl
  let s := s.lllWrite 0x10 fclTimer0
  let s := s.lllWrite 0x00 fclTimer1
  let s := s.lllWrite 0x08 fclTimer20
  let s := s.lllWrite 0x00 fclTimer21
  let s := s.lllWrite 0x17 fclEn
  s.lllWrite (ctrl size8 ||| 0x01) fclCtrl

def gpiofixLowLevel (s : Loader) : Loader :=
  let s := s.gpioOut gngpioOutputValue gpioBootsel0 false
  let s := s.gpioOut gngpioOutputValue gpioBootsel1 false
  let s := s.gpioOut gngpioOutputEnable gpioBootsel0 false
  s.gpioOut gngpioOutputEnable gpioBootsel1 false

variable (mem : ℕ → BitVec 8) (size8 : ℕ)

/-- A step of `loader_low_level`, and of `spec_load_fpga` after it, which does not look at what the former returned. -/
def specLoadFpga (s : Loader) (read : BitVec 32) (late : Bool) : Option Loader :=
  match s.pc with
  | .start => some { s.reset with pc := .readback }
  | .readback =>
    if read ≠ 0x40 then some { s with pc := .programmed (-5) } else some { s.configure size8 with pc := .check }
  | .check =>
    if s.left = 0 then some { s.lllWrite 0x186 fclCtrl with pc := .programmed s.wrote }
    else if read &&& 8 ≠ 0 ∧ s.wrote ≠ 0 then some { s with done := true, pc := .wait }
    else if read &&& 4 ≠ 0 ∧ s.done = false then some { s with pc := .programmed (-5) }
    else some { s with pc := .wait }
  -- wait until at least half of the FIFO is empty
  | .wait => if read &&& (1#32 <<< 5) ≠ 0 then some s else some { s with pc := .burst 0 }
  | .burst i =>
    if s.left ≠ 0 ∧ i < 32 then
      some
        { s with
          fifo := s.fifo ++ [unalignedBitswapLe32 mem (4 * s.data32)]
          data32 := s.data32 + 1
          left := s.left - 1
          wrote := s.wrote + 1
          pc := .burst (i + 1) }
    else some { s with pc := .check }
  | .programmed _ =>
    if read &&& 8 ≠ 0 then some { s.gpiofixLowLevel with pc := .finished 0 }
    else if read &&& 4 ≠ 0 ∨ late then some { s with pc := .finished (-110) }
    else some s
  | .finished _ => none

def step (s : Loader) : LoaderAct → Option Loader
  | .drain =>
    match s.fifo with
    | [] => none
    | w :: ws => some { s with fifo := ws, taken := s.taken ++ [w] }
  | .cpu read late => s.specLoadFpga mem size8 read late

/-- Before `spec_load_fpga`. -/
def start (regs : ℕ → BitVec 32) : Loader where
  regs := regs
  left := size32 size8

/-- The bridge tells by bit 5 when its FIFO is more than half full. -/
def Honest (depth : ℕ) (s : Loader) : LoaderAct → Prop
  | .drain => True
  | .cpu read _ => s.pc = .wait → depth < 2 * s.fifo.length → read &&& (1#32 <<< 5) ≠ 0

/-- The registers of the lines. -/
def IsGpio (reg : ℕ) : Prop := reg = gngpioDirectionMode ∨ reg = gngpioOutputEnable ∨ reg = gngpioOutputValue

instance (depth : ℕ) (s : Loader) : (a : LoaderAct) → Decidable (s.Honest depth a)
  | .drain => .isTrue trivial
  | .cpu _ _ => inferInstanceAs (Decidable (_ → _ → _))

/-- Where the select lines of the boot mode are when the loader has begun. -/
structure Configures (s : Loader) : Prop where
  direction : (s.regs gngpioDirectionMode).getLsbD gpioBootsel0 = false ∧
    (s.regs gngpioDirectionMode).getLsbD gpioBootsel1 = false
  enabled : (s.regs gngpioOutputEnable).getLsbD gpioBootsel0 = true ∧
    (s.regs gngpioOutputEnable).getLsbD gpioBootsel1 = true
  value : (s.regs gngpioOutputValue).getLsbD gpioBootsel0 = true ∧
    (s.regs gngpioOutputValue).getLsbD gpioBootsel1 = false

/-- The lines are free again. -/
structure Releases (s : Loader) : Prop where
  enabled : (s.regs gngpioOutputEnable).getLsbD gpioBootsel0 = false ∧
    (s.regs gngpioOutputEnable).getLsbD gpioBootsel1 = false
  value : (s.regs gngpioOutputValue).getLsbD gpioBootsel0 = false ∧
    (s.regs gngpioOutputValue).getLsbD gpioBootsel1 = false

/-- How many words the FIFO may hold. -/
def limit (depth : ℕ) : LoaderPc → ℕ
  | .burst i => depth / 2 + i
  | _ => depth

/-- The invariant of the words. -/
structure Feeds (mem : ℕ → BitVec 8) (size8 depth : ℕ) (s : Loader) : Prop where
  data : s.data32 = s.wrote
  left : s.left + s.wrote = size32 size8
  stream : s.taken ++ s.fifo = (imageWords mem size8).take s.wrote
  room : s.fifo.length ≤ limit depth s.pc
  few : ∀ i, s.pc = .burst i → i ≤ 32
  returned : ∀ wrote, s.pc = .programmed wrote → wrote = -5 ∨ wrote = s.wrote ∧ s.left = 0

/-- The invariant of the registers, which had some values at first. -/
structure Wired (regs : ℕ → BitVec 32) (s : Loader) : Prop where
  others : ∀ reg bit, IsGpio reg → bit ≠ gpioBootsel0 → bit ≠ gpioBootsel1 →
    (s.regs reg).getLsbD bit = (regs reg).getLsbD bit
  configures : s.pc ≠ .start → s.pc ≠ .finished 0 → s.Configures
  releases : s.pc = .finished 0 → s.Releases

section Registers

variable {s : Loader}

theorem gpioOut_regs (s : Loader) (addr : ℕ) {bit : ℕ} (hbit : bit < 32) (value : Bool) (reg b : ℕ) :
    ((s.gpioOut addr bit value).regs reg).getLsbD b = if reg = addr ∧ b = bit then value else (s.regs reg).getLsbD b := by
  rw [gpioOut, lllWrite]
  by_cases hreg : reg = addr
  · subst hreg
    by_cases hb : b = bit
    · subst hb
      cases value with
      | true => simp [hbit]
      | false => simp
    · have hother : (1#32 <<< bit).getLsbD b = false := by
        simp
        omega
      cases value with
      | true => simp [hb, hother]
      | false =>
        have hlt : (s.regs reg).getLsbD b = true → b < 32 := BitVec.lt_of_getLsbD
        simp only [Bool.false_eq_true, if_false, Function.update_self, BitVec.getLsbD_and, BitVec.getLsbD_not, hother, hb,
          and_false]
        cases hx : (s.regs reg).getLsbD b with
        | true => simp [hlt hx]
        | false => rfl
  · simp [hreg]

/-- Registers other than those of the lines do not touch them. -/
theorem lllWrite_regs (s : Loader) (val : BitVec 32) {a reg : ℕ} (h : reg ≠ a) : (s.lllWrite val a).regs reg = s.regs reg :=
  Function.update_of_ne h _ _

theorem gpioOut_other (s : Loader) (addr : ℕ) {bit b : ℕ} (hbit : bit < 32) (hb : b ≠ bit) (value : Bool) (reg : ℕ) :
    ((s.gpioOut addr bit value).regs reg).getLsbD b = (s.regs reg).getLsbD b := by
  rw [gpioOut_regs s addr hbit value reg b, if_neg fun h => hb h.2]

theorem reset_configures (s : Loader) : s.reset.Configures := by
  have h0 : gpioBootsel0 < 32 := by decide
  have h1 : gpioBootsel1 < 32 := by decide
  refine ⟨⟨?_, ?_⟩, ⟨?_, ?_⟩, ⟨?_, ?_⟩⟩
  all_goals
    rw [reset, lllWrite_regs _ _ (by decide), lllWrite_regs _ _ (by decide)]
    simp only [gpioOut_regs _ _ h0, gpioOut_regs _ _ h1]
    rfl

theorem gpiofix_releases (s : Loader) : s.gpiofixLowLevel.Releases := by
  have h0 : gpioBootsel0 < 32 := by decide
  have h1 : gpioBootsel1 < 32 := by decide
  refine ⟨⟨?_, ?_⟩, ⟨?_, ?_⟩⟩
  all_goals
    rw [gpiofixLowLevel]
    simp only [gpioOut_regs _ _ h0, gpioOut_regs _ _ h1]
    rfl

theorem reset_others (s : Loader) {reg b : ℕ} (hreg : IsGpio reg) (h0 : b ≠ gpioBootsel0) (h1 : b ≠ gpioBootsel1) :
    (s.reset.regs reg).getLsbD b = (s.regs reg).getLsbD b := by
  have hlt0 : gpioBootsel0 < 32 := by decide
  have hlt1 : gpioBootsel1 < 32 := by decide
  obtain ⟨hclk, hctrl⟩ : reg ≠ fclClkDiv ∧ reg ≠ fclCtrl := by
    rcases hreg with rfl | rfl | rfl <;> decide
  rw [reset, lllWrite_regs _ _ hctrl, lllWrite_regs _ _ hclk]
  simp only [gpioOut_other _ _ hlt0 h0, gpioOut_other _ _ hlt1 h1]

theorem gpiofix_others (s : Loader) {reg b : ℕ} (h0 : b ≠ gpioBootsel0) (h1 : b ≠ gpioBootsel1) :
    (s.gpiofixLowLevel.regs reg).getLsbD b = (s.regs reg).getLsbD b := by
  have hlt0 : gpioBootsel0 < 32 := by decide
  have hlt1 : gpioBootsel1 < 32 := by decide
  rw [gpiofixLowLevel]
  simp only [gpioOut_other _ _ hlt0 h0, gpioOut_other _ _ hlt1 h1]

/-- The configuration leaves the lines alone. -/
theorem configure_regs (s : Loader) (size8 : ℕ) {reg : ℕ} (hreg : IsGpio reg) : (s.configure size8).regs reg = s.regs reg := by
  have hne : ∀ a ∈ [fclCtrl, fclIrq, fclClkDiv, fclTimerCtrl, fclTimer0, fclTimer1, fclTimer20, fclTimer21, fclEn],
      reg ≠ a := by
    rcases hreg with rfl | rfl | rfl <;> decide
  simp only [List.forall_mem_cons] at hne
  obtain ⟨hctrl, hirq, hclk, htimer, ht0, ht1, ht20, ht21, hen, -⟩ := hne
  simp only [configure, lllWrite_regs _ _ hctrl, lllWrite_regs _ _ hirq, lllWrite_regs _ _ hclk, lllWrite_regs _ _ htimer,
    lllWrite_regs _ _ ht0, lllWrite_regs _ _ ht1, lllWrite_regs _ _ ht20, lllWrite_regs _ _ ht21, lllWrite_regs _ _ hen]

end Registers

section Steps

variable {mem : ℕ → BitVec 8} {size8 depth : ℕ} {regs : ℕ → BitVec 32} {s t : Loader} {read : BitVec 32} {late : Bool}

theorem start_feeds (depth : ℕ) (regs : ℕ → BitVec 32) : Feeds mem size8 depth (start size8 regs) where
  data := rfl
  left := rfl
  stream := rfl
  room := Nat.zero_le _
  few := by simp [start]
  returned := by simp [start]

theorem start_wired (size8 : ℕ) (regs : ℕ → BitVec 32) : Wired regs (start size8 regs) where
  others _ _ _ _ _ := rfl
  configures h := absurd rfl h
  releases h := by simp [start] at h

/-- The FPGA takes a word. -/
theorem Feeds.drain (h : Feeds mem size8 depth s) (hs : s.step mem size8 .drain = some t) : Feeds mem size8 depth t := by
  rw [step] at hs
  cases hfifo : s.fifo with
  | nil => simp [hfifo] at hs
  | cons w ws =>
    simp only [hfifo, Option.some.injEq] at hs
    subst hs
    have hstream := h.stream
    have hroom := h.room
    rw [hfifo] at hstream hroom
    refine ⟨h.data, h.left, ?_, ?_, h.few, h.returned⟩
    · rw [← hstream, List.append_assoc, List.singleton_append]
    · rw [List.length_cons] at hroom
      exact Nat.le_of_succ_le hroom

/-- A step that does not write to the FIFO. -/
theorem Feeds.skip (h : Feeds mem size8 depth s) (hdata : t.data32 = s.data32) (hwrote : t.wrote = s.wrote)
    (hleft : t.left = s.left) (hfifo : t.fifo = s.fifo) (htaken : t.taken = s.taken)
    (hroom : s.fifo.length ≤ limit depth t.pc) (hfew : ∀ i, t.pc = .burst i → i ≤ 32)
    (hreturned : ∀ wrote, t.pc = .programmed wrote → wrote = -5 ∨ wrote = s.wrote ∧ s.left = 0) :
    Feeds mem size8 depth t where
  data := by rw [hdata, hwrote, h.data]
  left := by rw [hleft, hwrote, h.left]
  stream := by rw [htaken, hfifo, hwrote, h.stream]
  room := by rw [hfifo]; exact hroom
  few := hfew
  returned := by rw [hwrote, hleft]; exact hreturned

/-- A word goes to the FIFO. -/
theorem Feeds.write {i : ℕ} (h : Feeds mem size8 depth s) (hpc : s.pc = .burst i) (hleft : s.left ≠ 0) (hi : i < 32) :
    Feeds mem size8 depth
      { s with
        fifo := s.fifo ++ [unalignedBitswapLe32 mem (4 * s.data32)]
        data32 := s.data32 + 1
        left := s.left - 1
        wrote := s.wrote + 1
        pc := .burst (i + 1) } where
  data := by simp only [h.data]
  left := by
    have := h.left
    dsimp only
    omega
  stream := by
    have hlt : s.wrote < size32 size8 := by
      have := h.left
      omega
    have hword : (imageWords mem size8)[s.wrote]? = some (unalignedBitswapLe32 mem (4 * s.wrote)) := by
      rw [imageWords, List.getElem?_map, List.getElem?_range hlt]
      rfl
    dsimp only
    rw [List.take_add_one, ← h.stream, hword, h.data, List.append_assoc]
    rfl
  room := by
    have hroom := h.room
    rw [hpc, limit] at hroom
    rw [List.length_append, List.length_singleton, limit]
    omega
  few j hj := by
    cases hj
    omega
  returned _ hj := by cases hj

theorem Feeds.step (hdepth : 64 ≤ depth) (h : Feeds mem size8 depth s) {a : LoaderAct} (hhonest : s.Honest depth a)
    (hs : s.step mem size8 a = some t) : Feeds mem size8 depth t := by
  cases a with
  | drain => exact h.drain hs
  | cpu read late =>
    have hroom := h.room
    rw [Loader.step, specLoadFpga] at hs
    cases hpc : s.pc with
    | start =>
      simp only [hpc, Option.some.injEq] at hs hroom
      subst hs
      exact h.skip rfl rfl rfl rfl rfl hroom (by simp) (by simp)
    | readback =>
      simp only [hpc] at hs hroom
      split at hs
      · cases hs
        exact h.skip rfl rfl rfl rfl rfl hroom (by simp) (by simp)
      · cases hs
        exact h.skip rfl rfl rfl rfl rfl hroom (by simp) (by simp)
    | check =>
      simp only [hpc] at hs hroom
      split at hs
      · rename_i hleft
        cases hs
        exact h.skip rfl rfl rfl rfl rfl hroom (by simp) (by simp [hleft])
      split at hs
      · cases hs
        exact h.skip rfl rfl rfl rfl rfl hroom (by simp) (by simp)
      split at hs
      · cases hs
        exact h.skip rfl rfl rfl rfl rfl hroom (by simp) (by simp)
      · cases hs
        exact h.skip rfl rfl rfl rfl rfl hroom (by simp) (by simp)
    | wait =>
      simp only [hpc] at hs
      split at hs
      · cases hs
        exact h
      · rename_i hclear
        cases hs
        have hhalf : s.fifo.length ≤ depth / 2 := by
          by_contra hmore
          exact hclear (hhonest hpc (by omega))
        exact h.skip rfl rfl rfl rfl rfl hhalf (by simp) (by simp)
    | burst i =>
      simp only [hpc] at hs
      split at hs
      · rename_i hnext
        cases hs
        exact h.write hpc hnext.1 hnext.2
      · cases hs
        have hfull : s.fifo.length ≤ depth := by
          have hfew := h.few i hpc
          rw [hpc, limit] at hroom
          omega
        exact h.skip rfl rfl rfl rfl rfl hfull (by simp) (by simp)
    | programmed wrote =>
      simp only [hpc] at hs hroom
      split at hs
      · cases hs
        exact h.skip rfl rfl rfl rfl rfl hroom (by simp) (by simp)
      split at hs
      · cases hs
        exact h.skip rfl rfl rfl rfl rfl hroom (by simp) (by simp)
      · cases hs
        exact h
    | finished ret => simp [hpc] at hs

/-- A step that leaves the lines alone. -/
theorem Wired.keep (h : Wired regs s) (hbegun : s.pc ≠ .start) (hopen : s.pc ≠ .finished 0)
    (hregs : ∀ reg, IsGpio reg → t.regs reg = s.regs reg) (hpc : t.pc ≠ .finished 0) : Wired regs t where
  others reg bit hreg h0 h1 := by
    rw [hregs reg hreg]
    exact h.others reg bit hreg h0 h1
  configures _ _ := by
    obtain ⟨hdirection, henabled, hvalue⟩ := h.configures hbegun hopen
    constructor
    · rwa [hregs _ (.inl rfl)]
    · rwa [hregs _ (.inr (.inl rfl))]
    · rwa [hregs _ (.inr (.inr rfl))]
  releases hdone := absurd hdone hpc

theorem Wired.step (h : Wired regs s) {a : LoaderAct} (hs : s.step mem size8 a = some t) : Wired regs t := by
  cases a with
  | drain =>
    rw [Loader.step] at hs
    cases hfifo : s.fifo with
    | nil => simp [hfifo] at hs
    | cons w ws =>
      simp only [hfifo, Option.some.injEq] at hs
      subst hs
      exact ⟨h.others, fun h0 h1 => ⟨(h.configures h0 h1).direction, (h.configures h0 h1).enabled, (h.configures h0 h1).value⟩,
        fun h0 => ⟨(h.releases h0).enabled, (h.releases h0).value⟩⟩
  | cpu read late =>
    rw [Loader.step, specLoadFpga] at hs
    cases hpc : s.pc with
    | start =>
      simp only [hpc, Option.some.injEq] at hs
      subst hs
      have hconfigures := reset_configures s
      refine ⟨fun reg bit hreg h0 h1 => ?_, fun _ _ => ⟨hconfigures.direction, hconfigures.enabled, hconfigures.value⟩,
        by simp⟩
      exact (reset_others s hreg h0 h1).trans (h.others reg bit hreg h0 h1)
    | readback =>
      simp only [hpc] at hs
      split at hs
      · cases hs
        exact h.keep (by simp [hpc]) (by simp [hpc]) (fun _ _ => rfl) (by simp)
      · cases hs
        exact h.keep (by simp [hpc]) (by simp [hpc]) (fun _ hreg => configure_regs s size8 hreg) (by simp)
    | check =>
      simp only [hpc] at hs
      split at hs
      · cases hs
        have hne : ∀ reg, IsGpio reg → reg ≠ fclCtrl := by
          rintro reg (rfl | rfl | rfl) <;> decide
        exact h.keep (by simp [hpc]) (by simp [hpc]) (fun reg hreg => lllWrite_regs s _ (hne reg hreg)) (by simp)
      split at hs
      · cases hs
        exact h.keep (by simp [hpc]) (by simp [hpc]) (fun _ _ => rfl) (by simp)
      split at hs
      · cases hs
        exact h.keep (by simp [hpc]) (by simp [hpc]) (fun _ _ => rfl) (by simp)
      · cases hs
        exact h.keep (by simp [hpc]) (by simp [hpc]) (fun _ _ => rfl) (by simp)
    | wait =>
      simp only [hpc] at hs
      split at hs
      · cases hs
        exact h
      · cases hs
        exact h.keep (by simp [hpc]) (by simp [hpc]) (fun _ _ => rfl) (by simp)
    | burst i =>
      simp only [hpc] at hs
      split at hs
      · cases hs
        exact h.keep (by simp [hpc]) (by simp [hpc]) (fun _ _ => rfl) (by simp)
      · cases hs
        exact h.keep (by simp [hpc]) (by simp [hpc]) (fun _ _ => rfl) (by simp)
    | programmed wrote =>
      simp only [hpc] at hs
      split at hs
      · cases hs
        have hreleases := gpiofix_releases s
        refine ⟨fun reg bit hreg h0 h1 => ?_, by simp, fun _ => ⟨hreleases.enabled, hreleases.value⟩⟩
        exact (gpiofix_others s h0 h1).trans (h.others reg bit hreg h0 h1)
      split at hs
      · cases hs
        exact h.keep (by simp [hpc]) (by simp [hpc]) (fun _ _ => rfl) (by simp)
      · cases hs
        exact h
    | finished ret => simp [hpc] at hs

/-- A run of the loader on a FIFO of 64 words or more: the FIFO never overflows, the FPGA gets the words of the image
in order, all of them when the number of words is returned, and only the two lines of the boot mode change. -/
theorem image_fed (hdepth : 64 ≤ depth) (regs : ℕ → BitVec 32) {acts : List LoaderAct}
    (hrun : run (Loader.step mem size8) (start size8 regs) acts = some s)
    (hhonest : Obeys (Loader.step mem size8) (Honest depth) (start size8 regs) acts) :
    s.fifo.length ≤ depth ∧ s.taken ++ s.fifo = (imageWords mem size8).take s.wrote ∧
      (∀ wrote, s.pc = .programmed wrote →
        wrote = -5 ∨ wrote = size32 size8 ∧ s.taken ++ s.fifo = imageWords mem size8) ∧
      Wired regs s := by
  have hfeeds : Feeds mem size8 depth s :=
    run_invariant (fun h hh hs => h.step hdepth hh hs) (start_feeds depth regs) hhonest hrun
  have hwired : Wired regs s := run_keeps (fun h hs => h.step hs) (start_wired size8 regs) hrun
  refine ⟨?_, hfeeds.stream, ?_, hwired⟩
  · apply hfeeds.room.trans
    cases hpc : s.pc with
    | burst i =>
      have hfew := hfeeds.few i hpc
      rw [limit]
      omega
    | _ => exact Nat.le_refl _
  · intro wrote hpc
    apply (hfeeds.returned wrote hpc).imp_right
    rintro ⟨rfl, hleft⟩
    have hall : s.wrote = size32 size8 := by
      have := hfeeds.left
      omega
    rw [hfeeds.stream, hall, List.take_of_length_le (Nat.le_of_eq (length_imageWords mem size8))]
    exact ⟨rfl, rfl⟩

/-- What is read does not let the loader wait. -/
def Moves (read : BitVec 32) (late : Bool) : LoaderPc → Prop
  | .wait => read &&& (1#32 <<< 5) = 0
  | .programmed _ => read &&& 8 ≠ 0 ∨ read &&& 4 ≠ 0 ∨ late = true
  | _ => True

instance (read : BitVec 32) (late : Bool) : (pc : LoaderPc) → Decidable (Moves read late pc)
  | .wait => inferInstanceAs (Decidable (_ = _))
  | .programmed _ => inferInstanceAs (Decidable (_ ∨ _))
  | .start | .readback | .check | .burst _ | .finished _ => .isTrue trivial

/-- The bridge is honest, and does not let the loader wait there. -/
def Goes (depth : ℕ) (s : Loader) : LoaderAct → Prop
  | .drain => True
  | .cpu read late => s.Honest depth (.cpu read late) ∧ Moves read late s.pc

instance (depth : ℕ) (s : Loader) : (a : LoaderAct) → Decidable (s.Goes depth a)
  | .drain => .isTrue trivial
  | .cpu _ _ => inferInstanceAs (Decidable (_ ∧ _))

theorem Goes.honest {a : LoaderAct} (h : s.Goes depth a) : s.Honest depth a := by
  cases a with
  | drain => trivial
  | cpu read late => exact h.1

def weight : LoaderPc → ℕ
  | .start => 6
  | .readback => 5
  | .check => 3
  | .wait => 2
  | .burst 0 => 1
  | .burst (_ + 1) => 4
  | .programmed _ => 1
  | .finished _ => 0

/-- What a load has still to do, in steps. A word is written and taken, and may be the only one of its burst. -/
def remaining (s : Loader) : ℕ := s.fifo.length + 8 * s.left + weight s.pc

/-- The loader waits for room for a word. -/
def Pending (s : Loader) : Prop := s.pc = .wait ∨ s.pc = .burst 0 → s.left ≠ 0

theorem Pending.step (h : s.Pending) {a : LoaderAct} (hgoes : s.Goes depth a) (hs : s.step mem size8 a = some t) :
    t.Pending ∧ t.remaining < s.remaining := by
  cases a with
  | drain =>
    rw [Loader.step] at hs
    cases hfifo : s.fifo with
    | nil => simp [hfifo] at hs
    | cons w ws =>
      simp only [hfifo, Option.some.injEq] at hs
      subst hs
      refine ⟨h, ?_⟩
      simp only [remaining, hfifo, List.length_cons]
      omega
  | cpu read late =>
    obtain ⟨-, hmoves⟩ := hgoes
    rw [Loader.step, specLoadFpga] at hs
    cases hpc : s.pc with
    | start =>
      simp only [hpc, Option.some.injEq] at hs
      subst hs
      refine ⟨by simp [Pending], ?_⟩
      change s.fifo.length + 8 * s.left + 5 < _
      rw [remaining, hpc, weight]
      omega
    | readback =>
      simp only [hpc] at hs
      split at hs
      · cases hs
        refine ⟨by simp [Pending], ?_⟩
        simp only [remaining, hpc, weight]
        omega
      · cases hs
        refine ⟨by simp [Pending], ?_⟩
        change s.fifo.length + 8 * s.left + 3 < _
        rw [remaining, hpc, weight]
        omega
    | check =>
      simp only [hpc] at hs
      split at hs
      · cases hs
        refine ⟨by simp [Pending], ?_⟩
        change s.fifo.length + 8 * s.left + 1 < _
        rw [remaining, hpc, weight]
        omega
      rename_i hleft
      split at hs
      · cases hs
        refine ⟨fun _ => hleft, ?_⟩
        simp only [remaining, hpc, weight]
        omega
      split at hs
      · cases hs
        refine ⟨by simp [Pending], ?_⟩
        simp only [remaining, hpc, weight]
        omega
      · cases hs
        refine ⟨fun _ => hleft, ?_⟩
        simp only [remaining, hpc, weight]
        omega
    | wait =>
      simp only [hpc] at hs
      rw [hpc, Moves] at hmoves
      rw [if_neg (not_not_intro hmoves)] at hs
      cases hs
      refine ⟨fun _ => h (.inl hpc), ?_⟩
      simp only [remaining, hpc, weight]
      omega
    | burst i =>
      simp only [hpc] at hs
      split at hs
      · rename_i hnext
        cases hs
        refine ⟨by simp [Pending], ?_⟩
        have hone : 1 ≤ weight (.burst i) := by cases i <;> simp [weight]
        have hleft := hnext.1
        simp only [remaining, hpc, List.length_append, List.length_singleton]
        rw [weight]
        omega
      · rename_i hlast
        cases hs
        refine ⟨by simp [Pending], ?_⟩
        cases i with
        | zero => exact absurd ⟨h (.inr hpc), by omega⟩ hlast
        | succ i =>
          simp only [remaining, hpc, weight]
          omega
    | programmed wrote =>
      simp only [hpc] at hs
      split at hs
      · cases hs
        refine ⟨by simp [Pending], ?_⟩
        change s.fifo.length + 8 * s.left + 0 < _
        rw [remaining, hpc, weight]
        omega
      · rename_i hdone
        rw [hpc] at hmoves
        rw [if_pos (hmoves.resolve_left hdone)] at hs
        cases hs
        refine ⟨by simp [Pending], ?_⟩
        simp only [remaining, hpc, weight]
        omega
    | finished ret => simp [hpc] at hs

theorem exists_step (hopen : ∀ ret, s.pc ≠ .finished ret) : ∃ t, s.step mem size8 (.cpu read late) = some t := by
  rw [Loader.step, specLoadFpga]
  cases hpc : s.pc with
  | finished ret => exact absurd hpc (hopen ret)
  | start => exact ⟨_, rfl⟩
  | readback | wait | burst _ =>
    dsimp only
    split
    · exact ⟨_, rfl⟩
    · exact ⟨_, rfl⟩
  | programmed _ =>
    dsimp only
    split
    · exact ⟨_, rfl⟩
    split
    · exact ⟨_, rfl⟩
    · exact ⟨_, rfl⟩
  | check =>
    dsimp only
    split
    · exact ⟨_, rfl⟩
    split
    · exact ⟨_, rfl⟩
    split
    · exact ⟨_, rfl⟩
    · exact ⟨_, rfl⟩

/-- Where nothing can go on the load has ended, and the FPGA has taken all words that were written. -/
theorem ended_of_stuck (hstuck : ∀ a t, s.Goes depth a → s.step mem size8 a ≠ some t) :
    s.fifo = [] ∧ ∃ ret, s.pc = .finished ret := by
  have hempty : s.fifo = [] := by
    cases hfifo : s.fifo with
    | nil => rfl
    | cons w ws => exact absurd (by simp [step, hfifo]; rfl) (hstuck .drain _ trivial)
  refine ⟨hempty, ?_⟩
  by_contra hopen
  obtain ⟨t, ht⟩ := @exists_step mem size8 _ 8 false fun ret hpc => hopen ⟨ret, hpc⟩
  -- the bridge reports room and, at the end, that the FPGA is done
  refine hstuck (.cpu 8 false) t ⟨fun _ hmore => ?_, ?_⟩ ht
  · rw [hempty, List.length_nil] at hmore
    exact absurd hmore (Nat.not_lt_zero _)
  · cases s.pc with
    | wait => rfl
    | programmed _ => exact .inl (by decide)
    | _ => trivial

/-- No load goes on for ever: a run in which the bridge does not let the loader wait is no longer than a bound, and
when nothing can go on `spec_load_fpga` has returned and the FPGA has taken every word that was written. -/
theorem load_ends (hdepth : 64 ≤ depth) (regs : ℕ → BitVec 32) {acts : List LoaderAct}
    (hrun : run (Loader.step mem size8) (start size8 regs) acts = some s)
    (hgoes : Obeys (Loader.step mem size8) (Goes depth) (start size8 regs) acts) :
    acts.length ≤ 8 * size32 size8 + 6 ∧
      ((∀ a t, s.Goes depth a → s.step mem size8 a ≠ some t) →
        (∃ ret, s.pc = .finished ret) ∧ s.taken = (imageWords mem size8).take s.wrote) := by
  have hfeeds : Feeds mem size8 depth s :=
    run_invariant (fun h hg hs => h.step hdepth hg.honest hs) (start_feeds depth regs) hgoes hrun
  have hmeasure := run_measure (I := Pending) (μ := remaining) (fun h hg hs => h.step hg hs) (by simp [Pending, start]) hgoes
    hrun
  refine ⟨?_, fun hstuck => ?_⟩
  · have hstart : remaining (start size8 regs) = 8 * size32 size8 + 6 := by
      rw [remaining, start, weight, List.length_nil, Nat.zero_add]
    omega
  · obtain ⟨hempty, hended⟩ := ended_of_stuck hstuck
    refine ⟨hended, ?_⟩
    rw [← hfeeds.stream, hempty, List.append_nil]

end Steps

end Loader

namespace Sample
open Loader

/-- Five bytes are loaded as two words, and the FPGA is slow with the second one. -/
def fiveBytes (i : ℕ) : BitVec 8 := BitVec.ofNat 8 (i + 1)

def loadFive : List LoaderAct :=
  [.cpu 0 false, .cpu 0x40 false, .cpu 0 false, .cpu 0 false, .cpu 0 false, .drain, .cpu 0 false, .cpu 0 false, .cpu 0 false]

def loadedFive : Loader :=
  (run (Loader.step fiveBytes 5) (start 5 fun _ => 0) loadFive).getD (start 5 fun _ => 0)

theorem loadedFive_fed : loadedFive.fifo.length ≤ 64 ∧
    loadedFive.taken ++ loadedFive.fifo = (imageWords fiveBytes 5).take loadedFive.wrote ∧
      (∀ wrote, loadedFive.pc = .programmed wrote →
        wrote = -5 ∨ wrote = size32 5 ∧ loadedFive.taken ++ loadedFive.fifo = imageWords fiveBytes 5) ∧
      Wired (fun _ => 0) loadedFive :=
  image_fed (by decide) _ (show run (Loader.step fiveBytes 5) (start 5 fun _ => 0) loadFive = some loadedFive from rfl)
    (by decide)

theorem loadFive_ends : loadFive.length ≤ 8 * size32 5 + 6 ∧
    ((∀ a t, loadedFive.Goes 64 a → loadedFive.step fiveBytes 5 a ≠ some t) →
      (∃ ret, loadedFive.pc = .finished ret) ∧ loadedFive.taken = (imageWords fiveBytes 5).take loadedFive.wrote) :=
  load_ends (by decide) _ (show run (Loader.step fiveBytes 5) (start 5 fun _ => 0) loadFive = some loadedFive from rfl)
    (by decide)

end Sample

end WhiteRabbit.Spec
