import WhiteRabbit.ChannelModes

/-!
# Modes on the command line

The tool takes a letter for each channel and hands the driver a mask of channels with a word of their modes. Asked for
the modes, it prints a text for each channel from the word that comes back.
-/

namespace WhiteRabbit.Dio
open BitFields

/-- What `one_mode` writes in the command. -/
structure ModeWords where
  channel : ℕ
  value : ℕ

/-- `one_mode`. The driver gets nothing when it fails. -/
def oneMode (cmd : ModeWords) (modeChar : Char) (chanIdx : ℕ) : Option ModeWords :=
  if modeChar = '-' then some cmd
  else
    let channel := cmd.channel ||| 1 <<< chanIdx
    let value := cmd.value
    let term := wrDioInoutTerm <<< chanIdx
    let dio := wrDioInoutDio <<< chanIdx
    let one := wrDioInoutValue <<< chanIdx
    let output := wrDioInoutOutput <<< chanIdx
    if chanIdx = 0 ∧ modeChar ∈ ['d', 'D', '0', '1'] then none
    else
      match modeChar with
      | 'D' => some ⟨channel, value ||| term ||| dio ||| output⟩
      | 'd' => some ⟨channel, value ||| dio ||| output⟩
      | 'C' => some ⟨channel, value ||| term ||| dio ||| one⟩
      | 'c' => some ⟨channel, value ||| dio ||| one⟩
      | 'P' => some ⟨channel, value ||| term ||| dio ||| one ||| output⟩
      | 'p' => some ⟨channel, value ||| dio ||| one ||| output⟩
      | 'I' => some ⟨channel, value ||| term⟩
      | 'i' => some ⟨channel, value⟩
      | '1' => some ⟨channel, value ||| one ||| output⟩
      | '0' => some ⟨channel, value ||| output⟩
      | _ => none

/-- The arguments of `mode`: none, a channel, a letter for each channel, or channels with their letters. -/
inductive ModeArgs where
  | all
  | one (ch : ℕ)
  | letters (s : List Char)
  | pairs (l : List (ℕ × Char))

/-- The loops of `scan_inout`. -/
def oneModes : ModeWords → List (ℕ × Char) → Option ModeWords
  | cmd, [] => some cmd
  | cmd, (ch, c) :: rest => (oneMode cmd c ch).bind fun cmd => oneModes cmd rest

/-- The channels and letters to set, unless the modes are to be read. -/
def ModeArgs.settings : ModeArgs → List (ℕ × Char)
  | all | one _ => []
  | letters s => (List.range 5).zip s
  | pairs l => l

/-- The command that `scan_inout` hands to the driver. -/
def scanInout : ModeArgs → Option InoutCmd
  | .all => some ⟨⟨0x1f, wrDioFMask ||| wrDioFGet⟩, 0⟩
  | .one ch => if ch ≤ 4 then some ⟨⟨1 <<< ch, wrDioFMask ||| wrDioFGet⟩, 0⟩ else none
  | .letters s =>
    if s.length = 5 then
      (oneModes ⟨0, 0⟩ ((List.range 5).zip s)).map fun cmd => ⟨⟨cmd.channel, wrDioFMask⟩, cmd.value⟩
    else none
  | .pairs l =>
    if 1 ≤ l.length ∧ l.length ≤ 5 ∧ ∀ p ∈ l, p.1 ≤ 4 then
      (oneModes ⟨0, 0⟩ l).map fun cmd => ⟨⟨cmd.channel, wrDioFMask⟩, cmd.value⟩
    else none

/-- `decode_mode_description`. -/
def decodeModeDescription (bits : ℕ) : String :=
  let isDio := bits &&& wrDioInoutDio ≠ 0
  let isOne := bits &&& wrDioInoutValue ≠ 0
  let isOut := bits &&& wrDioInoutOutput ≠ 0
  let isTerm := bits &&& wrDioInoutTerm ≠ 0
  if isDio then
    if isOut then
      if isOne then if isTerm then "DIO pulse output with termination" else "DIO pulse output"
      else if isTerm then "DIO regular output with termination" else "DIO regular output"
    else if isOne then if isTerm then "DIO input active with termination" else "DIO input active"
    else "DIO unknown"
  else if isOut then if isOne then "Logic output high (1)" else "Logic output low (0)"
  else if isOne then "Logic unknown"
  else if isTerm then "Logic input with termination" else "Logic input"

/-- `print_mode_reply`: the channels of the mask with their texts. -/
def printModeReply (mask value : ℕ) : List (ℕ × String) :=
  ((List.range 5).filter fun ch => mask &&& 1 <<< ch ≠ 0).map fun ch =>
    let bits := value >>> ch &&& wrDioInoutDio ||| value >>> ch &&& wrDioInoutValue |||
      value >>> ch &&& wrDioInoutOutput ||| value >>> ch &&& wrDioInoutTerm
    (ch, decodeModeDescription bits)

/-- The tool and the driver: the registers after the command, and what the tool prints. -/
def modeTool (r : ModeRegs) (args : ModeArgs) : Option (ModeRegs × List (ℕ × String)) :=
  (scanInout args).map fun cmd =>
    let (r, reply) := wrnDioCmdInout r cmd
    (r, if cmd.flags &&& wrDioFGet ≠ 0 then printModeReply cmd.channel reply.value else [])

/-- What a letter stands for. -/
def letterMode : Char → Option ChannelMode
  | 'D' => some ⟨true, false, true, true⟩
  | 'd' => some ⟨true, false, true, false⟩
  | 'C' => some ⟨true, true, false, true⟩
  | 'c' => some ⟨true, true, false, false⟩
  | 'P' => some ⟨true, true, true, true⟩
  | 'p' => some ⟨true, true, true, false⟩
  | 'I' => some ⟨false, false, false, true⟩
  | 'i' => some ⟨false, false, false, false⟩
  | '1' => some ⟨false, true, true, false⟩
  | '0' => some ⟨false, false, true, false⟩
  | _ => none

/-- The text of a mode. -/
def ChannelMode.describe (m : ChannelMode) : String :=
  match m.dio, m.output, m.value with
  | true, true, true => if m.term then "DIO pulse output with termination" else "DIO pulse output"
  | true, true, false => if m.term then "DIO regular output with termination" else "DIO regular output"
  | true, false, true => if m.term then "DIO input active with termination" else "DIO input active"
  | true, false, false => "DIO unknown"
  | false, true, true => "Logic output high (1)"
  | false, true, false => "Logic output low (0)"
  | false, false, true => "Logic unknown"
  | false, false, false => if m.term then "Logic input with termination" else "Logic input"

/-- A letter turns on what it stands for in its channel. -/
def turnOn (ch : ℕ) (mode : Option ChannelMode) (p : ℕ × Char) : Option ChannelMode :=
  if p.1 = ch then Option.merge ChannelMode.or mode (letterMode p.2) else mode

/-- The mode that the letters for a channel mean together. -/
def meant (l : List (ℕ × Char)) (ch : ℕ) : Option ChannelMode := l.foldl (turnOn ch) none

/-- A letter that leaves its channel alone, or one for the channel. -/
def LetterFor (p : ℕ × Char) : Prop :=
  p.2 = '-' ∨ (letterMode p.2).isSome ∧ ¬ (p.1 = 0 ∧ p.2 ∈ ['d', 'D', '0', '1'])

instance (p : ℕ × Char) : Decidable (LetterFor p) := inferInstanceAs (Decidable (_ ∨ _ ∧ ¬ _))

section Letters

variable {cmd cmd' : ModeWords} {c : Char} {ch : ℕ} {l : List (ℕ × Char)}

theorem layout_eq (m : ChannelMode) (ch : ℕ) : m.layout ch =
    (if m.dio then wrDioInoutDio <<< ch else 0) ||| (if m.value then wrDioInoutValue <<< ch else 0) |||
      (if m.output then wrDioInoutOutput <<< ch else 0) ||| (if m.term then wrDioInoutTerm <<< ch else 0) := by
  apply Nat.eq_of_testBit_eq
  intro i
  rw [ChannelMode.testBit_layout, wrDioInoutDio, wrDioInoutValue, wrDioInoutOutput, wrDioInoutTerm]
  simp only [← Nat.shiftLeft_add, Nat.testBit_or]
  cases m.dio <;> cases m.value <;> cases m.output <;> cases m.term <;>
    simp [Nat.one_shiftLeft, Nat.testBit_two_pow, eq_comm]

/-- A command with the mode of one more channel. -/
def ModeWords.add (cmd : ModeWords) (ch : ℕ) : Option ChannelMode → ModeWords
  | none => cmd
  | some m => ⟨cmd.channel ||| 1 <<< ch, cmd.value ||| m.layout ch⟩

def modeLetters : List Char := ['D', 'd', 'C', 'c', 'P', 'p', 'I', 'i', '1', '0']

theorem letterMode_other (h : c ∉ modeLetters) : letterMode c = none := by
  unfold letterMode
  split <;> first | rfl | simp [modeLetters] at h

theorem letterMode_isSome (h : c ∈ modeLetters) : (letterMode c).isSome := by
  simp only [modeLetters, List.mem_cons, List.not_mem_nil, or_false] at h
  rcases h with rfl | rfl | rfl | rfl | rfl | rfl | rfl | rfl | rfl | rfl <;> rfl

theorem oneMode_eq (cmd : ModeWords) (c : Char) (ch : ℕ) :
    oneMode cmd c ch = if LetterFor (ch, c) then some (cmd.add ch (letterMode c)) else none := by
  by_cases hdash : c = '-'
  · subst hdash
    rw [oneMode, if_pos rfl, if_pos (show LetterFor (ch, '-') from .inl rfl)]
    rfl
  · by_cases hzero : ch = 0 ∧ c ∈ ['d', 'D', '0', '1']
    · have hrefused : ¬ LetterFor (ch, c) := by
        rintro (h | ⟨-, h⟩)
        · exact hdash h
        · exact h hzero
      rw [oneMode, if_neg hdash, if_neg hrefused]
      simp only [if_pos hzero]
    · rw [oneMode, if_neg hdash]
      simp only [if_neg hzero]
      by_cases hletter : c ∈ modeLetters
      · rw [if_pos (show LetterFor (ch, c) from .inr ⟨letterMode_isSome hletter, hzero⟩)]
        simp only [modeLetters, List.mem_cons, List.not_mem_nil, or_false] at hletter
        rcases hletter with rfl | rfl | rfl | rfl | rfl | rfl | rfl | rfl | rfl | rfl
        all_goals simp [letterMode, ModeWords.add, layout_eq, Nat.or_assoc, Nat.or_comm, Nat.or_left_comm]
      · have hother := letterMode_other hletter
        have hrefused : ¬ LetterFor (ch, c) := by
          rintro (h | ⟨h, -⟩)
          · exact hdash h
          · rw [hother] at h
            cases h
        rw [if_neg hrefused]
        split <;> first | rfl | simp [modeLetters] at hletter

/-- The words of a command, channel by channel. -/
structure Says (cmd : ModeWords) (modes : ℕ → Option ChannelMode) : Prop where
  channel : ∀ ch, cmd.channel.testBit ch = (modes ch).isSome
  value : ∀ ch < 8, ChannelMode.ofBits (cmd.value >>> ch) = (modes ch).getD .idle

theorem says_none : Says ⟨0, 0⟩ fun _ => none where
  channel ch := Nat.zero_testBit ch
  value ch _ := by simp [ChannelMode.ofBits, ChannelMode.idle]

theorem Says.add {modes : ℕ → Option ChannelMode} (h : Says cmd modes) (hch : ch < 8) (m : Option ChannelMode) :
    Says (cmd.add ch m) fun k => if ch = k then Option.merge .or (modes k) m else modes k := by
  cases m with
  | none =>
    have hsame : (fun k => if ch = k then Option.merge ChannelMode.or (modes k) none else modes k) = modes := by
      funext k
      split <;> simp
    rw [hsame]
    exact h
  | some m =>
    refine ⟨fun k => ?_, fun k hk => ?_⟩
    · rw [ModeWords.add, Nat.testBit_or, h.channel, Nat.one_shiftLeft, Nat.testBit_two_pow]
      by_cases hk : ch = k
      · subst hk
        cases modes ch <;> simp
      · simp [hk]
    · have hor : ChannelMode.ofBits ((cmd.add ch (some m)).value >>> k) =
          (ChannelMode.ofBits (cmd.value >>> k)).or (ChannelMode.ofBits (m.layout ch >>> k)) := by
        simp [ModeWords.add, ChannelMode.ofBits, ChannelMode.or]
      rw [hor, h.value k hk, ChannelMode.ofBits_layout m hch hk]
      by_cases hk : ch = k
      · subst hk
        cases hm : modes ch <;> simp [ChannelMode.or, ChannelMode.idle]
      · simp [hk, ChannelMode.or, ChannelMode.idle]

/-- The loop takes letter after letter. -/
theorem oneModes_says {modes : ℕ → Option ChannelMode} (h : Says cmd modes) (hchs : ∀ p ∈ l, p.1 < 8)
    (hletters : ∀ p ∈ l, LetterFor p) :
    ∃ cmd', oneModes cmd l = some cmd' ∧ Says cmd' fun ch => l.foldl (turnOn ch) (modes ch) := by
  induction l generalizing cmd modes with
  | nil => exact ⟨cmd, rfl, h⟩
  | cons p l ih =>
    obtain ⟨hletter, hletters⟩ := List.forall_mem_cons.mp hletters
    obtain ⟨hch, hchs⟩ := List.forall_mem_cons.mp hchs
    obtain ⟨cmd', hrest, hsays⟩ := ih (h.add hch (letterMode p.2)) hchs hletters
    refine ⟨cmd', ?_, hsays⟩
    rw [oneModes, oneMode_eq, if_pos hletter]
    exact hrest

theorem oneModes_refused (h : ¬ ∀ p ∈ l, LetterFor p) (cmd : ModeWords) : oneModes cmd l = none := by
  induction l generalizing cmd with
  | nil => exact absurd (fun p hp => absurd hp List.not_mem_nil) h
  | cons p l ih =>
    rw [oneModes, oneMode_eq]
    by_cases hletter : LetterFor p
    · rw [if_pos hletter]
      exact ih (fun hrest => h (List.forall_mem_cons.mpr ⟨hletter, hrest⟩)) _
    · rw [if_neg hletter]
      rfl

end Letters

section Texts

variable {r : ModeRegs} {ch : ℕ}

/-- The text of the bits of a channel is that of its mode. -/
theorem decodeModeDescription_eq (v : ℕ) :
    decodeModeDescription (v &&& wrDioInoutDio ||| v &&& wrDioInoutValue ||| v &&& wrDioInoutOutput |||
      v &&& wrDioInoutTerm) = (ChannelMode.ofBits v).describe := by
  have hbits : ∀ i, (v &&& wrDioInoutDio ||| v &&& wrDioInoutValue ||| v &&& wrDioInoutOutput |||
      v &&& wrDioInoutTerm).testBit i = (v.testBit i && (decide (i = 0) || decide (i = 8) || decide (i = 16) ||
        decide (i = 24))) := by
    intro i
    simp only [wrDioInoutDio, wrDioInoutValue, wrDioInoutOutput, wrDioInoutTerm, Nat.one_shiftLeft, Nat.testBit_or,
      Nat.testBit_and, Nat.testBit_two_pow, @eq_comm ℕ _ i, Bool.and_or_distrib_left]
  generalize v &&& wrDioInoutDio ||| v &&& wrDioInoutValue ||| v &&& wrDioInoutOutput ||| v &&& wrDioInoutTerm = bits
    at hbits ⊢
  have hdio : bits.testBit 0 = v.testBit 0 := by simp [hbits]
  have hvalue : bits.testBit 8 = v.testBit 8 := by simp [hbits]
  have houtput : bits.testBit 16 = v.testBit 16 := by simp [hbits]
  have hterm : bits.testBit 24 = v.testBit 24 := by simp [hbits]
  rw [ChannelMode.ofBits]
  generalize v.testBit 0 = dio at hdio ⊢
  generalize v.testBit 8 = value at hvalue ⊢
  generalize v.testBit 16 = output at houtput ⊢
  generalize v.testBit 24 = term at hterm ⊢
  clear hbits
  simp only [decodeModeDescription, ChannelMode.describe, wrDioInoutDio, wrDioInoutValue, wrDioInoutOutput,
    wrDioInoutTerm, ne_eq, and_bit_eq_zero, hdio, hvalue, houtput, hterm, Bool.not_eq_false]
  cases dio <;> cases value <;> cases output <;> simp

theorem mem_chosen_mask (words : ModeWords) (flags : ℕ) (hflags : flags &&& wrDioFMask ≠ 0) :
    ch ∈ InoutCmd.chosen ⟨⟨words.channel, flags⟩, words.value⟩ ↔ ch < 5 ∧ words.channel.testBit ch = true := by
  rw [InoutCmd.chosen, List.mem_filter, DioDevice.WrDioCmd.channels, DioDevice.WrDioCmd.mask, if_pos hflags,
    if_pos hflags, Nat.and_comm, decide_eq_true_eq, Ne, and_bit_eq_zero, Bool.not_eq_false]
  apply and_congr_left
  intro _
  simp only [List.mem_cons, List.not_mem_nil, or_false]
  omega

/-- The texts of the channels in a mask. -/
def texts (r : ModeRegs) (mask : ℕ) : List (ℕ × String) :=
  ((List.range 5).filter fun ch => mask.testBit ch).map fun ch => (ch, (r.mode ch).describe)

/-- The answer to a command that reads the modes. -/
theorem wrnDioCmdInout_get (r : ModeRegs) (mask : ℕ) : wrnDioCmdInout r ⟨⟨mask, wrDioFMask ||| wrDioFGet⟩, 0⟩ =
    (r, ⟨⟨mask, wrDioFMask ||| wrDioFGet⟩,
      ChannelMode.layouts r.mode (InoutCmd.chosen ⟨⟨mask, wrDioFMask ||| wrDioFGet⟩, 0⟩)⟩) := by
  rw [wrnDioCmdInout, if_pos (show (wrDioFMask ||| wrDioFGet) &&& wrDioFGet ≠ 0 by decide), ModeRegs.getChannels_eq,
    Nat.zero_or]

/-- A reply with the modes of the channels in a mask prints their texts. -/
theorem printModeReply_layouts (r : ModeRegs) (mask : ℕ) :
    printModeReply mask (ChannelMode.layouts r.mode (InoutCmd.chosen ⟨⟨mask, wrDioFMask ||| wrDioFGet⟩, 0⟩)) =
      texts r mask := by
  have hmem := fun ch => @mem_chosen_mask ch ⟨mask, 0⟩ (wrDioFMask ||| wrDioFGet) (by decide)
  have hfilter : (List.range 5).filter (fun ch => decide (mask &&& 1 <<< ch ≠ 0)) =
      (List.range 5).filter fun ch => mask.testBit ch := by
    apply List.filter_congr
    intro ch _
    simp only [ne_eq, and_bit_eq_zero, Bool.not_eq_false, Bool.decide_eq_true]
  rw [printModeReply, texts, hfilter]
  apply List.map_congr_left
  intro ch hch
  obtain ⟨hrange, hbit⟩ := List.mem_filter.mp hch
  have hlt := List.mem_range.mp hrange
  dsimp only
  rw [decodeModeDescription_eq, ChannelMode.ofBits_layouts, if_pos ((hmem ch).mpr ⟨hlt, hbit⟩)]
  · intro other hother
    have hother := ((hmem other).mp hother).1
    omega
  · omega

theorem modeTool_get {args : ModeArgs} {mask : ℕ}
    (hargs : scanInout args = some ⟨⟨mask, wrDioFMask ||| wrDioFGet⟩, 0⟩) (r : ModeRegs) :
    modeTool r args = some (r, texts r mask) := by
  rw [modeTool, hargs, Option.map_some, wrnDioCmdInout_get, ← printModeReply_layouts]
  dsimp only
  rw [if_pos (show (wrDioFMask ||| wrDioFGet) &&& wrDioFGet ≠ 0 by decide)]

theorem modeTool_all (r : ModeRegs) :
    modeTool r .all = some (r, (List.range 5).map fun ch => (ch, (r.mode ch).describe)) := by
  rw [modeTool_get rfl, texts]
  rfl

/-- A command that sets modes sets those of its words. -/
theorem mode_set {words : ModeWords} {modes : ℕ → Option ChannelMode} (h : Says words modes) (r : ModeRegs) (ch : ℕ) :
    (wrnDioCmdInout r ⟨⟨words.channel, wrDioFMask⟩, words.value⟩).1.mode ch =
      if ch < 5 then (modes ch).getD (r.mode ch) else r.mode ch := by
  rw [InoutCmd.set_eq (show wrDioFMask &&& wrDioFGet = 0 from rfl), ModeRegs.mode_setModes]
  have hmem := @mem_chosen_mask ch words wrDioFMask (by decide)
  rw [h.channel] at hmem
  by_cases hlt : ch < 5
  · rw [if_pos hlt]
    cases hmode : modes ch with
    | none =>
      rw [hmode] at hmem
      rw [if_neg (by rw [hmem]; simp)]
      rfl
    | some m =>
      rw [hmode] at hmem
      rw [if_pos (hmem.mpr ⟨hlt, rfl⟩), InoutCmd.bits,
        if_pos (show wrDioFMask &&& wrDioFMask ≠ 0 by decide), h.value ch (by omega), hmode]
      rfl
  · rw [if_neg hlt, if_neg fun hchosen => hlt (hmem.mp hchosen).1]

end Texts

/-- The arguments with which the tool does not complain. -/
def ModeArgs.Accepted : ModeArgs → Prop
  | all => True
  | one ch => ch ≤ 4
  | letters s => s.length = 5 ∧ ∀ p ∈ (List.range 5).zip s, LetterFor p
  | pairs l => (1 ≤ l.length ∧ l.length ≤ 5 ∧ ∀ p ∈ l, p.1 ≤ 4) ∧ ∀ p ∈ l, LetterFor p

/-- Arguments that set modes become a command that says what they mean. -/
theorem scanInout_set {args : ModeArgs} (h : args.Accepted) :
    (∃ mask, scanInout args = some ⟨⟨mask, wrDioFMask ||| wrDioFGet⟩, 0⟩ ∧ args.settings = []) ∨
      ∃ words, scanInout args = some ⟨⟨words.channel, wrDioFMask⟩, words.value⟩ ∧ Says words (meant args.settings) := by
  cases args with
  | all => exact .inl ⟨0x1f, rfl, rfl⟩
  | one ch => exact .inl ⟨1 <<< ch, if_pos h, rfl⟩
  | letters s =>
    obtain ⟨hlength, hletters⟩ := h
    have hchs : ∀ p ∈ (List.range 5).zip s, p.1 < 8 := by
      intro p hp
      have hlt := List.mem_range.mp (List.of_mem_zip hp).1
      omega
    obtain ⟨words, hwords, hsays⟩ := oneModes_says says_none hchs hletters
    exact .inr ⟨words, by rw [scanInout, if_pos hlength, hwords, Option.map_some], hsays⟩
  | pairs l =>
    obtain ⟨hpairs, hletters⟩ := h
    have hchs : ∀ p ∈ l, p.1 < 8 := fun p hp => (hpairs.2.2 p hp).trans_lt (by decide)
    obtain ⟨words, hwords, hsays⟩ := oneModes_says says_none hchs hletters
    exact .inr ⟨words, by rw [scanInout, if_pos hpairs, hwords, Option.map_some], hsays⟩

theorem scanInout_refused {args : ModeArgs} (h : ¬ args.Accepted) : scanInout args = none := by
  cases args with
  | all => exact absurd trivial h
  | one ch => exact if_neg h
  | letters s =>
    rw [scanInout]
    by_cases hlength : s.length = 5
    · rw [if_pos hlength, oneModes_refused fun hletters => h ⟨hlength, hletters⟩]
      rfl
    · rw [if_neg hlength]
  | pairs l =>
    rw [scanInout]
    by_cases hpairs : 1 ≤ l.length ∧ l.length ≤ 5 ∧ ∀ p ∈ l, p.1 ≤ 4
    · rw [if_pos hpairs, oneModes_refused fun hletters => h ⟨hpairs, hletters⟩]
      rfl
    · rw [if_neg hpairs]

/-- Whatever the modes were, after the tool has run each channel of the device has the mode that the letters for it
mean, or the one it had, and the tool prints just these when it is asked for them. It runs exactly with the arguments
that it accepts. -/
theorem modes_shown (r : ModeRegs) (args : ModeArgs) : ((modeTool r args).isSome ↔ args.Accepted) ∧
    ∀ t shown, modeTool r args = some (t, shown) →
      (∀ ch, t.mode ch = if ch < 5 then (meant args.settings ch).getD (r.mode ch) else r.mode ch) ∧
        t.iomode >>> 20 = r.iomode >>> 20 ∧
        modeTool t .all =
          some (t, (List.range 5).map fun ch => (ch, ((meant args.settings ch).getD (r.mode ch)).describe)) := by
  have hrefused : ¬ args.Accepted → modeTool r args = none := fun h => by rw [modeTool, scanInout_refused h]; rfl
  by_cases haccepted : args.Accepted
  · rcases scanInout_set haccepted with ⟨mask, hcmd, hsettings⟩ | ⟨words, hcmd, hsays⟩
    · have hget := modeTool_get hcmd r
      refine ⟨by rw [hget]; exact ⟨fun _ => haccepted, fun _ => rfl⟩, fun t shown ht => ?_⟩
      rw [hget] at ht
      cases ht
      rw [hsettings, modeTool_all]
      exact ⟨fun ch => by simp [meant], rfl, rfl⟩
    · have hset : modeTool r args = some ((wrnDioCmdInout r ⟨⟨words.channel, wrDioFMask⟩, words.value⟩).1, []) := by
        rw [modeTool, hcmd, Option.map_some]
        dsimp only
        rw [if_neg (by decide)]
      refine ⟨by rw [hset]; exact ⟨fun _ => haccepted, fun _ => rfl⟩, fun t shown ht => ?_⟩
      rw [hset] at ht
      cases ht
      refine ⟨mode_set hsays r, ?_, ?_⟩
      · exact (InoutCmd.set_frame (show wrDioFMask &&& wrDioFGet = 0 from rfl)
          (.inl (show wrDioFMask &&& wrDioFMask ≠ 0 by decide)) r).2
      · rw [modeTool_all]
        congr 2
        apply List.map_congr_left
        intro ch hch
        rw [mode_set hsays, if_pos (List.mem_range.mp hch)]
  · refine ⟨by rw [hrefused haccepted]; simp [haccepted], fun t shown ht => ?_⟩
    rw [hrefused haccepted] at ht
    cases ht

/-- The third channel stays an input. -/
theorem modes_shown_letters : ∃ t, modeTool ⟨0x44444, 0⟩ (.letters ['p', 'd', '-', 'I', '1']) = some (t, []) ∧
    modeTool t .all = some (t, [(0, "DIO pulse output"), (1, "DIO regular output"), (2, "Logic input"),
      (3, "Logic input with termination"), (4, "Logic output high (1)")]) := by
  obtain ⟨-, hall⟩ := modes_shown ⟨0x44444, 0⟩ (.letters ['p', 'd', '-', 'I', '1'])
  exact ⟨_, rfl, (hall _ _ rfl).2.2⟩

end WhiteRabbit.Dio
