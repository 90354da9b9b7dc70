import WhiteRabbit.EepromDialogues

/-!
# The chip at the other end of the bus

An EEPROM takes its address, the two bytes of an offset and the bytes to store. After a write it is busy and does not
answer to its address for a while. A frame that reads goes on where the last one ended. The dialogues of the driver are
transfers between its memory and the caller.
-/

namespace WhiteRabbit.Spec
open TwoWireBus

/-- The bytes of a frame, each with its ninth bit. -/
def octets : List Bool → List (List Bool)
  | a :: b :: c :: d :: e :: f :: g :: h :: i :: rest => [a, b, c, d, e, f, g, h, i] :: octets rest
  | _ => []

/-- The value of some bits, most significant first. -/
def number (bits : List Bool) : ℕ := bits.foldl (fun v b => 2 * v + b.toNat) 0

/-- Bytes stored from an offset on. -/
def storeBytes (mem : ℕ → UInt8) : ℕ → List UInt8 → ℕ → UInt8
  | _, [] => mem
  | offset, c :: data => storeBytes (Function.update mem offset c) (offset + 1) data

/-- `delay` tells how often the chip refuses its address after each write. `bits` are those of the frame that is
open. -/
structure Chip where
  addr : ℕ
  delay : ℕ → ℕ
  mem : ℕ → UInt8
  pointer : ℕ := 0
  busy : ℕ := 0
  writes : ℕ := 0
  bits : Option (List Bool) := none

namespace Chip

/-- A frame is stopped. -/
def finish (c : Chip) (bits : List Bool) : Chip :=
  match octets bits with
  | [] => c
  | head :: rest =>
    if head.take 7 ≠ msbFirst 7 c.addr then c
    else if head[8]? ≠ some false then { c with busy := c.busy - 1 }
    else if head[7]? = some true then { c with pointer := c.pointer + rest.length }
    else
      match rest with
      | hi :: lo :: data =>
        let offset := 256 * number (hi.take 8) + number (lo.take 8)
        { c with
          mem := storeBytes c.mem offset (data.map fun octet => UInt8.ofNat (number (octet.take 8)))
          pointer := offset + data.length
          busy := if data = [] then 0 else c.delay c.writes
          writes := if data = [] then c.writes else c.writes + 1 }
      | _ => c

def hear (c : Chip) : Symbol → Chip
  | .start => { c with bits := some [] }
  | .bit b => { c with bits := c.bits.map (· ++ [b]) }
  | .stop => { c.finish (c.bits.getD []) with bits := none }

/-- The level of SDA when it is the turn of the chip. -/
def answer (c : Chip) : Bool :=
  match c.bits with
  | none => true
  | some bits =>
    if bits.length = 8 then !(decide (bits.take 7 = msbFirst 7 c.addr) && decide (c.busy = 0))
    else if bits.take 7 ≠ msbFirst 7 c.addr ∨ bits[8]? ≠ some false then true
    else if bits[7]? = some true then
      (c.mem (c.pointer + (bits.length / 9 - 1))).toNat.testBit (7 - bits.length % 9)
    else false

/-- The chip after what was heard. -/
def after (c : Chip) (h : List Symbol) : Chip := h.foldl hear c

def slave (c : Chip) : Slave := ⟨fun h => (c.after h).answer⟩

variable {c : Chip} {h : List Symbol} {bits byte : List Bool}

theorem after_snoc (c : Chip) (h : List Symbol) (x : Symbol) : c.after (h ++ [x]) = (c.after h).hear x := by
  rw [after, after, List.foldl_append, List.foldl_cons, List.foldl_nil]

theorem after_said (c : Chip) (h : List Symbol) (more : List Bool) :
    c.after (h ++ said more) = { c.after h with bits := (c.after h).bits.map (· ++ more) } := by
  induction more using List.reverseRecOn with
  | nil =>
    rw [said, List.map_nil, List.append_nil]
    cases hbits : (c.after h).bits with
    | none => simp [← hbits]
    | some bits => simp [← hbits]
  | append_singleton more b ih =>
    rw [said_snoc, ← List.append_assoc, after_snoc, ih, hear]
    simp only [Option.map_map]
    congr 2
    funext bits
    exact List.append_assoc _ _ _

end Chip

theorem octets_append {x : List Bool} (hx : x.length = 9) (rest : List Bool) : octets (x ++ rest) = x :: octets rest := by
  match x, hx with
  | [_, _, _, _, _, _, _, _, _], _ => rfl

theorem number_snoc (bits : List Bool) (b : Bool) : number (bits ++ [b]) = 2 * number bits + b.toNat := by
  rw [number, number, List.foldl_append, List.foldl_cons, List.foldl_nil]

theorem number_msbFirst (n v : ℕ) : number (msbFirst n v) = v % 2 ^ n := by
  induction n generalizing v with
  | zero => rw [pow_zero, Nat.mod_one]; rfl
  | succ n ih =>
    rw [msbFirst_snoc, number_snoc, ih, Nat.testBit_zero, Nat.pow_succ']
    have hdiv := Nat.mod_mul (x := v) (a := 2) (b := 2 ^ n)
    have hbit : (decide (v % 2 = 1)).toNat = v % 2 := by
      rcases Nat.mod_two_eq_zero_or_one v with hv | hv <;> simp [hv]
    omega

namespace Chip

variable {c now : Chip} {h : List Symbol} {bits byte more : List Bool} {read : Bool}

/-- Nothing is being said, and the chip has come to some state. -/
structure Rests (c : Chip) (h : List Symbol) (now : Chip) : Prop where
  frame_eq : frame h = none
  after_eq : c.after h = now

/-- A frame is open, with some bits. -/
structure Hears (c : Chip) (h : List Symbol) (now : Chip) (bits : List Bool) : Prop where
  frame_eq : frame h = some bits
  after_eq : c.after h = { now with bits := some bits }

theorem Rests.start (hr : c.Rests h now) : c.Hears (h ++ [.start]) now [] :=
  ⟨frame_start h, by rw [after_snoc, hr.after_eq]; rfl⟩

theorem Hears.said (hh : c.Hears h now bits) (more : List Bool) : c.Hears (h ++ said more) now (bits ++ more) :=
  ⟨frame_said hh.frame_eq more, by rw [after_said, hh.after_eq]; rfl⟩

theorem Hears.bit (hh : c.Hears h now bits) (b : Bool) : c.Hears (h ++ [.bit b]) now (bits ++ [b]) :=
  hh.said [b]

theorem finish_open (c : Chip) (open' : Option (List Bool)) (bits : List Bool) :
    ({ c with bits := open' } : Chip).finish bits = { c.finish bits with bits := open' } := by
  rw [finish, finish]
  cases octets bits with
  | nil => rfl
  | cons head rest =>
    dsimp only
    split
    · rfl
    split
    · rfl
    split
    · rfl
    rcases rest with - | ⟨hi, - | ⟨lo, data⟩⟩
    · rfl
    · rfl
    · rfl

theorem Hears.stop (hh : c.Hears h now bits) : c.Rests (h ++ [.stop]) { now.finish bits with bits := none } :=
  ⟨frame_stop h, by rw [after_snoc, hh.after_eq, hear, Option.getD_some, finish_open]⟩

/-- The bits of a frame in which the chip has acknowledged its address. -/
structure Selected (addr : ℕ) (read : Bool) (bits : List Bool) : Prop where
  head : ∃ more, bits = address addr read ++ [false] ++ more

theorem Selected.facts (hs : Selected now.addr read bits) :
    9 ≤ bits.length ∧ bits.take 7 = msbFirst 7 now.addr ∧ bits[7]? = some read ∧ bits[8]? = some false := by
  obtain ⟨more, rfl⟩ := hs.head
  have hlen : (address now.addr read ++ [false]).length = 9 := by rw [List.length_append, address_length]; rfl
  refine ⟨?_, ?_, ?_, ?_⟩
  · rw [List.length_append, hlen]
    omega
  · rw [List.take_append_of_le_length (by omega), address, List.append_assoc,
      List.take_left' (msbFirst_length 7 now.addr)]
  · rw [List.getElem?_append_left (by omega), List.getElem?_append_left (by rw [address_length]; omega)]
    exact address_direction now.addr read
  · rw [List.getElem?_append_left (by omega), List.getElem?_append_right (by rw [address_length]), address_length]
    rfl

theorem Selected.append (hs : Selected now.addr read bits) (more : List Bool) :
    Selected now.addr read (bits ++ more) := by
  obtain ⟨more', rfl⟩ := hs.head
  exact ⟨more' ++ more, List.append_assoc _ _ _⟩

/-- The chip drives SDA when it is its turn. -/
theorem Hears.drive (hh : c.Hears h now bits) (hturn : slaveTurn bits = true) :
    c.slave.drive h = ({ now with bits := some bits } : Chip).answer := by
  rw [Slave.drive, hh.frame_eq]
  dsimp only
  rw [if_pos hturn, ← hh.after_eq]
  rfl

/-- START and the address of the chip: it answers unless it is busy. -/
theorem Rests.call (hr : c.Rests h now) (read : Bool) :
    refusesAddress c.slave now.addr read h = decide (now.busy ≠ 0) ∧
      c.Hears (addressed c.slave now.addr read h) now (address now.addr read ++ [decide (now.busy ≠ 0)]) := by
  have hheard := hr.start.said (address now.addr read)
  rw [List.nil_append] at hheard
  have hrefuses : c.slave.refuses (h ++ [.start]) (address now.addr read) = decide (now.busy ≠ 0) := by
    have hturn : slaveTurn (address now.addr read) = true := by
      rw [slaveTurn, if_pos (by rw [address_length]), address_length]
      rfl
    have htake : (address now.addr read).take 7 = msbFirst 7 now.addr := List.take_left' (msbFirst_length 7 now.addr)
    rw [Slave.refuses, hheard.drive hturn, answer]
    simp [address_length, htake]
  refine ⟨hrefuses, ?_⟩
  rw [addressed, Slave.sent, hrefuses]
  exact hheard.bit _

/-- A byte for the chip is acknowledged. -/
theorem Hears.sent (hh : c.Hears h now bits) (hs : Selected now.addr false bits) (hwhole : bits.length % 9 = 0)
    (hbyte : byte.length = 8) : c.Hears (c.slave.sent h byte) now (bits ++ byte ++ [false]) := by
  obtain ⟨hlong, -⟩ := hs.facts
  obtain ⟨-, htake, hseven, height⟩ := (hs.append byte).facts
  have hlen : (bits ++ byte).length = bits.length + 8 := by rw [List.length_append, hbyte]
  have hturn : slaveTurn (bits ++ byte) = true := by
    rw [slaveTurn, if_neg (by omega), if_neg (by rw [hseven]; simp), hlen]
    simp
    omega
  have hanswer : c.slave.refuses h byte = false := by
    rw [Slave.refuses, (hh.said byte).drive hturn, answer]
    dsimp only
    rw [if_neg (by omega), if_neg (by simp [htake, height]), if_neg (by rw [hseven]; simp)]
  rw [Slave.sent, hanswer]
  exact (hh.said byte).bit false

section Frames

variable {offset : ℕ} {d : UInt8}

theorem length_ninth {bits : List Bool} (hbits : bits.length = 8) (x : Bool) : (bits ++ [x]).length = 9 := by
  rw [List.length_append, hbits]
  rfl

theorem address_facts (addr : ℕ) (read x : Bool) : (address addr read ++ [x]).take 7 = msbFirst 7 addr ∧
    (address addr read ++ [x])[7]? = some read ∧ (address addr read ++ [x])[8]? = some x := by
  refine ⟨?_, ?_, ?_⟩
  · rw [address, List.append_assoc, List.take_left' (msbFirst_length 7 addr)]
  · rw [List.getElem?_append_left (by rw [address_length]; omega), address_direction]
  · rw [List.getElem?_append_right (by rw [address_length]), address_length]
    rfl

/-- A frame with its address refused. -/
theorem finish_refused (now : Chip) (read : Bool) :
    now.finish (address now.addr read ++ [true]) = { now with busy := now.busy - 1 } := by
  have hoctets := octets_append (length_ninth (address_length now.addr read) true) []
  obtain ⟨htake, -, height⟩ := address_facts now.addr read true
  rw [List.append_nil] at hoctets
  rw [finish, hoctets]
  dsimp only
  rw [if_neg (not_not_intro htake), if_pos (by rw [height]; simp)]

/-- A frame that writes, by the bytes behind its address. -/
theorem finish_selected (now : Chip) (rest : List Bool) :
    now.finish (address now.addr false ++ [false] ++ rest) =
      match octets rest with
      | hi :: lo :: data =>
        let offset := 256 * number (hi.take 8) + number (lo.take 8)
        { now with
          mem := storeBytes now.mem offset (data.map fun octet => UInt8.ofNat (number (octet.take 8)))
          pointer := offset + data.length
          busy := if data = [] then 0 else now.delay now.writes
          writes := if data = [] then now.writes else now.writes + 1 }
      | _ => now := by
  obtain ⟨htake, hseven, height⟩ := address_facts now.addr false false
  rw [finish, octets_append (length_ninth (address_length now.addr false) false)]
  dsimp only
  rw [if_neg (not_not_intro htake), if_neg (not_not_intro height), if_neg (by rw [hseven]; simp)]

theorem take_ninth (v : ℕ) (x : Bool) : number ((msbFirst 8 v ++ [x]).take 8) = v % 256 := by
  rw [List.take_left' (msbFirst_length 8 v), number_msbFirst]
  rfl

/-- A frame that sets the offset. -/
theorem finish_located (now : Chip) (hoffset : offset < 2 ^ 16) :
    now.finish (address now.addr false ++ [false] ++
        (msbFirst 8 (offset / 256) ++ [false] ++ (msbFirst 8 offset ++ [false]))) =
      { now with pointer := offset, busy := 0 } := by
  have hlow := octets_append (length_ninth (msbFirst_length 8 offset) false) []
  rw [List.append_nil] at hlow
  have hnumber : 256 * (offset / 256 % 256) + offset % 256 = offset := by omega
  rw [finish_selected, octets_append (length_ninth (msbFirst_length 8 (offset / 256)) false), hlow]
  simp only [octets, take_ninth, hnumber, List.map_nil, storeBytes, List.length_nil, Nat.add_zero, if_true]

/-- A frame that stores a byte. -/
theorem finish_stored (now : Chip) (hoffset : offset < 2 ^ 16) :
    now.finish (address now.addr false ++ [false] ++
        (msbFirst 8 (offset / 256) ++ [false] ++ (msbFirst 8 offset ++ [false] ++ (byteBits d ++ [false])))) =
      { now with
        mem := Function.update now.mem offset d
        pointer := offset + 1
        busy := now.delay now.writes
        writes := now.writes + 1 } := by
  have hbyte := octets_append (length_ninth (msbFirst_length 8 d.toNat) false) []
  rw [List.append_nil] at hbyte
  have hnumber : 256 * (offset / 256 % 256) + offset % 256 = offset := by omega
  have hd : UInt8.ofNat (number ((byteBits d ++ [false]).take 8)) = d := by
    rw [byteBits, take_ninth, Nat.mod_eq_of_lt (UInt8.toNat_lt d), UInt8.ofNat_toNat]
  rw [finish_selected, octets_append (length_ninth (msbFirst_length 8 (offset / 256)) false),
    octets_append (length_ninth (msbFirst_length 8 offset) false), byteBits, hbyte, ← byteBits]
  simp only [octets, take_ninth, hnumber, List.map_cons, List.map_nil, storeBytes, hd, List.length_cons, List.length_nil,
    Nat.zero_add, List.cons_ne_nil, if_false]

end Frames

section Transfers

/-- Polls, until the chip is not busy. -/
theorem Rests.poll (hr : c.Rests h now) (hfree : now.bits = none) {polls : ℕ} (hpolls : now.busy < polls) :
    (polled c.slave now.addr polls h).2 = true ∧
      c.Rests (polled c.slave now.addr polls h).1 { now with busy := 0 } := by
  induction polls generalizing h now with
  | zero => omega
  | succ polls ih =>
    obtain ⟨hrefuses, hheard⟩ := hr.call false
    rw [polled, hrefuses]
    by_cases hbusy : now.busy = 0
    · have hzero : decide (now.busy ≠ 0) = false := by simp [hbusy]
      rw [hzero] at hheard ⊢
      have hstop := hheard.stop
      have hsame : now.finish (address now.addr false ++ [false]) = now := by
        have := finish_selected now []
        rwa [List.append_nil] at this
      rw [hsame] at hstop
      have hnow : ({ now with bits := none } : Chip) = { now with busy := 0 } := by rw [← hfree, ← hbusy]
      rw [hnow] at hstop
      exact ⟨rfl, hstop⟩
    · have hone : decide (now.busy ≠ 0) = true := by simp [hbusy]
      rw [hone] at hheard ⊢
      have hstop := hheard.stop
      rw [finish_refused] at hstop
      have hrest := @ih { now with busy := now.busy - 1, bits := none } _ hstop rfl (by dsimp only; omega)
      rwa [← hfree] at hrest

/-- The two bytes of an offset. -/
theorem Hears.locate (hh : c.Hears h now (address now.addr false ++ [false])) (offset : ℕ) :
    c.Hears (located c.slave offset h) now
      (address now.addr false ++ [false] ++ (msbFirst 8 (offset / 256) ++ [false]) ++ (msbFirst 8 offset ++ [false])) := by
  have hselected : Selected now.addr false (address now.addr false ++ [false]) := ⟨⟨[], (List.append_nil _).symm⟩⟩
  have hhigh := hh.sent hselected (by rw [length_ninth (address_length now.addr false)])
    (msbFirst_length 8 (offset / 256))
  have hlow := hhigh.sent ⟨⟨_, List.append_assoc _ _ _⟩⟩ (by simp [address_length, msbFirst_length])
    (msbFirst_length 8 offset)
  rw [List.append_assoc _ (msbFirst 8 (offset / 256)), List.append_assoc _ (msbFirst 8 offset)] at hlow
  exact hlow

/-- The write of a byte, with the polls after it. -/
theorem Rests.write (hr : c.Rests h now) (hfree : now.bits = none) (hready : now.busy = 0) {offset : ℕ}
    (hoffset : offset < 2 ^ 16) (d : UInt8) :
    refusesAddress c.slave now.addr false h = false ∧
      c.Rests (c.slave.sent (located c.slave offset (addressed c.slave now.addr false h)) (byteBits d) ++ [.stop])
        { now with
          mem := Function.update now.mem offset d
          pointer := offset + 1
          busy := now.delay now.writes
          writes := now.writes + 1 } := by
  obtain ⟨hrefuses, hheard⟩ := hr.call false
  have hzero : decide (now.busy ≠ 0) = false := by simp [hready]
  rw [hzero] at hheard hrefuses
  have hlocated := hheard.locate offset
  have hstored := hlocated.sent ⟨⟨_, List.append_assoc _ _ _⟩⟩ (by simp [address_length, msbFirst_length])
    (show (byteBits d).length = 8 from msbFirst_length 8 d.toNat)
  have hstop := hstored.stop
  have hbits : address now.addr false ++ [false] ++ (msbFirst 8 (offset / 256) ++ [false]) ++ (msbFirst 8 offset ++ [false]) ++
      byteBits d ++ [false] = address now.addr false ++ [false] ++
        (msbFirst 8 (offset / 256) ++ [false] ++ (msbFirst 8 offset ++ [false] ++ (byteBits d ++ [false]))) := by
    simp only [List.append_assoc]
  rw [hbits, finish_stored now hoffset] at hstop
  rw [← hfree] at hstop
  exact ⟨hrefuses, hstop⟩

/-- The write of some bytes, to a chip that is ready before the polls run out. -/
theorem Rests.writes {polls : ℕ} (hr : c.Rests h now) (hfree : now.bits = none) (hready : now.busy = 0)
    (hdelay : ∀ n, now.delay n < polls) {offset : ℕ} {data : List UInt8} (hfit : offset + data.length ≤ 2 ^ 16) :
    (writeDialogue c.slave now.addr polls offset data h).2 = .complete ∧
      ∃ pointer writes, c.Rests (writeDialogue c.slave now.addr polls offset data h).1
        { now with mem := storeBytes now.mem offset data, pointer := pointer, writes := writes } := by
  induction data generalizing offset h now with
  | nil => exact ⟨rfl, now.pointer, now.writes, hr⟩
  | cons d data ih =>
    rw [List.length_cons] at hfit
    obtain ⟨hrefuses, hstored⟩ := hr.write hfree hready (show offset < 2 ^ 16 by omega) d
    obtain ⟨hdone, hpolled⟩ := hstored.poll hfree (hdelay _)
    rw [writeDialogue, hrefuses, if_neg Bool.false_ne_true]
    dsimp only at hdone hpolled ⊢
    rw [hdone, if_pos rfl]
    obtain ⟨hcomplete, pointer, writes, hrests⟩ := ih hpolled hfree rfl hdelay (show offset + 1 + data.length ≤ 2 ^ 16 by omega)
    refine ⟨hcomplete, pointer, writes, ?_⟩
    rw [← hready] at hrests
    exact hrests

/-- The chip sends bytes, and has sent some. -/
structure Sends (c : Chip) (h : List Symbol) (now : Chip) (n : ℕ) (bits : List Bool) : Prop where
  heard : c.Hears h now bits
  selected : Selected now.addr true bits
  length_eq : bits.length = 9 * (n + 1)
  low : ∀ i < bits.length, i % 9 = 8 → bits[i]? = some false

/-- The bits of a byte, from one of them on. -/
theorem Sends.rest {n : ℕ} (hs : c.Sends h now n bits) {j : ℕ} {done : List Bool} (hdone : done.length + j = 8) :
    c.slave.bits j (h ++ said done) = msbFirst j (now.mem (now.pointer + n)).toNat := by
  induction j generalizing done with
  | zero => rfl
  | succ j ih =>
    have hheard := hs.heard.said done
    obtain ⟨hlong, htake, hseven, height⟩ := (hs.selected.append done).facts
    have hlen : (bits ++ done).length = 9 * (n + 1) + done.length := by rw [List.length_append, hs.length_eq]
    have hturn : slaveTurn (bits ++ done) = true := by
      rw [slaveTurn, if_neg (by omega), if_pos hseven, Bool.and_eq_true, decide_eq_true_iff]
      refine ⟨by omega, List.all_eq_true.mpr fun i hi => ?_⟩
      rw [List.mem_range, hlen] at hi
      by_cases hninth : i % 9 = 8
      · have hin : i < bits.length := by
          rw [hs.length_eq]
          omega
        rw [List.getElem?_append_left hin, hs.low i hin hninth]
        simp
      · simp [hninth]
    have hdrive : c.slave.drive (h ++ said done) = (now.mem (now.pointer + n)).toNat.testBit j := by
      have hbyte : (bits ++ done).length / 9 - 1 = n := by omega
      have hbit : 7 - (bits ++ done).length % 9 = j := by omega
      rw [hheard.drive hturn, answer]
      dsimp only
      rw [if_neg (by omega), if_neg (by simp [htake, height]), if_pos hseven, hbyte, hbit]
    have hnext := @ih (done ++ [(now.mem (now.pointer + n)).toNat.testBit j])
      (by rw [List.length_append, List.length_singleton]; omega)
    rw [said_snoc, ← List.append_assoc] at hnext
    rw [Slave.bits, hdrive, hnext, msbFirst]

theorem Sends.byte_bits {n : ℕ} (hs : c.Sends h now n bits) : c.slave.bits 8 h = byteBits (now.mem (now.pointer + n)) := by
  have hrest := hs.rest (show ([] : List Bool).length + 8 = 8 from rfl)
  rwa [said, List.map_nil, List.append_nil] at hrest

/-- A byte that the master acknowledges or not. -/
theorem Sends.received {n : ℕ} (hs : c.Sends h now n bits) (ack : Bool) :
    c.Hears (c.slave.received h ack) now (bits ++ c.slave.bits 8 h ++ [!ack]) :=
  (hs.heard.said _).bit _

theorem Sends.next {n : ℕ} (hs : c.Sends h now n bits) :
    c.Sends (c.slave.received h true) now (n + 1) (bits ++ c.slave.bits 8 h ++ [false]) where
  heard := hs.received true
  selected := (hs.selected.append _).append _
  length_eq := by
    rw [List.length_append, List.length_append, Slave.bits_length, hs.length_eq, List.length_singleton]
    omega
  low i hi hninth := by
    rw [List.length_append, List.length_append, Slave.bits_length, hs.length_eq, List.length_singleton] at hi
    by_cases hin : i < bits.length
    · rw [List.append_assoc, List.getElem?_append_left hin, hs.low i hin hninth]
    · rw [hs.length_eq] at hin
      have hlen : (bits ++ c.slave.bits 8 h).length = 9 * (n + 1) + 8 := by
        rw [List.length_append, Slave.bits_length, hs.length_eq]
      rw [List.getElem?_append_right (by omega), hlen]
      have hlast : i - (9 * (n + 1) + 8) = 0 := by omega
      rw [hlast]
      rfl

/-- The bytes of a read are those of the memory. -/
theorem Sends.receives {n size : ℕ} (hs : c.Sends h now n bits) (hsize : 1 ≤ size) :
    (receives c.slave size h).2 = (List.range size).map (fun i => byteBits (now.mem (now.pointer + n + i))) ∧
      ∃ more, Selected now.addr true more ∧ c.Hears (receives c.slave size h).1 now more := by
  induction size generalizing n h bits with
  | zero => omega
  | succ size ih =>
    rw [Spec.receives, hs.byte_bits]
    dsimp only
    rw [List.range_succ_eq_map, List.map_cons, List.map_map]
    cases size with
    | zero => exact ⟨rfl, _, (hs.selected.append _).append _, hs.received false⟩
    | succ size =>
      obtain ⟨hbytes, more, hselected, hheard⟩ := ih hs.next (Nat.succ_le_succ (Nat.zero_le size))
      refine ⟨?_, more, hselected, hheard⟩
      have hshift : (fun i => byteBits (now.mem (now.pointer + (n + 1) + i))) =
          (fun i => byteBits (now.mem (now.pointer + n + i))) ∘ Nat.succ := by
        funext i
        have hindex : now.pointer + (n + 1) + i = now.pointer + n + i.succ := by omega
        rw [Function.comp_apply, hindex]
      rw [show (size + 1 != 0) = true from rfl, hbytes, hshift]
      rfl

theorem finish_read (now : Chip) {bits : List Bool} (hs : Selected now.addr true bits) :
    ∃ pointer, now.finish bits = { now with pointer := pointer } := by
  obtain ⟨rest, rfl⟩ := hs.head
  obtain ⟨htake, hseven, height⟩ := address_facts now.addr true false
  refine ⟨now.pointer + (octets rest).length, ?_⟩
  rw [finish, octets_append (length_ninth (address_length now.addr true) false)]
  dsimp only
  rw [if_neg (not_not_intro htake), if_neg (not_not_intro height), if_pos hseven]

/-- The read of some bytes: a frame with the offset, and one that reads. -/
theorem Rests.reads (hr : c.Rests h now) (hfree : now.bits = none) (hready : now.busy = 0) {offset size : ℕ}
    (hsize : 1 ≤ size) (hoffset : offset < 2 ^ 16) :
    refusesAddress c.slave now.addr false h = false ∧
      (receives c.slave size
        (addressed c.slave now.addr true (located c.slave offset (addressed c.slave now.addr false h) ++ [.stop]))).2 =
          (List.range size).map (fun i => byteBits (now.mem (offset + i))) ∧
      ∃ pointer, c.Rests ((receives c.slave size (addressed c.slave now.addr true
        (located c.slave offset (addressed c.slave now.addr false h) ++ [.stop]))).1 ++ [.stop])
          { now with pointer := pointer } := by
  have hzero : decide (now.busy ≠ 0) = false := by simp [hready]
  obtain ⟨hrefuses, hheard⟩ := hr.call false
  rw [hzero] at hheard hrefuses
  have hstop := (hheard.locate offset).stop
  have hbits : address now.addr false ++ [false] ++ (msbFirst 8 (offset / 256) ++ [false]) ++ (msbFirst 8 offset ++ [false]) =
      address now.addr false ++ [false] ++ (msbFirst 8 (offset / 256) ++ [false] ++ (msbFirst 8 offset ++ [false])) := by
    simp only [List.append_assoc]
  rw [hbits, finish_located now hoffset] at hstop
  -- the chip is at the offset now, and sends its byte first
  obtain ⟨-, hagain⟩ := hstop.call true
  have hsends : c.Sends (addressed c.slave now.addr true (located c.slave offset (addressed c.slave now.addr false h) ++ [.stop]))
      { now with pointer := offset, busy := 0, bits := none } 0 (address now.addr true ++ [false]) :=
    ⟨hagain, ⟨⟨[], (List.append_nil _).symm⟩⟩, length_ninth (address_length now.addr true) false, by
      intro i hi hninth
      rw [length_ninth (address_length now.addr true)] at hi
      have hlast : i = 8 := by omega
      rw [hlast]
      exact (address_facts now.addr true false).2.2⟩
  obtain ⟨hbytes, more, hselected, hended⟩ := hsends.receives hsize
  obtain ⟨pointer, hfinish⟩ := finish_read _ hselected
  have hrests := hended.stop
  rw [hfinish] at hrests
  refine ⟨hrefuses, ?_, pointer, ?_⟩
  · rw [hbytes]
    rfl
  · rw [← hready, ← hfree] at hrests
    exact hrests

end Transfers

end Chip

end WhiteRabbit.Spec
