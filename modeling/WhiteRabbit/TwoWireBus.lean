import Mathlib.Data.List.Induction
import Mathlib.Data.Nat.Bitwise
import Mathlib.Tactic.Cases

/-!
# The standard two-wire bus

A data line and a clock line, either of which reads high unless somebody pulls it low. What a
listener hears is decoded from the levels alone, and the slave may pull the data line only where
the frame makes it its turn; a master then owes one fact per pin write about what is heard next.
-/

namespace WhiteRabbit.TwoWireBus

/-- The levels of the two lines. -/
structure Lines where
  sda : Bool
  scl : Bool
deriving DecidableEq, Repr

/-- What the levels of a bus say. -/
inductive Symbol where
  | start
  | stop
  | bit (b : Bool)
deriving DecidableEq, Repr

def Symbol.isCondition : Symbol → Bool
  | .bit _ => false
  | _ => true

/-- What a listener knows: the last levels, whether SDA has kept still since the clock rose,
and the symbols heard so far. -/
structure Listener where
  lines : Lines
  settled : Bool
  heard : List Symbol
deriving DecidableEq, Repr

def Listener.hear (l : Listener) (v : Lines) : Listener :=
  if l.lines.scl = true ∧ v.scl = true then
    if l.lines.sda = v.sda then l
    -- SDA moved under a high clock: falling is START, rising is STOP, and this clock carries no bit
    else ⟨v, false, l.heard ++ [if v.sda then .stop else .start]⟩
  else if v.scl = true then ⟨v, true, l.heard⟩
  else if l.lines.scl = true ∧ l.settled = true then ⟨v, false, l.heard ++ [.bit l.lines.sda]⟩
  else ⟨v, false, l.heard⟩

/-- A listener that meets a bus nobody has used. -/
def Listener.fresh : Listener := ⟨⟨true, true⟩, false, []⟩

def listen (wave : List Lines) : Listener := wave.foldl Listener.hear Listener.fresh

@[simp] theorem listen_nil : listen [] = Listener.fresh := rfl

theorem listen_snoc (wave : List Lines) (v : Lines) :
    listen (wave ++ [v]) = (listen wave).hear v := by
  simp [listen]

/-- The moves of SDA while the clock stays high, as the condition each of them is. -/
def moves : Lines → List Lines → List Symbol
  | _, [] => []
  | u, v :: wave =>
    if u.scl = true ∧ v.scl = true ∧ u.sda ≠ v.sda then
      (if v.sda then .stop else .start) :: moves v wave
    else moves v wave

private theorem hear_lines (l : Listener) (v : Lines) : (l.hear v).lines = v := by
  unfold Listener.hear
  split_ifs with hc hs
  · obtain ⟨hl, hv⟩ := hc
    cases v
    cases h : l.lines
    simp_all
  all_goals rfl

private theorem hear_conditions (l : Listener) (v : Lines) :
    (l.hear v).heard.filter Symbol.isCondition =
      l.heard.filter Symbol.isCondition ++ moves l.lines [v] := by
  unfold Listener.hear
  split_ifs with hc hs hv hb <;> simp_all [moves, Symbol.isCondition]

/-- Every move of SDA under a high clock is heard as a condition, and nothing else is. -/
theorem conditions_foldl (wave : List Lines) (l : Listener) :
    (wave.foldl Listener.hear l).heard.filter Symbol.isCondition =
      l.heard.filter Symbol.isCondition ++ moves l.lines wave := by
  induction wave generalizing l with
  | nil => simp [moves]
  | cons v wave ih =>
    rw [List.foldl_cons, ih, hear_conditions, hear_lines, List.append_assoc]
    congr 1
    simp only [moves]
    split_ifs <;> rfl

theorem conditions_listen (wave : List Lines) :
    (listen wave).heard.filter Symbol.isCondition = moves ⟨true, true⟩ wave :=
  conditions_foldl wave Listener.fresh

/-- The bits heard since the last START, when no STOP has come since. -/
def frame (h : List Symbol) : Option (List Bool) :=
  h.foldl (fun bits a => match a with
    | .start => some []
    | .stop => none
    | .bit b => bits.map (· ++ [b])) none

@[simp] theorem frame_start (h : List Symbol) : frame (h ++ [.start]) = some [] := by
  simp [frame]

@[simp] theorem frame_stop (h : List Symbol) : frame (h ++ [.stop]) = none := by
  simp [frame]

@[simp] theorem frame_bit (h : List Symbol) (b : Bool) :
    frame (h ++ [.bit b]) = (frame h).map (· ++ [b]) := by
  simp [frame]

/-- Bits as they are heard. -/
def said (bits : List Bool) : List Symbol := bits.map .bit

@[simp] theorem said_length (bits : List Bool) : (said bits).length = bits.length :=
  List.length_map _

theorem said_snoc (bits : List Bool) (b : Bool) : said (bits ++ [b]) = said bits ++ [.bit b] := by
  simp [said]

theorem frame_said {h : List Symbol} {bits : List Bool} (hf : frame h = some bits) (more : List Bool) :
    frame (h ++ said more) = some (bits ++ more) := by
  induction more using List.reverseRecOn with
  | nil => simpa [said] using hf
  | append_singleton more b ih =>
    rw [said_snoc, ← List.append_assoc, frame_bit, ih]
    simp

/-- Whose turn the next bit of a frame is. The master addresses; every ninth bit of a frame that
writes is the slave's. In a frame that reads the slave acknowledges the address, and drives
the eight bits of each byte as long as every ninth bit so far was low. -/
def slaveTurn (bits : List Bool) : Bool :=
  if bits.length ≤ 8 then bits.length == 8
  else if bits[7]? = some true then
    bits.length % 9 < 8 && (List.range bits.length).all fun i => i % 9 != 8 || bits[i]? == some false
  else bits.length % 9 == 8

/-- A slave that answers what it likes, knowing everything said on the bus. -/
structure Slave where
  answer : List Symbol → Bool

/-- The level a slave leaves on SDA: high, unless it is its turn. -/
def Slave.drive (s : Slave) (h : List Symbol) : Bool :=
  match frame h with
  | some bits => if slaveTurn bits then s.answer h else true
  | none => true

theorem Slave.drive_free (s : Slave) {h : List Symbol} (hf : frame h = none) : s.drive h = true := by
  simp [Slave.drive, hf]

theorem Slave.drive_idle (s : Slave) {h : List Symbol} {bits : List Bool} (hf : frame h = some bits)
    (hturn : slaveTurn bits = false) : s.drive h = true := by
  simp [Slave.drive, hf, hturn]

/-- The master's own levels of the pins and the levels the lines have taken. -/
structure Bus where
  pins : Lines
  wave : List Lines
deriving Repr

def Bus.heard (b : Bus) : List Symbol := (listen b.wave).heard

/-- The level of SDA that a read of the pin returns. -/
def Bus.sda (b : Bus) : Bool := (listen b.wave).lines.sda

/-- The lines as the wired AND of the master's pins and the slave's level. -/
def Slave.lines (s : Slave) (pins : Lines) (h : List Symbol) : Lines :=
  ⟨pins.sda && s.drive h, pins.scl⟩

/-- One pin write: the lines take the master's levels, then the slave moves if what it has
heard makes it. -/
def Bus.set (s : Slave) (b : Bus) (pins : Lines) : Bus :=
  let wave := b.wave ++ [s.lines pins b.heard]
  ⟨pins, wave ++ [s.lines pins (listen wave).heard]⟩

def Bus.setSda (s : Slave) (b : Bus) (val : Bool) : Bus := b.set s ⟨val, b.pins.scl⟩

def Bus.setScl (s : Slave) (b : Bus) (val : Bool) : Bus := b.set s ⟨b.pins.sda, val⟩

/-- Where a bus stands between two pin writes. -/
structure Bus.At (s : Slave) (b : Bus) (pins : Lines) (settled : Bool) (h : List Symbol) : Prop where
  pins_eq : b.pins = pins
  listen_eq : listen b.wave = ⟨s.lines pins h, settled, h⟩

section PinWrites
variable {s : Slave} {b : Bus} {x q : Bool} {h : List Symbol}

private theorem Bus.At.set {pins : Lines} {r : Bool} {k : List Symbol} (hb : b.At s pins q h)
    (hold new : Lines) (hhear : Listener.hear ⟨s.lines pins h, q, h⟩ (s.lines new h) = ⟨hold, r, k⟩)
    (hsettle : Listener.hear ⟨hold, r, k⟩ (s.lines new k) = ⟨s.lines new k, r, k⟩) :
    (b.set s new).At s new r k := by
  have hh : b.heard = h := by simp [Bus.heard, hb.listen_eq]
  refine ⟨rfl, ?_⟩
  simp only [Bus.set, listen_snoc, hb.listen_eq, hh, hhear]
  exact hsettle

/-- With the clock low SDA moves freely. -/
theorem Bus.At.sda_low (hb : b.At s ⟨x, false⟩ false h) (y : Bool) :
    (b.setSda s y).At s ⟨y, false⟩ false h := by
  rw [Bus.setSda, hb.pins_eq]
  exact hb.set (s.lines ⟨y, false⟩ h) ⟨y, false⟩ (by simp [Listener.hear, Slave.lines])
    (by simp [Listener.hear, Slave.lines])

theorem Bus.At.scl_low (hb : b.At s ⟨x, false⟩ false h) : (b.setScl s false).At s ⟨x, false⟩ false h := by
  rw [Bus.setScl, hb.pins_eq]
  exact hb.set (s.lines ⟨x, false⟩ h) ⟨x, false⟩ (by simp [Listener.hear, Slave.lines])
    (by simp [Listener.hear, Slave.lines])

theorem Bus.At.scl_rise (hb : b.At s ⟨x, false⟩ false h) : (b.setScl s true).At s ⟨x, true⟩ true h := by
  rw [Bus.setScl, hb.pins_eq]
  exact hb.set (s.lines ⟨x, true⟩ h) ⟨x, true⟩ (by simp [Listener.hear, Slave.lines])
    (by simp [Listener.hear, Slave.lines])

/-- The clock falls over a settled SDA: one bit, the wired AND of both sides. -/
theorem Bus.At.scl_fall (hb : b.At s ⟨x, true⟩ true h) :
    (b.setScl s false).At s ⟨x, false⟩ false (h ++ [.bit (x && s.drive h)]) := by
  rw [Bus.setScl, hb.pins_eq]
  -- the slave moves on to its next level only after the fall, under a low clock
  exact hb.set (s.lines ⟨x, false⟩ h) ⟨x, false⟩ (by simp [Listener.hear, Slave.lines])
    (by simp [Listener.hear, Slave.lines])

/-- The clock falls after a START: no bit. -/
theorem Bus.At.scl_fall_start (hb : b.At s ⟨x, true⟩ false h) :
    (b.setScl s false).At s ⟨x, false⟩ false h := by
  rw [Bus.setScl, hb.pins_eq]
  exact hb.set (s.lines ⟨x, false⟩ h) ⟨x, false⟩ (by simp [Listener.hear, Slave.lines])
    (by simp [Listener.hear, Slave.lines])

theorem Bus.At.start (hb : b.At s ⟨true, true⟩ q h) (hf : frame h = none) :
    (b.setSda s false).At s ⟨false, true⟩ false (h ++ [.start]) := by
  rw [Bus.setSda, hb.pins_eq]
  exact hb.set ⟨false, true⟩ ⟨false, true⟩ (by simp [Listener.hear, Slave.lines, s.drive_free hf])
    (by simp [Listener.hear, Slave.lines])

/-- SDA rises under a high clock: STOP, provided that the slave has let go of it. -/
theorem Bus.At.stop (hb : b.At s ⟨false, true⟩ q h) (hd : s.drive h = true) :
    (b.setSda s true).At s ⟨true, true⟩ false (h ++ [.stop]) := by
  rw [Bus.setSda, hb.pins_eq]
  exact hb.set ⟨true, true⟩ ⟨true, true⟩ (by simp [Listener.hear, Slave.lines, hd])
    (by simp [Listener.hear, Slave.lines, s.drive_free (frame_stop h)])

theorem Bus.At.heard_eq {pins : Lines} (hb : b.At s pins q h) : b.heard = h := by
  simp [Bus.heard, hb.listen_eq]

theorem Bus.At.sda_eq {pins : Lines} (hb : b.At s pins q h) : b.sda = (pins.sda && s.drive h) := by
  simp [Bus.sda, hb.listen_eq, Slave.lines]

/-- One clock over a level of SDA put there by the master. -/
theorem Bus.At.pulse (hb : b.At s ⟨x, false⟩ false h) (y : Bool) :
    (((b.setSda s y).setScl s true).setScl s false).At s ⟨y, false⟩ false
      (h ++ [.bit (y && s.drive h)]) :=
  (hb.sda_low y).scl_rise.scl_fall

end PinWrites

/-- The low bits of a number, most significant first. -/
def msbFirst : ℕ → ℕ → List Bool
  | 0, _ => []
  | n+1, v => v.testBit n :: msbFirst n v

@[simp] theorem msbFirst_length (n v : ℕ) : (msbFirst n v).length = n := by
  induction n with
  | zero => rfl
  | succ n ih => simp [msbFirst, ih]

theorem msbFirst_snoc (n v : ℕ) : msbFirst (n+1) v = msbFirst n (v/2) ++ [v.testBit 0] := by
  induction n with
  | zero => rfl
  | succ n ih =>
    rw [msbFirst, ih, msbFirst, List.cons_append, Nat.testBit_div_two]

theorem msbFirst_mod (n v : ℕ) {m : ℕ} (hm : n ≤ m) : msbFirst n (v % 2 ^ m) = msbFirst n v := by
  induction n with
  | zero => rfl
  | succ n ih =>
    have hn : n < m := by omega
    rw [msbFirst, msbFirst, ih (by omega), Nat.testBit_mod_two_pow, decide_eq_true hn, Bool.true_and]

/-- The slave lets go of SDA, because the master's byte comes next. -/
structure Speaks (h : List Symbol) (bits : List Bool) : Prop where
  frame_eq : frame h = some bits
  whole : bits.length % 9 = 0
  writes : bits = [] ∨ bits[7]? = some false

/-- A frame that reads, between two bytes of the slave. -/
structure Asks (h : List Symbol) (bits : List Bool) : Prop where
  frame_eq : frame h = some bits
  whole : bits.length % 9 = 0
  reads : bits[7]? = some true

theorem Speaks.of_start (h : List Symbol) : Speaks (h ++ [.start]) [] :=
  ⟨frame_start h, rfl, .inl rfl⟩

theorem getElem?_seven_append {bits more : List Bool} {x : Bool} (hx : bits[7]? = some x) :
    (bits ++ more)[7]? = some x := by
  obtain ⟨hi, _⟩ := List.getElem?_eq_some_iff.mp hx
  rwa [List.getElem?_append_left hi]

theorem Speaks.drive {h : List Symbol} {bits more : List Bool} {s : Slave} (hs : Speaks h bits)
    (hm : more.length < 8) : s.drive (h ++ said more) = true := by
  refine s.drive_idle (frame_said hs.frame_eq more) ?_
  have hw := hs.whole
  rcases hs.writes with rfl | h7
  · have : more.length ≤ 8 ∧ more.length ≠ 8 := by omega
    simp [slaveTurn, this]
  · have h8 : 7 < bits.length := (List.getElem?_eq_some_iff.mp h7).1
    have hlong : ¬ (bits ++ more).length ≤ 8 := by simp; omega
    have hmod : (bits ++ more).length % 9 ≠ 8 := by simp; omega
    simp only [slaveTurn, if_neg hlong, getElem?_seven_append h7]
    simpa using hmod

/-- After a byte of a frame that reads the ninth bit is the master's. -/
theorem Asks.drive {h : List Symbol} {bits more : List Bool} {s : Slave} (ha : Asks h bits)
    (hm : more.length = 8) : s.drive (h ++ said more) = true := by
  refine s.drive_idle (frame_said ha.frame_eq more) ?_
  have hw := ha.whole
  have h8 : 7 < bits.length := (List.getElem?_eq_some_iff.mp ha.reads).1
  have hlong : ¬ (bits ++ more).length ≤ 8 := by simp; omega
  have hmod : ¬ (bits ++ more).length % 9 < 8 := by simp; omega
  rw [slaveTurn, if_neg hlong, if_pos (getElem?_seven_append ha.reads), decide_eq_false hmod, Bool.false_and]

/-- A high ninth bit makes the slave let go of SDA. -/
theorem drive_of_refused {h : List Symbol} {bits : List Bool} {s : Slave}
    (hf : frame h = some (bits ++ [true])) (hl : bits.length % 9 = 8) : s.drive h = true := by
  refine s.drive_idle hf ?_
  have hlong : ¬ (bits ++ [true]).length ≤ 8 := by simp; omega
  have hmod : (bits ++ [true]).length % 9 = 0 := by simp; omega
  simp only [slaveTurn, if_neg hlong]
  split
  · -- the ninth bit just heard is the high one among them
    simp only [Bool.and_eq_false_iff, List.all_eq_false]
    exact .inr ⟨bits.length, by simp, by simp [hl]⟩
  · rw [hmod]
    rfl

/-- Whether SDA is high in the slave's ninth bit after a byte. -/
def Slave.refuses (s : Slave) (h : List Symbol) (byte : List Bool) : Bool := s.drive (h ++ said byte)

/-- What is heard once the master has sent a byte. -/
def Slave.sent (s : Slave) (h : List Symbol) (byte : List Bool) : List Symbol :=
  h ++ said byte ++ [.bit (s.refuses h byte)]

/-- The next bits the slave drives. -/
def Slave.bits (s : Slave) : ℕ → List Symbol → List Bool
  | 0, _ => []
  | n+1, h => s.drive h :: s.bits n (h ++ [.bit (s.drive h)])

/-- What is heard once the slave has sent a byte and the master has acknowledged it or not. -/
def Slave.received (s : Slave) (h : List Symbol) (ack : Bool) : List Symbol :=
  h ++ said (s.bits 8 h) ++ [.bit !ack]

@[simp] theorem Slave.bits_length (s : Slave) (n : ℕ) (h : List Symbol) : (s.bits n h).length = n := by
  induction n generalizing h with
  | zero => rfl
  | succ n ih => simp [Slave.bits, ih]

section Bytes
variable {s : Slave} {h : List Symbol} {bits byte : List Bool}

theorem frame_sent (hf : frame h = some bits) :
    frame (s.sent h byte) = some (bits ++ byte ++ [s.refuses h byte]) := by
  rw [Slave.sent, frame_bit, frame_said hf]
  rfl

theorem Speaks.sent (hs : Speaks h bits) (hb : byte.length = 8)
    (hw : bits = [] → byte[7]? = some false) :
    Speaks (s.sent h byte) (bits ++ byte ++ [s.refuses h byte]) := by
  refine ⟨frame_sent hs.frame_eq, ?_, .inr ?_⟩
  · have := hs.whole
    simp only [List.length_append, hb, List.length_singleton]
    omega
  · rcases hs.writes with rfl | h7
    · exact getElem?_seven_append (by simpa using hw rfl)
    · exact getElem?_seven_append (getElem?_seven_append h7)

theorem Speaks.asks (hs : Speaks h []) (hb : byte.length = 8) (hr : byte[7]? = some true) :
    Asks (s.sent h byte) (byte ++ [s.refuses h byte]) := by
  refine ⟨by simpa using frame_sent hs.frame_eq, ?_, getElem?_seven_append hr⟩
  simp [hb]

theorem Asks.received (ha : Asks h bits) (ack : Bool) :
    Asks (s.received h ack) (bits ++ s.bits 8 h ++ [!ack]) := by
  refine ⟨by rw [Slave.received, frame_bit, frame_said ha.frame_eq]; rfl, ?_,
    getElem?_seven_append (getElem?_seven_append ha.reads)⟩
  have := ha.whole
  simp only [List.length_append, Slave.bits_length, List.length_singleton]
  omega

/-- Between two bytes of the master SDA is free, so the frame can be stopped. -/
theorem Speaks.drive_next (hs : Speaks h bits) : s.drive h = true := by
  have hnone : s.drive (h ++ said []) = true := hs.drive (by simp)
  simpa [said] using hnone

theorem Asks.drive_received (ha : Asks h bits) : s.drive (s.received h false) = true := by
  refine drive_of_refused (ha.received false).frame_eq ?_
  have := ha.whole
  simp only [List.length_append, Slave.bits_length]
  omega

end Bytes

/-- The bus at rest: both lines high, no frame open. -/
structure Bus.Idle (s : Slave) (b : Bus) : Prop where
  rest : ∃ q, b.At s ⟨true, true⟩ q b.heard
  free : frame b.heard = none

/-- A bus nobody has used. -/
def Bus.fresh : Bus := ⟨⟨true, true⟩, []⟩

theorem Bus.idle_fresh (s : Slave) : Bus.fresh.Idle s := ⟨⟨false, rfl, rfl⟩, rfl⟩

theorem Bus.At.idle {s : Slave} {b : Bus} {q : Bool} {h : List Symbol} (hb : b.At s ⟨true, true⟩ q h)
    (hf : frame h = none) : b.Idle s :=
  ⟨⟨q, by rwa [hb.heard_eq]⟩, by rwa [hb.heard_eq]⟩

end WhiteRabbit.TwoWireBus
