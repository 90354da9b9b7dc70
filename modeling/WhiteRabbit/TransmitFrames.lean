import WhiteRabbit.BitFields
import WhiteRabbit.DescriptorCopies

/-!
# Frames on the wire

The driver fills a descriptor in several steps while the hardware sends others: the frame into the memory of
the descriptor, two registers, and at last the register with the ready bit. Received frames are stored in the
same memory. What goes out is read back from the registers and the memory.
-/

namespace WhiteRabbit.Nic
open BigEndian BitFields MemoryWords RingArcs StepRuns

/-- The macros of the register generator. -/
def wbgen2GenMask (offset size : ℕ) : ℕ := (1 <<< size - 1) <<< offset

def wbgen2GenRead (reg offset size : ℕ) : ℕ := reg >>> offset &&& (1 <<< size - 1)

def nicTx1D1Ready : ℕ := wbgen2GenMask 0 1
def nicTx1D1TsE : ℕ := wbgen2GenMask 2 1
def nicTx1D1PadE : ℕ := wbgen2GenMask 3 1
def nicTx1D1TsIdR (reg : ℕ) : ℕ := wbgen2GenRead reg 16 16
def nicTx1D2OffsetR (reg : ℕ) : ℕ := wbgen2GenRead reg 0 16
def nicTx1D2LenR (reg : ℕ) : ℕ := wbgen2GenRead reg 16 16

/-- `wrn_txd`. -/
structure WrnTxd where
  tx1 : ℕ := 0
  tx2 : ℕ := 0
  tx3 : ℕ := 0

/-- A frame on the wire: whether it is padded, the id of its time stamp when one is taken, and the mask of the
endpoints that send it. -/
structure WireFrame where
  data : Bytes
  pad : Bool
  stamp : Option ℕ
  ports : ℕ
  deriving DecidableEq

/-- A call of `wrn_start_xmit` that has its descriptor: the memory with the frame, and where it lies there. -/
structure XmitCall where
  desc : ℕ
  host : Memory
  data : ℕ
  len : ℕ
  id : ℕ
  doStamp : Bool

/-- The first register of the descriptor, of which the hardware keeps 32 bits. -/
def XmitCall.tx1 (c : XmitCall) : ℕ :=
  (if c.len < 60 then nicTx1D1PadE else 0) ||| nicTx1D1Ready ||| (if c.doStamp then nicTx1D1TsE else 0) ||| c.id <<< 16

/-- The frame that is to be sent. -/
def XmitCall.frame (c : XmitCall) (epNumber : ℕ) : WireFrame where
  data := window c.host c.data c.len
  pad := c.len < 60
  stamp := if c.doStamp then some c.id else none
  ports := 1 <<< epNumber

/-- How far `__wrn_tx_desc` is in the call, or what follows it. -/
inductive XmitPc where
  | idle
  | copy (c : XmitCall)
  | tx3 (c : XmitCall)
  | tx2 (c : XmitCall)
  | tx1 (c : XmitCall)
  | stats (c : XmitCall)

/-- The memory and the registers of the descriptors, the driver, and the descriptor the hardware sends next.
`accepted` and `wire` are history. -/
structure TxDev where
  io : Memory := fun _ => 0
  txd : ℕ → WrnTxd := fun _ => {}
  nextTxHead : ℕ := 0
  id : ℕ := 0
  xmit : XmitPc := .idle
  hwNext : ℕ := 0
  txErrors : ℕ := 0
  txPackets : ℕ := 0
  txBytes : ℕ := 0
  accepted : List WireFrame := []
  wire : List WireFrame := []

/-- `receive` is the hardware storing a frame. -/
inductive TxAct where
  | startXmit (host : Memory) (data len : ℕ) (hwTstamp : Bool)
  | xmit
  | send
  | receive (nr : ℕ) (bs : Bytes)

namespace TxDev

variable (databuf epNumber : ℕ)

def ready (s : TxDev) (k : ℕ) : Bool := (s.txd k).tx1 &&& nicTx1D1Ready != 0

def setTxd (s : TxDev) (k : ℕ) (f : WrnTxd → WrnTxd) : TxDev :=
  { s with txd := Function.update s.txd k (f (s.txd k)) }

/-- The first part of `wrn_start_xmit`. The kernel makes one call at a time, with some room before the frame. -/
def startXmit (s : TxDev) (host : Memory) (data len : ℕ) (hwTstamp : Bool) : Option TxDev :=
  match s.xmit with
  | .idle =>
    if data < wrnDdataOffset then none
    else if wrnMtu < len then some { s with txErrors := s.txErrors + 1 }
    else
      let (frameId, id) := WrnDev.takeId s.id
      let desc := s.nextTxHead
      if s.ready desc then some { s with id := id }
      else
        let c : XmitCall := ⟨desc, host, data, len, frameId, hwTstamp⟩
        some
          { s with
            id := id
            nextTxHead := next wrnNrDesc desc
            xmit := .copy c
            accepted := s.accepted ++ [c.frame epNumber] }
  | _ => none

/-- A step of `__wrn_tx_desc`, or the maintenance that follows it. -/
def wrnTxDesc (s : TxDev) : Option TxDev :=
  match s.xmit with
  | .idle => none
  | .copy c =>
    some { s with io := wrnCopyOut s.io c.host (wrnDescMem databuf .tx c.desc) c.data c.len, xmit := .tx3 c }
  | .tx3 c => some { s.setTxd c.desc fun tx => { tx with tx3 := 1 <<< epNumber } with xmit := .tx2 c }
  | .tx2 c =>
    some { s.setTxd c.desc fun tx => { tx with tx2 := wrnDescOffset .tx c.desc ||| c.len <<< 16 } with xmit := .tx1 c }
  | .tx1 c => some { s.setTxd c.desc fun tx => { tx with tx1 := c.tx1 } with xmit := .stats c }
  | .stats c => some { s with txPackets := s.txPackets + 1, txBytes := s.txBytes + c.len, xmit := .idle }

/-- The frame that a descriptor describes. -/
def frameOf (s : TxDev) (k : ℕ) : WireFrame :=
  let tx := s.txd k
  { data := window s.io (databuf + nicTx1D2OffsetR tx.tx2 + wrnDdataOffset) (nicTx1D2LenR tx.tx2)
    pad := tx.tx1 &&& nicTx1D1PadE != 0
    stamp := if tx.tx1 &&& nicTx1D1TsE != 0 then some (nicTx1D1TsIdR tx.tx1) else none
    ports := tx.tx3 }

/-- The hardware sends the next frame, and clears its ready bit. -/
def send (s : TxDev) : Option TxDev :=
  if s.ready s.hwNext then
    some
      { s.setTxd s.hwNext fun tx => { tx with tx1 := andNot tx.tx1 nicTx1D1Ready } with
        hwNext := next wrnNrDesc s.hwNext
        wire := s.wire ++ [s.frameOf databuf s.hwNext] }
  else none

def step (s : TxDev) : TxAct → Option TxDev
  | .startXmit host data len hwTstamp => s.startXmit epNumber host data len hwTstamp
  | .xmit => s.wrnTxDesc databuf epNumber
  | .send => s.send databuf
  | .receive nr bs =>
    if nr < wrnNrDesc ∧ bs.length ≤ 0x800 then
      some { s with io := MemoryWords.store s.io (wrnDescMem databuf .rx nr) bs }
    else none

end TxDev

section Registers

variable {offset size reg : ℕ}

theorem wbgen2GenRead_eq (reg offset size : ℕ) : wbgen2GenRead reg offset size = reg / 2 ^ offset % 2 ^ size := by
  rw [wbgen2GenRead, Nat.one_shiftLeft, Nat.and_two_pow_sub_one_eq_mod, Nat.shiftRight_eq_div_pow]

/-- The mask of one bit. -/
theorem and_mask_one (reg offset : ℕ) : (reg &&& wbgen2GenMask offset 1 != 0) = reg.testBit offset := by
  have hmask : wbgen2GenMask offset 1 = 2 ^ offset := by
    rw [wbgen2GenMask, Nat.one_shiftLeft, pow_one, Nat.one_shiftLeft]
  rw [hmask, Nat.and_two_pow]
  cases reg.testBit offset <;> simp

theorem testBit_mask_one (offset i : ℕ) : (wbgen2GenMask offset 1).testBit i = decide (offset = i) := by
  have hmask : wbgen2GenMask offset 1 = 2 ^ offset := by
    rw [wbgen2GenMask, Nat.one_shiftLeft, pow_one, Nat.one_shiftLeft]
  rw [hmask, Nat.testBit_two_pow]

/-- The first register, bit by bit. -/
theorem testBit_tx1 (c : XmitCall) (i : ℕ) : c.tx1.testBit i =
    (decide (c.len < 60) && decide (3 = i) || decide (0 = i) || c.doStamp && decide (2 = i) ||
      decide (16 ≤ i) && c.id.testBit (i - 16)) := by
  rw [XmitCall.tx1, nicTx1D1PadE, nicTx1D1Ready, nicTx1D1TsE, Nat.testBit_or, Nat.testBit_or, Nat.testBit_or,
    Nat.testBit_shiftLeft, testBit_mask_one]
  by_cases hpad : c.len < 60 <;> cases c.doStamp <;> simp [hpad, testBit_mask_one]

/-- The id comes back from the first register. -/
theorem tsIdR_tx1 {c : XmitCall} (hid : c.id < 2 ^ 16) : nicTx1D1TsIdR c.tx1 = c.id := by
  apply Nat.eq_of_testBit_eq
  intro i
  rw [nicTx1D1TsIdR, wbgen2GenRead, Nat.one_shiftLeft, Nat.testBit_and, Nat.testBit_shiftRight, testBit_tx1,
    Nat.testBit_two_pow_sub_one]
  have hlow : (decide (3 = 16 + i) = false) ∧ decide (0 = 16 + i) = false ∧ decide (2 = 16 + i) = false :=
    ⟨decide_eq_false (by omega), decide_eq_false (by omega), decide_eq_false (by omega)⟩
  rw [hlow.1, hlow.2.1, hlow.2.2, decide_eq_true (Nat.le_add_right 16 i), Nat.add_sub_cancel_left]
  simp only [Bool.and_false, Bool.or_false, Bool.true_and, Bool.false_or]
  by_cases hi : i < 16
  · rw [decide_eq_true hi, Bool.and_true]
  · rw [testBit_high hid (Nat.not_lt.mp hi), Bool.false_and]

/-- The offset and the length come back from the second register. -/
theorem offsetLen_tx2 {offset len : ℕ} (hoffset : offset < 2 ^ 16) (hlen : len < 2 ^ 16) :
    nicTx1D2OffsetR (offset ||| len <<< 16) = offset ∧ nicTx1D2LenR (offset ||| len <<< 16) = len := by
  have hsum : offset ||| len <<< 16 = len * 2 ^ 16 + offset := by
    rw [Nat.or_comm, ← Nat.shiftLeft_add_eq_or_of_lt hoffset, Nat.shiftLeft_eq]
  rw [nicTx1D2OffsetR, nicTx1D2LenR, wbgen2GenRead_eq, wbgen2GenRead_eq, hsum]
  constructor <;> omega

end Registers

namespace TxDev

variable {databuf epNumber : ℕ} {s t : TxDev} {c : XmitCall} {k : ℕ}

@[simp] theorem setTxd_txd_self (s : TxDev) (k : ℕ) (f : WrnTxd → WrnTxd) : (s.setTxd k f).txd k = f (s.txd k) :=
  Function.update_self _ _ _

theorem setTxd_txd_of_ne {j : ℕ} (h : j ≠ k) (f : WrnTxd → WrnTxd) : (s.setTxd k f).txd j = s.txd j :=
  Function.update_of_ne h _ _

/-- The call in progress. -/
def call (s : TxDev) : Option XmitCall :=
  match s.xmit with
  | .idle => none
  | .copy c | .tx3 c | .tx2 c | .tx1 c | .stats c => some c

/-- The frames whose ready bits were set. -/
def published (s : TxDev) : ℕ :=
  match s.xmit with
  | .copy _ | .tx3 _ | .tx2 _ | .tx1 _ => s.accepted.length - 1
  | .idle | .stats _ => s.accepted.length

/-- The frames whose calls have returned. -/
def returned (s : TxDev) : ℕ := s.accepted.length - if s.call.isSome then 1 else 0

/-- The frame lies in the memory of the descriptor. -/
def Copied (databuf : ℕ) (s : TxDev) (c : XmitCall) : Prop :=
  window s.io (wrnDescMem databuf .tx c.desc + wrnDdataOffset) c.len = window c.host c.data c.len

/-- The frame of the descriptor is in its own memory. -/
def Placed (s : TxDev) (k : ℕ) : Prop :=
  nicTx1D2OffsetR (s.txd k).tx2 = wrnDescOffset .tx k ∧ nicTx1D2LenR (s.txd k).tx2 ≤ wrnMtu

/-- What the call has written so far. -/
def Written (databuf epNumber : ℕ) (s : TxDev) : Prop :=
  match s.xmit with
  | .tx3 c => s.Copied databuf c
  | .tx2 c => s.Copied databuf c ∧ (s.txd c.desc).tx3 = 1 <<< epNumber
  | .tx1 c => s.Copied databuf c ∧ (s.txd c.desc).tx3 = 1 <<< epNumber ∧
      (s.txd c.desc).tx2 = wrnDescOffset .tx c.desc ||| c.len <<< 16
  | _ => True

/-- The call in progress works on the last frame that was accepted. -/
structure Works (epNumber : ℕ) (accepted : List WireFrame) (c : XmitCall) : Prop where
  last : ∃ frames, accepted = frames ++ [c.frame epNumber]
  desc : c.desc = (accepted.length - 1) % 8
  data : wrnDdataOffset ≤ c.data
  len : c.len ≤ wrnMtu
  id : c.id < 2 ^ 16

/-- The ready descriptors describe the frames that were not sent, and what was sent are the frames before them. -/
structure Inv (databuf epNumber : ℕ) (s : TxDev) : Prop where
  head : s.nextTxHead = s.accepted.length % 8
  hw : s.hwNext = s.wire.length % 8
  wire_le : s.wire.length ≤ s.published
  room : s.accepted.length ≤ s.wire.length + 8
  wire : s.wire <+: s.accepted
  ready : ∀ k < 8, s.ready k = true ↔ ∃ n, k = n % 8 ∧ s.wire.length ≤ n ∧ n < s.published
  frame : ∀ n, s.wire.length ≤ n → n < s.published → s.accepted[n]? = some (s.frameOf databuf (n % 8))
  placed : ∀ n, s.wire.length ≤ n → n < s.published → s.Placed (n % 8)
  works : ∀ c, s.call = some c → Works epNumber s.accepted c
  written : s.Written databuf epNumber
  packets : s.txPackets = s.returned
  bytes : s.txBytes = ((s.accepted.take s.returned).map fun f => f.data.length).sum

theorem start_inv : Inv databuf epNumber {} where
  head := rfl
  hw := rfl
  wire_le := Nat.le_refl _
  room := Nat.zero_le _
  wire := List.prefix_refl _
  ready k _ := by simp [TxDev.ready, published]
  frame n _ hn := absurd hn (Nat.not_lt_zero n)
  placed n _ hn := absurd hn (Nat.not_lt_zero n)
  works c hc := by cases hc
  written := trivial
  packets := rfl
  bytes := rfl

theorem wrnDescOffset_lt (hk : k < 8) : wrnDescOffset .tx k < 2 ^ 16 := by
  rw [wrnDescOffset, if_neg (by simp)]
  omega

theorem wrnMtu_lt {len : ℕ} (hlen : len ≤ wrnMtu) : len < 2 ^ 16 := by
  rw [wrnMtu] at hlen
  omega

/-- A descriptor with all that the call writes describes its frame. -/
theorem frameOf_written (hdesc : c.desc < 8) (hlen : c.len ≤ wrnMtu) (hid : c.id < 2 ^ 16)
    (hcopied : s.Copied databuf c) (htx3 : (s.txd c.desc).tx3 = 1 <<< epNumber)
    (htx2 : (s.txd c.desc).tx2 = wrnDescOffset .tx c.desc ||| c.len <<< 16)
    (htx1 : (s.txd c.desc).tx1 = c.tx1) : s.frameOf databuf c.desc = c.frame epNumber := by
  obtain ⟨hoff, hlength⟩ := offsetLen_tx2 (wrnDescOffset_lt hdesc) (wrnMtu_lt hlen)
  rw [frameOf, XmitCall.frame, htx1, htx2, htx3, hoff, hlength, tsIdR_tx1 hid, nicTx1D1PadE, nicTx1D1TsE, and_mask_one,
    and_mask_one, testBit_tx1, testBit_tx1, ← wrnDescMem, hcopied]
  simp

/-- A descriptor describes the same frame when its registers stay and only the memory of others is written. -/
theorem frameOf_store {bs : Bytes} {dir : WrnDdir} {j : ℕ} (hplaced : s.Placed k) (hk : k < 8) (hj : j < 8)
    (hne : (dir, j) ≠ (.tx, k)) (hbs : bs.length ≤ 0x800) (htxd : t.txd k = s.txd k)
    (hio : t.io = store s.io (wrnDescMem databuf dir j) bs) : t.frameOf databuf k = s.frameOf databuf k := by
  obtain ⟨hoffset, hlen⟩ := hplaced
  have hdisjoint := descOffset_disjoint hj hk hne
  rw [wrnMtu] at hlen
  have hsame : window t.io (databuf + wrnDescOffset .tx k + wrnDdataOffset) (nicTx1D2LenR (s.txd k).tx2) =
      window s.io (databuf + wrnDescOffset .tx k + wrnDdataOffset) (nicTx1D2LenR (s.txd k).tx2) := by
    apply window_congr
    intro i hi
    rw [hio, wrnDescMem, wrnDdataOffset]
    rcases hdisjoint with hbelow | habove
    · exact store_of_ge _ _ (by omega)
    · exact store_of_lt _ _ (by omega)
  rw [frameOf, frameOf, htxd, hoffset, hsame]

/-- A frame that is copied out lies in the memory of its descriptor. -/
theorem copied_wrnCopyOut (hdata : wrnDdataOffset ≤ c.data) {pc : XmitPc} : Copied databuf
    { s with io := wrnCopyOut s.io c.host (wrnDescMem databuf .tx c.desc) c.data c.len, xmit := pc } c := by
  obtain ⟨rest, hspan⟩ := Nat.exists_eq_add_of_le (copySpan_bounds c.len).1
  have hspan : copySpan c.len = wrnDdataOffset + c.len + rest := by rw [hspan, wrnDdataOffset, Nat.add_comm c.len]
  have hout := window_store s.io (wrnDescMem databuf .tx c.desc)
    (window c.host (c.data - wrnDdataOffset) (copySpan c.len))
  rw [length_window, hspan] at hout
  have hpart := window_part hout
  rw [Nat.sub_add_cancel hdata, ← hspan, ← wrnCopyOut_eq] at hpart
  exact hpart

/-- A store into the memory of another descriptor leaves a frame that is copied. -/
theorem Copied.store {bs : Bytes} {j : ℕ} (h : s.Copied databuf c) (hdesc : c.desc < 8) (hlen : c.len ≤ wrnMtu)
    (hj : j < 8) (hbs : bs.length ≤ 0x800) :
    Copied databuf { s with io := MemoryWords.store s.io (wrnDescMem databuf .rx j) bs } c := by
  have hdisjoint := @descOffset_disjoint .rx .tx j c.desc hj hdesc (by simp)
  rw [wrnMtu] at hlen
  rw [Copied] at h ⊢
  rw [← h]
  apply window_congr
  intro i hi
  simp only [wrnDescMem, wrnDdataOffset]
  rcases hdisjoint with hbelow | habove
  · exact store_of_ge _ _ (by omega)
  · exact store_of_lt _ _ (by omega)

/-- A step that accepts no frame, sends none and sets no ready bit. -/
theorem Inv.write (h : s.Inv databuf epNumber) (haccepted : t.accepted = s.accepted) (hwire : t.wire = s.wire)
    (hhead : t.nextTxHead = s.nextTxHead) (hhw : t.hwNext = s.hwNext) (hpublished : t.published = s.published)
    (hcall : t.call = s.call) (hpackets : t.txPackets = s.txPackets) (hbytes : t.txBytes = s.txBytes)
    (hready : ∀ k < 8, t.ready k = s.ready k)
    (hframe : ∀ n, s.wire.length ≤ n → n < s.published →
      t.frameOf databuf (n % 8) = s.frameOf databuf (n % 8) ∧ t.Placed (n % 8))
    (hwritten : t.Written databuf epNumber) : t.Inv databuf epNumber where
  head := by rw [hhead, haccepted, h.head]
  hw := by rw [hhw, hwire, h.hw]
  wire_le := by rw [hwire, hpublished]; exact h.wire_le
  room := by rw [haccepted, hwire]; exact h.room
  wire := by rw [haccepted, hwire]; exact h.wire
  ready k hk := by rw [hready k hk, hwire, hpublished]; exact h.ready k hk
  frame n hn hn' := by
    rw [hwire] at hn
    rw [hpublished] at hn'
    rw [haccepted, (hframe n hn hn').1]
    exact h.frame n hn hn'
  placed n hn hn' := by
    rw [hwire] at hn
    rw [hpublished] at hn'
    exact (hframe n hn hn').2
  works c hc := by
    rw [hcall] at hc
    rw [haccepted]
    exact h.works c hc
  written := hwritten
  packets := by rw [hpackets, h.packets, returned, returned, haccepted, hcall]
  bytes := by rw [hbytes, h.bytes, returned, returned, haccepted, hcall]

/-- The descriptor of the call in progress is none of those that wait for the hardware. -/
theorem Inv.free (h : s.Inv databuf epNumber) (hc : s.call = some c) (hpublished : s.published = s.accepted.length - 1)
    {n : ℕ} (hn : s.wire.length ≤ n) (hn' : n < s.published) : n % 8 ≠ c.desc := by
  have hroom := h.room
  rw [(h.works c hc).desc]
  omega

theorem Inv.desc_lt (h : s.Inv databuf epNumber) (hc : s.call = some c) : c.desc < 8 := by
  rw [(h.works c hc).desc]
  exact Nat.mod_lt _ (by decide)

/-- A call that finds a descriptor. -/
theorem Inv.accept (h : s.Inv databuf epNumber) (hidle : s.xmit = .idle) {id : ℕ} (hdesc : c.desc = s.nextTxHead)
    (hdata : wrnDdataOffset ≤ c.data) (hlen : c.len ≤ wrnMtu) (hid : c.id < 2 ^ 16)
    (hready : s.ready c.desc = false) :
    Inv databuf epNumber
      { s with
        id := id
        nextTxHead := next wrnNrDesc c.desc
        xmit := .copy c
        accepted := s.accepted ++ [c.frame epNumber] } := by
  have hpublished : s.published = s.accepted.length := by rw [published, hidle]
  have hreturned : s.returned = s.accepted.length := by rw [returned, call, hidle]; rfl
  have hlength : (s.accepted ++ [c.frame epNumber]).length = s.accepted.length + 1 := by simp
  have hroom : s.accepted.length < s.wire.length + 8 := by
    refine Nat.lt_of_le_of_ne h.room fun heq => ?_
    have hlt : c.desc < 8 := by
      rw [hdesc, h.head]
      exact Nat.mod_lt _ (by decide)
    have hfull := (h.ready c.desc hlt).mpr ⟨s.wire.length, by rw [hdesc, h.head]; omega, Nat.le_refl _, by omega⟩
    rw [hready] at hfull
    cases hfull
  refine ⟨?_, h.hw, ?_, ?_, h.wire.trans (List.prefix_append _ _), ?_, ?_, ?_, ?_, trivial, ?_, ?_⟩
  · dsimp only
    rw [hdesc, h.head, next, wrnNrDesc, hlength]
    omega
  · dsimp only [published]
    rw [hlength]
    exact hpublished ▸ h.wire_le
  · dsimp only
    rw [hlength]
    exact hroom
  · intro k hk
    dsimp only [published]
    rw [hlength, Nat.add_sub_cancel, ← hpublished]
    exact h.ready k hk
  · intro n hn hn'
    dsimp only [published] at hn'
    rw [hlength, Nat.add_sub_cancel] at hn'
    dsimp only
    rw [List.getElem?_append_left hn']
    exact h.frame n hn (hpublished ▸ hn')
  · intro n hn hn'
    dsimp only [published] at hn'
    rw [hlength, Nat.add_sub_cancel] at hn'
    exact h.placed n hn (hpublished ▸ hn')
  · intro c' hc'
    cases hc'
    refine ⟨⟨_, rfl⟩, ?_, hdata, hlen, hid⟩
    rw [hlength, Nat.add_sub_cancel, hdesc, h.head]
  · dsimp only [returned, call]
    rw [hlength, h.packets, hreturned]
    rfl
  · dsimp only [returned, call]
    rw [hlength, h.bytes, hreturned]
    simp

theorem takeId_lt (id : ℕ) : (WrnDev.takeId id).1 < 2 ^ 16 := by
  rw [WrnDev.takeId]
  split <;> exact Nat.mod_lt _ (by decide)

theorem Inv.startXmit (h : s.Inv databuf epNumber) {host : Memory} {data len : ℕ} {hwTstamp : Bool}
    (hs : s.startXmit epNumber host data len hwTstamp = some t) : t.Inv databuf epNumber := by
  rw [TxDev.startXmit] at hs
  cases hidle : s.xmit with
  | idle =>
    simp only [hidle] at hs
    split_ifs at hs with hdata hlen hready
    · cases hs
      exact h.write rfl rfl rfl rfl (by simp only [published, hidle]) (by simp only [call, hidle]) rfl rfl
        (fun _ _ => rfl) (fun n hn hn' => ⟨rfl, h.placed n hn hn'⟩) trivial
    · cases hs
      exact h.write rfl rfl rfl rfl (by simp only [published, hidle]) (by simp only [call, hidle]) rfl rfl
        (fun _ _ => rfl) (fun n hn hn' => ⟨rfl, h.placed n hn hn'⟩) trivial
    · cases hs
      have hfree : s.ready s.nextTxHead = false := Bool.eq_false_iff.mpr hready
      exact h.accept hidle (c := ⟨s.nextTxHead, host, data, len, (WrnDev.takeId s.id).1, hwTstamp⟩) rfl
        (Nat.not_lt.mp hdata) (Nat.not_lt.mp hlen) (takeId_lt s.id) hfree
  | copy _ | tx3 _ | tx2 _ | tx1 _ | stats _ =>
    simp only [hidle] at hs
    cases hs

/-- A write to the registers of a descriptor that is not ready, with the ready bit clear. -/
theorem Inv.setTxd (h : s.Inv databuf epNumber) (hc : s.call = some c)
    (hpublished : s.published = s.accepted.length - 1)
    {f : WrnTxd → WrnTxd} (hf : ∀ tx, (f tx).tx1 = tx.tx1) {pc : XmitPc}
    (hpublished' : published { s.setTxd c.desc f with xmit := pc } = s.published)
    (hcall : call { s.setTxd c.desc f with xmit := pc } = s.call)
    (hwritten : Written databuf epNumber { s.setTxd c.desc f with xmit := pc }) :
    Inv databuf epNumber { s.setTxd c.desc f with xmit := pc } := by
  refine h.write rfl rfl rfl rfl hpublished' hcall rfl rfl ?_ ?_ ?_
  · intro k _
    by_cases hk : k = c.desc
    · subst hk
      simp only [TxDev.ready, setTxd_txd_self, hf]
    · simp only [TxDev.ready, setTxd_txd_of_ne hk]
  · intro n hn hn'
    have hne := h.free hc hpublished hn hn'
    have hsame := setTxd_txd_of_ne (s := s) hne f
    refine ⟨?_, ?_⟩
    · simp only [frameOf, hsame]
      rfl
    · have hplaced := h.placed n hn hn'
      simp only [Placed, hsame]
      exact hplaced
  · exact hwritten

/-- The ready bit makes the frame of the call the last one that waits for the hardware. -/
theorem Inv.publish (h : s.Inv databuf epNumber) (hpc : s.xmit = .tx1 c) :
    Inv databuf epNumber { s.setTxd c.desc fun tx => { tx with tx1 := c.tx1 } with xmit := .stats c } := by
  have hc : s.call = some c := by rw [call, hpc]
  have hpublished : s.published = s.accepted.length - 1 := by rw [published, hpc]
  obtain ⟨hcopied, htx3, htx2⟩ : s.Copied databuf c ∧ (s.txd c.desc).tx3 = 1 <<< epNumber ∧
      (s.txd c.desc).tx2 = wrnDescOffset .tx c.desc ||| c.len <<< 16 := by
    have hwritten := h.written
    simp only [Written, hpc] at hwritten
    exact hwritten
  have hworks := h.works c hc
  have hdesc := h.desc_lt hc
  obtain ⟨frames, hlast⟩ := hworks.last
  have hlength : s.accepted.length = frames.length + 1 := by simp [hlast]
  generalize ht : ({ s.setTxd c.desc fun tx => { tx with tx1 := c.tx1 } with xmit := .stats c } : TxDev) = t
  have hself : t.txd c.desc = ⟨c.tx1, (s.txd c.desc).tx2, (s.txd c.desc).tx3⟩ := by
    rw [← ht]
    exact setTxd_txd_self s c.desc fun tx => { tx with tx1 := c.tx1 }
  have hother : ∀ j, j ≠ c.desc → t.txd j = s.txd j := by
    intro j hj
    rw [← ht]
    exact setTxd_txd_of_ne hj fun tx => { tx with tx1 := c.tx1 }
  have hio : t.io = s.io := by rw [← ht]; rfl
  have haccepted : t.accepted = s.accepted := by rw [← ht]; rfl
  have hwire : t.wire = s.wire := by rw [← ht]; rfl
  have hcall : t.call = s.call := by rw [← ht, hc]; rfl
  have hpublished' : t.published = s.accepted.length := by rw [← ht]; rfl
  have hsplit : ∀ n, n < s.accepted.length → n < s.published ∨ n = s.accepted.length - 1 := by
    intro n hn
    omega
  have hlastDesc : (s.accepted.length - 1) % 8 = c.desc := hworks.desc.symm
  have hwire_le := h.wire_le
  exact
    { head := by rw [← ht]; exact h.head
      hw := by rw [← ht]; exact h.hw
      wire_le := by rw [hwire, hpublished']; omega
      room := by rw [hwire, haccepted]; exact h.room
      wire := by rw [hwire, haccepted]; exact h.wire
      ready := by
        intro k hk
        rw [hwire, hpublished']
        by_cases hkc : k = c.desc
        · subst hkc
          have hready : t.ready c.desc = true := by
            rw [TxDev.ready, hself, nicTx1D1Ready, and_mask_one, testBit_tx1]
            simp
          exact ⟨fun _ => ⟨s.accepted.length - 1, hworks.desc, by omega, by omega⟩, fun _ => hready⟩
        · have hsame : t.ready k = s.ready k := by rw [TxDev.ready, TxDev.ready, hother k hkc]
          rw [hsame, h.ready k hk]
          constructor
          · rintro ⟨n, hkn, hle, hlt⟩
            exact ⟨n, hkn, hle, by omega⟩
          · rintro ⟨n, hkn, hle, hlt⟩
            rcases hsplit n hlt with hbefore | rfl
            · exact ⟨n, hkn, hle, hbefore⟩
            · exact absurd (hkn.trans hlastDesc) hkc
      frame := by
        intro n hn hn'
        rw [hwire] at hn
        rw [hpublished'] at hn'
        rw [haccepted]
        rcases hsplit n hn' with hbefore | rfl
        · rw [frameOf, hother _ (h.free hc hpublished hn hbefore), hio]
          exact h.frame n hn hbefore
        · have hframe : t.frameOf databuf c.desc = c.frame epNumber := by
            apply frameOf_written hdesc hworks.len hworks.id
            · rw [Copied, hio]
              exact hcopied
            · rw [hself]
              exact htx3
            · rw [hself]
              exact htx2
            · rw [hself]
          rw [hlastDesc, hframe]
          simp [hlast]
      placed := by
        intro n hn hn'
        rw [hwire] at hn
        rw [hpublished'] at hn'
        rcases hsplit n hn' with hbefore | rfl
        · rw [Placed, hother _ (h.free hc hpublished hn hbefore)]
          exact h.placed n hn hbefore
        · rw [hlastDesc, Placed, hself, htx2]
          obtain ⟨hoffset, hlen⟩ := offsetLen_tx2 (wrnDescOffset_lt hdesc) (wrnMtu_lt hworks.len)
          exact ⟨hoffset, hlen.trans_le hworks.len⟩
      works := by
        intro c' hc'
        rw [haccepted]
        exact h.works c' (hcall ▸ hc')
      written := by rw [← ht]; trivial
      packets := by rw [returned, haccepted, hcall, ← returned, ← h.packets, ← ht]; rfl
      bytes := by rw [returned, haccepted, hcall, ← returned, ← h.bytes, ← ht]; rfl }

theorem Inv.wrnTxDesc (h : s.Inv databuf epNumber) (hs : s.wrnTxDesc databuf epNumber = some t) :
    t.Inv databuf epNumber := by
  rw [TxDev.wrnTxDesc] at hs
  cases hpc : s.xmit with
  | idle =>
    simp only [hpc] at hs
    cases hs
  | copy c =>
    simp only [hpc] at hs
    cases hs
    have hc : s.call = some c := by rw [call, hpc]
    have hpublished : s.published = s.accepted.length - 1 := by rw [published, hpc]
    refine h.write rfl rfl rfl rfl (by simp only [published, hpc]) (by simp only [call, hpc]) rfl rfl
      (fun _ _ => rfl) ?_ ?_
    · intro n hn hn'
      have hlen := (h.works c hc).len
      rw [wrnMtu] at hlen
      have hspan := (copySpan_bounds c.len).2
      refine ⟨?_, h.placed n hn hn'⟩
      apply @frameOf_store databuf s _ (n % 8) (window c.host (c.data - wrnDdataOffset) (copySpan c.len)) .tx c.desc
        (h.placed n hn hn') (Nat.mod_lt _ (by decide)) (h.desc_lt hc)
      · intro heq
        exact h.free hc hpublished hn hn' (Prod.mk.inj heq).2.symm
      · rw [length_window]
        omega
      · rfl
      · exact wrnCopyOut_eq _ _ _ _ _
    · exact copied_wrnCopyOut (h.works c hc).data
  | tx3 c =>
    simp only [hpc] at hs
    cases hs
    have hc : s.call = some c := by rw [call, hpc]
    have hpublished : s.published = s.accepted.length - 1 := by rw [published, hpc]
    have hwritten := h.written
    simp only [Written, hpc] at hwritten
    refine h.setTxd hc hpublished ?_ ?_ ?_ ?_
    · intro tx
      rfl
    · simp only [published, hpc, TxDev.setTxd]
    · simp only [call, hpc]
    · refine ⟨hwritten, ?_⟩
      simp only [setTxd_txd_self]
  | tx2 c =>
    simp only [hpc] at hs
    cases hs
    have hc : s.call = some c := by rw [call, hpc]
    have hpublished : s.published = s.accepted.length - 1 := by rw [published, hpc]
    have hwritten := h.written
    simp only [Written, hpc] at hwritten
    refine h.setTxd hc hpublished ?_ ?_ ?_ ?_
    · intro tx
      rfl
    · simp only [published, hpc, TxDev.setTxd]
    · simp only [call, hpc]
    · refine ⟨hwritten.1, ?_, ?_⟩
      · simp only [setTxd_txd_self]
        exact hwritten.2
      · simp only [setTxd_txd_self]
  | tx1 c =>
    simp only [hpc] at hs
    cases hs
    exact h.publish hpc
  | stats c =>
    simp only [hpc] at hs
    cases hs
    have hc : s.call = some c := by rw [call, hpc]
    obtain ⟨frames, hlast⟩ := (h.works c hc).last
    have hreturned : s.returned = frames.length := by simp [returned, hc, hlast]
    have hpackets := h.packets
    have hbytes := h.bytes
    rw [hreturned] at hpackets hbytes
    refine ⟨h.head, h.hw, ?_, h.room, h.wire, ?_, ?_, ?_, ?_, trivial, ?_, ?_⟩
    · have hle := h.wire_le
      simp only [published, hpc] at hle
      exact hle
    · have hready := h.ready
      simp only [published, hpc] at hready
      exact hready
    · have hframe := h.frame
      simp only [published, hpc] at hframe
      exact hframe
    · have hplaced := h.placed
      simp only [published, hpc] at hplaced
      exact hplaced
    · intro c' hc'
      cases hc'
    · simp [returned, call, hpackets, hlast]
    · simp [returned, call, hbytes, hlast, XmitCall.frame]

theorem prefix_concat {α : Type*} {xs ys : List α} {y : α} (h : xs <+: ys) (hy : ys[xs.length]? = some y) :
    xs ++ [y] <+: ys := by
  obtain ⟨rest, rfl⟩ := h
  cases rest with
  | nil => simp at hy
  | cons z rest =>
    have hz : z = y := by simpa using hy
    subst hz
    exact ⟨rest, by simp⟩

/-- The next descriptor that the hardware sends has the first frame that was not sent. -/
theorem Inv.ready_next (h : s.Inv databuf epNumber) (hready : s.ready s.hwNext = true) :
    s.wire.length < s.published := by
  have hlt : s.hwNext < 8 := by
    rw [h.hw]
    exact Nat.mod_lt _ (by decide)
  obtain ⟨n, hn, hle, hpublished⟩ := (h.ready s.hwNext hlt).mp hready
  have hroom := h.room
  have hhw := h.hw
  have hmost : s.published ≤ s.accepted.length := by
    rw [published]
    split <;> omega
  omega

theorem Inv.send (h : s.Inv databuf epNumber) (hs : s.send databuf = some t) :
    t.Inv databuf epNumber ∧ t.accepted = s.accepted ∧ t.xmit = s.xmit ∧ t.wire.length = s.wire.length + 1 := by
  rw [TxDev.send] at hs
  split_ifs at hs with hready
  have ht := Option.some.inj hs
  have hnext := h.ready_next hready
  have hhw := h.hw
  have hother : ∀ j, j ≠ s.hwNext → t.txd j = s.txd j := by
    intro j hj
    rw [← ht]
    exact setTxd_txd_of_ne hj fun tx => { tx with tx1 := andNot tx.tx1 nicTx1D1Ready }
  have hself : t.txd s.hwNext =
      ⟨andNot (s.txd s.hwNext).tx1 nicTx1D1Ready, (s.txd s.hwNext).tx2, (s.txd s.hwNext).tx3⟩ := by
    rw [← ht]
    exact setTxd_txd_self s s.hwNext fun tx => { tx with tx1 := andNot tx.tx1 nicTx1D1Ready }
  have hother3 : ∀ j, (t.txd j).tx2 = (s.txd j).tx2 ∧ (t.txd j).tx3 = (s.txd j).tx3 := by
    intro j
    by_cases hj : j = s.hwNext
    · subst hj
      rw [hself]
      exact ⟨rfl, rfl⟩
    · rw [hother j hj]
      exact ⟨rfl, rfl⟩
  have hio : t.io = s.io := by rw [← ht]; rfl
  have hxmit : t.xmit = s.xmit := by rw [← ht]; rfl
  have haccepted : t.accepted = s.accepted := by rw [← ht]; rfl
  have hwire : t.wire = s.wire ++ [s.frameOf databuf s.hwNext] := by rw [← ht]
  have hlength : t.wire.length = s.wire.length + 1 := by simp [hwire]
  have hcall : t.call = s.call := by rw [call, call, hxmit]
  have hpublished : t.published = s.published := by rw [published, published, hxmit, haccepted]
  have hreturned : t.returned = s.returned := by rw [returned, returned, haccepted, hcall]
  have hlater : ∀ n, s.wire.length + 1 ≤ n → n < s.published → n % 8 ≠ s.hwNext := by
    intro n hn hn'
    have hroom := h.room
    have hmost : s.published ≤ s.accepted.length := by
      rw [published]
      split <;> omega
    omega
  refine ⟨?_, haccepted, hxmit, hlength⟩
  exact
    { head := by rw [haccepted, ← h.head, ← ht]; rfl
      hw := by
        rw [hlength, ← ht]
        simp only [next, wrnNrDesc, hhw]
        omega
      wire_le := by rw [hlength, hpublished]; exact hnext
      room := by
        rw [hlength, haccepted]
        exact h.room.trans (by omega)
      wire := by
        rw [hwire, haccepted]
        have hfirst := h.frame s.wire.length (Nat.le_refl _) hnext
        rw [← hhw] at hfirst
        exact prefix_concat h.wire hfirst
      ready := by
        intro k hk
        rw [hlength, hpublished]
        by_cases hkn : k = s.hwNext
        · subst hkn
          have hclear : t.ready s.hwNext = false := by
            rw [TxDev.ready, hself, nicTx1D1Ready, and_mask_one, testBit_andNot, testBit_mask_one]
            simp
          rw [hclear]
          constructor
          · intro hfalse
            cases hfalse
          · rintro ⟨n, hn, hle, hlt⟩
            exact absurd hn.symm (hlater n hle hlt)
        · have hsame : t.ready k = s.ready k := by rw [TxDev.ready, TxDev.ready, hother k hkn]
          rw [hsame, h.ready k hk]
          constructor
          · rintro ⟨n, hn, hle, hlt⟩
            refine ⟨n, hn, Nat.lt_of_le_of_ne hle ?_, hlt⟩
            rintro rfl
            exact hkn (hn.trans hhw.symm)
          · rintro ⟨n, hn, hle, hlt⟩
            exact ⟨n, hn, by omega, hlt⟩
      frame := by
        intro n hn hn'
        rw [hlength] at hn
        rw [hpublished] at hn'
        rw [haccepted, frameOf, hother _ (hlater n hn hn'), hio]
        exact h.frame n (by omega) hn'
      placed := by
        intro n hn hn'
        rw [hlength] at hn
        rw [hpublished] at hn'
        rw [Placed, hother _ (hlater n hn hn')]
        exact h.placed n (by omega) hn'
      works := by
        intro c hc
        rw [haccepted]
        exact h.works c (hcall ▸ hc)
      written := by
        have hwritten := h.written
        simp only [Written, hxmit, Copied, hio, (hother3 _).1, (hother3 _).2] at hwritten ⊢
        exact hwritten
      packets := by rw [hreturned, ← h.packets, ← ht]; rfl
      bytes := by rw [hreturned, haccepted, ← h.bytes, ← ht]; rfl }

theorem Inv.receive (h : s.Inv databuf epNumber) {nr : ℕ} {bs : Bytes} (hnr : nr < wrnNrDesc)
    (hbs : bs.length ≤ 0x800) :
    Inv databuf epNumber { s with io := MemoryWords.store s.io (wrnDescMem databuf .rx nr) bs } := by
  refine h.write rfl rfl rfl rfl rfl rfl rfl rfl (fun _ _ => rfl) ?_ ?_
  · intro n hn hn'
    have hplaced := h.placed n hn hn'
    exact ⟨frameOf_store hplaced (Nat.mod_lt _ (by decide)) hnr (by simp) hbs rfl rfl, hplaced⟩
  · have hwritten := h.written
    have hkeep : ∀ {c}, s.call = some c → s.Copied databuf c →
        Copied databuf { s with io := MemoryWords.store s.io (wrnDescMem databuf .rx nr) bs } c :=
      fun hc hcopied => hcopied.store (h.desc_lt hc) (h.works _ hc).len hnr hbs
    cases hpc : s.xmit with
    | idle | copy _ | stats _ => simp only [Written]
    | tx3 c =>
      simp only [Written, hpc] at hwritten ⊢
      exact hkeep (by rw [call, hpc]) hwritten
    | tx2 c =>
      simp only [Written, hpc] at hwritten ⊢
      exact ⟨hkeep (by rw [call, hpc]) hwritten.1, hwritten.2⟩
    | tx1 c =>
      simp only [Written, hpc] at hwritten ⊢
      exact ⟨hkeep (by rw [call, hpc]) hwritten.1, hwritten.2⟩

theorem Inv.step (h : s.Inv databuf epNumber) {a : TxAct} (hs : s.step databuf epNumber a = some t) :
    t.Inv databuf epNumber := by
  cases a with
  | startXmit host data len hwTstamp => exact h.startXmit hs
  | xmit => exact h.wrnTxDesc hs
  | send => exact (h.send hs).1
  | receive nr bs =>
    rw [TxDev.step] at hs
    split_ifs at hs with hbounds
    cases hs
    exact h.receive hbounds.1 hbounds.2

theorem run_inv {acts : List TxAct} (hrun : run (step databuf epNumber) {} acts = some s) : s.Inv databuf epNumber :=
  run_keeps (fun hI hs => Inv.step hI hs) start_inv hrun

/-- Steps without new frames. -/
def Quiet (_ : TxDev) : TxAct → Prop
  | .startXmit .. | .receive .. => False
  | .xmit | .send => True

instance (s : TxDev) : ∀ a, Decidable (s.Quiet a)
  | .startXmit .. | .receive .. => isFalse fun h => h
  | .xmit | .send => isTrue trivial

/-- The steps that the driver and the hardware have left. -/
def work (s : TxDev) : ℕ :=
  (match s.xmit with
    | .idle => 0
    | .copy _ => 5
    | .tx3 _ => 4
    | .tx2 _ => 3
    | .tx1 _ => 2
    | .stats _ => 1) + (s.accepted.length - s.wire.length)

theorem Inv.work_lt (h : s.Inv databuf epNumber) {a : TxAct} (ha : s.Quiet a)
    (hs : s.step databuf epNumber a = some t) : t.accepted = s.accepted ∧ t.work < s.work := by
  cases a with
  | startXmit host data len hwTstamp => exact ha.elim
  | receive nr bs => exact ha.elim
  | xmit =>
    rw [TxDev.step, TxDev.wrnTxDesc] at hs
    cases hpc : s.xmit with
    | idle =>
      simp only [hpc] at hs
      cases hs
    | copy c | tx3 c | tx2 c | tx1 c | stats c =>
      simp only [hpc] at hs
      cases hs
      refine ⟨rfl, ?_⟩
      simp only [work, hpc, TxDev.setTxd]
      omega
  | send =>
    obtain ⟨hinv, haccepted, hxmit, hlength⟩ := h.send hs
    have hle := hinv.wire.length_le
    rw [haccepted] at hle
    refine ⟨haccepted, ?_⟩
    rw [work, work, hxmit, haccepted]
    omega

/-- Whatever calls, steps of the hardware and received frames come between, the wire gets the accepted frames, each
as it was handed over and in their order, with at most eight that wait. Without new frames the rest follows after at
most as many steps as are left to do, and the statistics count what was sent. -/
theorem frames_sent {acts quiet : List TxAct} (hrun : run (step databuf epNumber) {} acts = some s)
    (hquiet : Obeys (step databuf epNumber) Quiet s quiet) (hrest : run (step databuf epNumber) s quiet = some t) :
    s.wire <+: s.accepted ∧ s.accepted.length ≤ s.wire.length + 8 ∧ quiet.length + t.work ≤ s.work ∧
      ((∀ a, t.Quiet a → t.step databuf epNumber a = none) → t.wire = s.accepted ∧
        t.txPackets = s.accepted.length ∧ t.txBytes = (s.accepted.map fun f => f.data.length).sum) := by
  have h := run_inv hrun
  have hkeep : ∀ {u : TxDev} {a : TxAct} {v : TxDev}, u.Inv databuf epNumber ∧ u.accepted = s.accepted →
      u.Quiet a → u.step databuf epNumber a = some v → (v.Inv databuf epNumber ∧ v.accepted = s.accepted) ∧ v.work < u.work :=
    fun hu ha hv => ⟨⟨hu.1.step hv, (hu.1.work_lt ha hv).1.trans hu.2⟩, (hu.1.work_lt ha hv).2⟩
  refine ⟨h.wire, h.room, run_measure hkeep ⟨h, rfl⟩ hquiet hrest, fun hstuck => ?_⟩
  obtain ⟨ht, haccepted⟩ := run_invariant (fun hu ha hv => (hkeep hu ha hv).1) ⟨h, rfl⟩ hquiet hrest
  have hidle : t.xmit = .idle := by
    have hnone := hstuck .xmit trivial
    rw [TxDev.step, TxDev.wrnTxDesc] at hnone
    cases hpc : t.xmit with
    | idle => rfl
    | copy c | tx3 c | tx2 c | tx1 c | stats c =>
      simp only [hpc] at hnone
      cases hnone
  have hall : t.accepted.length ≤ t.wire.length := by
    by_contra hlt
    have hready : t.ready t.hwNext = true := by
      apply (ht.ready t.hwNext (ht.hw ▸ Nat.mod_lt _ (by decide))).mpr
      refine ⟨t.wire.length, ht.hw, Nat.le_refl _, ?_⟩
      rw [published, hidle]
      exact Nat.lt_of_not_le hlt
    have hnone := hstuck .send trivial
    rw [TxDev.step, TxDev.send, if_pos hready] at hnone
    cases hnone
  have hreturned : t.returned = t.accepted.length := by
    rw [returned, call, hidle]
    rfl
  have hbytes := ht.bytes
  rw [hreturned, List.take_length, haccepted] at hbytes
  exact ⟨haccepted ▸ ht.wire.eq_of_length_le hall, by rw [ht.packets, hreturned, haccepted], hbytes⟩

/-- The second call comes when the first frame is on the wire and a received frame arrives in between. -/
def twoCalls : List TxAct :=
  [.startXmit (fun a => UInt8.ofNat a) 4 3 true, .xmit, .receive 0 [7, 7], .xmit, .xmit, .xmit, .send, .xmit,
    .startXmit (fun a => UInt8.ofNat (a + 1)) 8 2 false, .xmit, .xmit]

def inCall : TxDev := (run (step 0 1) {} twoCalls).getD {}

def untilSent : List TxAct := [.xmit, .xmit, .send, .xmit]

def sent : TxDev := (run (step 0 1) inCall untilSent).getD {}

theorem frames_sent_two : inCall.wire <+: inCall.accepted ∧ inCall.accepted.length ≤ inCall.wire.length + 8 ∧
    untilSent.length + sent.work ≤ inCall.work ∧ sent.wire = inCall.accepted ∧ sent.txPackets = 2 ∧
      sent.txBytes = 5 := by
  have hrun : run (step 0 1) {} twoCalls = some inCall := rfl
  have hrest : run (step 0 1) inCall untilSent = some sent := rfl
  obtain ⟨hfirst, hroom, hwork, hall⟩ := frames_sent hrun (by decide) hrest
  refine ⟨hfirst, hroom, hwork, hall fun a ha => ?_⟩
  cases a with
  | startXmit host data len hwTstamp => exact ha.elim
  | receive nr bs => exact ha.elim
  | xmit | send => rfl

end TxDev

end WhiteRabbit.Nic
