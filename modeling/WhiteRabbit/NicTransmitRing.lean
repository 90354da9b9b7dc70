import WhiteRabbit.RingArcs
import WhiteRabbit.StepRuns

/-!
# The transmit ring of the network interface

Frames are handed to the hardware through a ring of eight descriptors. The buffer of a frame
is freed by the completion interrupt, or, when a hardware time stamp was asked for, by the
time stamp interrupt. Buffers are numbered in the order in which they are accepted, so the
buffer `n` goes through the descriptor `n % 8`.
-/

namespace WhiteRabbit.Nic
open RingArcs StepRuns

def wrnNrDesc : ℕ := 8
def wrnMtu : ℕ := 1540

/-- `wrn_desc_pending`: the buffer of a descriptor, and the id of its frame. -/
structure DescPending where
  skb : Option ℕ := none
  valid : ℕ := 0
  frameId : ℕ := 0

/-- What the driver knows of an accepted buffer. -/
structure Sent where
  hwTstamp : Bool
  frameId : ℕ

/-- The driver, the ready bits of the descriptors, and the descriptor the hardware sends next.
The rest is history: `completed` counts the frames the hardware has completed, `delivered`
those completed before the last completion interrupt, and `passed` the steps of the tail. -/
structure WrnDev where
  skbDesc : ℕ → DescPending := fun _ => {}
  ready : ℕ → Bool := fun _ => false
  nextTxHead : ℕ := 0
  nextTxTail : ℕ := 0
  id : ℕ := 0
  hwNext : ℕ := 0
  accepted : List Sent := []
  completed : ℕ := 0
  delivered : ℕ := 0
  passed : ℕ := 0
  stamped : List ℕ := []
  freed : List ℕ := []
  overwritten : List ℕ := []

/-- `tstamp n` is the time stamp interrupt for the buffer `n`. -/
inductive NicAct where
  | startXmit (len : ℕ) (hwTstamp : Bool)
  | complete
  | txInterrupt
  | tstamp (n : ℕ)

namespace WrnDev

/-- Whether a hardware time stamp was asked for. -/
def requested (s : WrnDev) (n : ℕ) : Bool := (s.accepted[n]?.map Sent.hwTstamp).getD false

/-- The id of a frame, and the counter after it. Zero cannot be used. -/
def takeId (id : ℕ) : ℕ × ℕ := if id % 2 ^ 16 = 0 then ((id + 1) % 2 ^ 16, id + 2) else (id % 2 ^ 16, id + 1)

def setSkb (s : WrnDev) (i : ℕ) (skb : Option ℕ) : WrnDev :=
  { s with skbDesc := Function.update s.skbDesc i { s.skbDesc i with skb := skb } }

/-- `wrn_start_xmit`. An id is used up even if no descriptor is free. -/
def wrnStartXmit (s : WrnDev) (len : ℕ) (hwTstamp : Bool) : WrnDev :=
  if wrnMtu < len then s
  else
    let (frameId, id) := takeId s.id
    let desc := s.nextTxHead
    if s.ready desc then { s with id := id }
    else
      { s with
        id := id
        nextTxHead := next wrnNrDesc desc
        -- an old buffer whose time stamp was not collected is silently discarded
        skbDesc := Function.update s.skbDesc desc
          { s.skbDesc desc with skb := some s.accepted.length, frameId := frameId }
        ready := Function.update s.ready desc true
        accepted := s.accepted ++ [⟨hwTstamp, frameId⟩]
        overwritten := s.overwritten ++ (s.skbDesc desc).skb.toList }

/-- The hardware completes the next frame. -/
def complete (s : WrnDev) : Option WrnDev :=
  if s.ready s.hwNext then
    some
      { s with
        ready := Function.update s.ready s.hwNext false
        hwNext := next wrnNrDesc s.hwNext
        completed := s.completed + 1 }
  else none

/-- `wrn_tx_tstamp_skb`: free the buffer if its time stamp was already reported. -/
def wrnTxTstampSkb (s : WrnDev) (i n : ℕ) : WrnDev :=
  if (s.skbDesc i).valid = 0 then s
  else
    { s with
      skbDesc := Function.update s.skbDesc i { s.skbDesc i with skb := none, valid := 0 }
      freed := s.freed ++ [n] }

/-- One turn of the loop of `wrn_tx_interrupt`. -/
def txTurn (s : WrnDev) : Option WrnDev :=
  let i := s.nextTxTail
  if i = s.nextTxHead then none
  else if s.ready i then none
  else
    match (s.skbDesc i).skb with
    | none => none
    | some n =>
      let s := if s.requested n then s.wrnTxTstampSkb i n
        else { s.setSkb i none with freed := s.freed ++ [n] }
      some { s with nextTxTail := next wrnNrDesc i, passed := s.passed + 1 }

def txLoop : ℕ → WrnDev → WrnDev
  | 0, s => s
  | fuel + 1, s =>
    match s.txTurn with
    | none => s
    | some s => txLoop fuel s

/-- `wrn_tx_interrupt`: the tail moves at most once around the ring. -/
def wrnTxInterrupt (s : WrnDev) : WrnDev := { txLoop wrnNrDesc s with delivered := s.completed }

/-- Find the buffer in the descriptor array. -/
def findSkb (s : WrnDev) (frameId : ℕ) : Option ℕ :=
  (List.range wrnNrDesc).find? fun i => (s.skbDesc i).skb.isSome && (s.skbDesc i).frameId == frameId

/-- `record_tstamp`. -/
def recordTstamp (s : WrnDev) (frameId : ℕ) : WrnDev :=
  match s.findSkb frameId with
  | none => s
  | some i => { s.setSkb i none with freed := s.freed ++ (s.skbDesc i).skb.toList }

/-- A time stamp comes once for each frame that asks for it. -/
def step (s : WrnDev) : NicAct → Option WrnDev
  | .startXmit len hwTstamp => some (s.wrnStartXmit len hwTstamp)
  | .complete => s.complete
  | .txInterrupt => some s.wrnTxInterrupt
  | .tstamp n =>
    match s.accepted[n]? with
    | none => none
    | some sent =>
      if sent.hwTstamp && !s.stamped.contains n then
        some { s.recordTstamp sent.frameId with stamped := s.stamped ++ [n] }
      else none

/-- A buffer is freed once, when the completion of its frame and the time stamp it asked for
were delivered; none is overwritten before; and the tail passes what is completed. -/
structure RingSound (s : WrnDev) : Prop where
  freed : ∀ n < s.accepted.length, s.freed.count n =
    if n < s.delivered ∧ (s.requested n = true → n ∈ s.stamped) then 1 else 0
  kept : s.overwritten = []
  passed : s.delivered ≤ s.passed

/-- A frame is accepted only when its descriptor holds no buffer and the head does not catch up
with the tail, and a time stamp comes only after the tail has passed the frame, while no
descriptor that is searched earlier holds a buffer with the same id. -/
def Orderly (s : WrnDev) : NicAct → Prop
  | .startXmit len _ => len ≤ wrnMtu → s.ready s.nextTxHead = false →
      (s.skbDesc s.nextTxHead).skb = none ∧ next wrnNrDesc s.nextTxHead ≠ s.nextTxTail
  | .tstamp n => n < s.passed ∧ ∀ sent, s.accepted[n]? = some sent →
      ∀ i < n % wrnNrDesc, (s.skbDesc i).skb.isSome = true → (s.skbDesc i).frameId ≠ sent.frameId
  | _ => True

instance (s : WrnDev) : ∀ a, Decidable (s.Orderly a)
  | .startXmit _ _ => inferInstanceAs (Decidable (_ → _ → _ ∧ _))
  | .tstamp n => inferInstanceAs (Decidable (_ ∧ ∀ sent ∈ s.accepted[n]?, _))
  | .complete => isTrue trivial
  | .txInterrupt => isTrue trivial

/-- The descriptors hold the frames that were not passed, and those that wait for a stamp. -/
structure Inv (s : WrnDev) : Prop where
  head : s.nextTxHead = s.accepted.length % 8
  tail : s.nextTxTail = s.passed % 8
  hw : s.hwNext = s.completed % 8
  passed_le : s.passed ≤ s.completed
  completed_le : s.completed ≤ s.accepted.length
  room : s.accepted.length < s.passed + 8
  ready : ∀ k, s.ready k = true ↔ ∃ n, k = n % 8 ∧ s.completed ≤ n ∧ n < s.accepted.length
  skb : ∀ k n, (s.skbDesc k).skb = some n ↔ k = n % 8 ∧ n < s.accepted.length ∧
    (s.passed ≤ n ∨ s.requested n = true ∧ n ∉ s.stamped)
  frame : ∀ k n, (s.skbDesc k).skb = some n → ∀ sent, s.accepted[n]? = some sent →
    (s.skbDesc k).frameId = sent.frameId
  valid : ∀ k, (s.skbDesc k).valid = 0
  stamped : ∀ n ∈ s.stamped, n < s.passed
  freed : ∀ n, s.freed.count n =
    if n < s.passed ∧ (s.requested n = true → n ∈ s.stamped) then 1 else 0
  kept : s.overwritten = []

variable {s s' : WrnDev}

theorem start_inv : Inv {} where
  head := rfl
  tail := rfl
  hw := rfl
  passed_le := Nat.le_refl _
  completed_le := Nat.le_refl _
  room := by decide
  ready := by simp
  skb := by simp
  frame := by simp
  valid := by simp
  stamped := by simp
  freed := by simp
  kept := rfl

theorem requested_lt {n : ℕ} (h : s.requested n = true) : n < s.accepted.length := by
  by_contra hn
  rw [requested, List.getElem?_eq_none (Nat.le_of_not_lt hn)] at h
  exact absurd h Bool.false_ne_true

/-- A frame that finds room is accepted. -/
theorem Inv.accept (h : s.Inv) {hwTstamp : Bool} {len : ℕ} (hlen : len ≤ wrnMtu)
    (hready : s.ready s.nextTxHead = false) (hskb : (s.skbDesc s.nextTxHead).skb = none)
    (hroom : next wrnNrDesc s.nextTxHead ≠ s.nextTxTail) : (s.wrnStartXmit len hwTstamp).Inv := by
  have hlt : s.accepted.length + 1 < s.passed + 8 := by
    have := h.room
    have := h.passed_le
    have := h.completed_le
    rw [h.head, h.tail, next, wrnNrDesc] at hroom
    omega
  have hreq : ∀ n < s.accepted.length, ∀ sent,
      ((s.accepted ++ [sent])[n]?.map Sent.hwTstamp).getD false = s.requested n := fun n hn sent => by
    rw [List.getElem?_append_left hn, requested]
  rw [wrnStartXmit, if_neg (Nat.not_lt.mpr hlen)]
  simp only [hready, Bool.false_eq_true, if_false]
  have hle := Nat.le_trans h.passed_le h.completed_le
  refine ⟨?_, h.tail, h.hw, h.passed_le, ?_, ?_, fun k => ?_, fun k n => ?_, fun k n hk sent hsent => ?_,
    fun k => ?_, h.stamped, fun n => ?_, ?_⟩
  · dsimp only
    rw [h.head, next, wrnNrDesc, List.length_append, List.length_singleton]
    omega
  · dsimp only
    rw [List.length_append]
    exact Nat.le_add_right_of_le h.completed_le
  · dsimp only
    rw [List.length_append]
    exact hlt
  · dsimp only
    rw [List.length_append, List.length_singleton]
    by_cases hk : k = s.nextTxHead
    · rw [hk, Function.update_self]
      exact ⟨fun _ => ⟨s.accepted.length, h.head, h.completed_le, Nat.lt_succ_self _⟩, fun _ => rfl⟩
    · rw [Function.update_of_ne hk, h.ready]
      constructor
      · rintro ⟨n, rfl, hn, hn'⟩
        exact ⟨n, rfl, hn, Nat.lt_succ_of_lt hn'⟩
      · rintro ⟨n, rfl, hn, hn'⟩
        refine ⟨n, rfl, hn, Nat.lt_of_le_of_ne (Nat.le_of_lt_succ hn') ?_⟩
        rintro rfl
        exact hk h.head.symm
  · dsimp only [requested]
    rw [List.length_append, List.length_singleton]
    by_cases hk : k = s.nextTxHead
    · rw [hk, Function.update_self, Option.some_inj]
      constructor
      · rintro rfl
        exact ⟨h.head, Nat.lt_succ_self _, .inl hle⟩
      · rintro ⟨hslot, hn, hkept⟩
        by_contra hne
        have hn : n < s.accepted.length := Nat.lt_of_le_of_ne (Nat.le_of_lt_succ hn) (Ne.symm hne)
        rw [hreq n hn] at hkept
        have := (h.skb s.nextTxHead n).mpr ⟨hslot, hn, hkept⟩
        rw [hskb] at this
        exact absurd this (by simp)
    · rw [Function.update_of_ne hk, h.skb]
      constructor
      · rintro ⟨rfl, hn, hkept⟩
        refine ⟨rfl, Nat.lt_succ_of_lt hn, ?_⟩
        rwa [hreq n hn]
      · rintro ⟨rfl, hn, hkept⟩
        have hn : n < s.accepted.length := by
          refine Nat.lt_of_le_of_ne (Nat.le_of_lt_succ hn) ?_
          rintro rfl
          exact hk h.head.symm
        rw [hreq n hn] at hkept
        exact ⟨rfl, hn, hkept⟩
  · dsimp only at hk hsent ⊢
    by_cases hslot : k = s.nextTxHead
    · rw [hslot, Function.update_self] at hk ⊢
      cases Option.some_inj.mp hk
      rw [List.getElem?_append_right (Nat.le_refl _), Nat.sub_self] at hsent
      cases hsent
      rfl
    · rw [Function.update_of_ne hslot] at hk ⊢
      have hn := ((h.skb k n).mp hk).2.1
      rw [List.getElem?_append_left hn] at hsent
      exact h.frame k n hk sent hsent
  · dsimp only
    by_cases hk : k = s.nextTxHead
    · rw [hk, Function.update_self]
      exact h.valid _
    · rw [Function.update_of_ne hk]
      exact h.valid k
  · dsimp only
    rw [h.freed]
    refine if_congr (and_congr_right fun hn => ?_) rfl rfl
    simp only [requested, List.getElem?_append_left (Nat.lt_of_lt_of_le hn hle)]
  · dsimp only
    rw [h.kept, hskb]
    rfl

theorem Inv.startXmit (h : s.Inv) {len : ℕ} {hwTstamp : Bool} (hc : s.Orderly (.startXmit len hwTstamp)) :
    (s.wrnStartXmit len hwTstamp).Inv := by
  by_cases hlen : wrnMtu < len
  · rw [wrnStartXmit, if_pos hlen]
    exact h
  · have hlen := Nat.le_of_not_lt hlen
    cases hready : s.ready s.nextTxHead with
    | false => exact h.accept hlen hready (hc hlen hready).1 (hc hlen hready).2
    | true =>
      rw [wrnStartXmit, if_neg (Nat.not_lt.mpr hlen)]
      simp only [hready, if_true]
      exact { h with }

theorem Inv.complete (h : s.Inv) (hs : s.complete = some s') : s'.Inv := by
  rw [WrnDev.complete] at hs
  split at hs
  · rename_i hready
    cases hs
    have hroom := h.room
    have hpassed := h.passed_le
    have hlt : s.completed < s.accepted.length := by
      obtain ⟨n, -, hn, hn'⟩ := (h.ready _).mp hready
      exact Nat.lt_of_le_of_lt hn hn'
    refine { h with
      hw := ?_, passed_le := Nat.le_succ_of_le h.passed_le, completed_le := hlt, ready := fun k => ?_ }
    · dsimp only
      rw [h.hw, next, wrnNrDesc]
      omega
    · dsimp only
      by_cases hk : k = s.hwNext
      · rw [hk, Function.update_self, h.hw]
        refine ⟨fun he => absurd he Bool.false_ne_true, ?_⟩
        rintro ⟨n, hslot, hn, hn'⟩
        omega
      · rw [Function.update_of_ne hk, h.ready]
        constructor
        · rintro ⟨n, rfl, hn, hn'⟩
          refine ⟨n, rfl, Nat.lt_of_le_of_ne hn ?_, hn'⟩
          rintro rfl
          exact hk h.hw.symm
        · rintro ⟨n, rfl, hn, hn'⟩
          exact ⟨n, rfl, Nat.le_of_succ_le hn, hn'⟩
  · simp at hs

@[simp] theorem setSkb_valid (s : WrnDev) (i : ℕ) (skb : Option ℕ) (k : ℕ) :
    ((s.setSkb i skb).skbDesc k).valid = (s.skbDesc k).valid := by
  by_cases hk : k = i
  · simp only [hk, setSkb, Function.update_self]
  · simp only [setSkb, Function.update_of_ne hk]

@[simp] theorem setSkb_frameId (s : WrnDev) (i : ℕ) (skb : Option ℕ) (k : ℕ) :
    ((s.setSkb i skb).skbDesc k).frameId = (s.skbDesc k).frameId := by
  by_cases hk : k = i
  · simp only [hk, setSkb, Function.update_self]
  · simp only [setSkb, Function.update_of_ne hk]

/-- Clearing the slot of a buffer takes this buffer out and no other. -/
theorem setSkb_none {P : ℕ → Prop} (h : ∀ k n, (s.skbDesc k).skb = some n ↔ k = n % 8 ∧ P n) {m : ℕ}
    (hm : P m) (k n : ℕ) :
    ((s.setSkb (m % 8) none).skbDesc k).skb = some n ↔ k = n % 8 ∧ P n ∧ n ≠ m := by
  by_cases hk : k = m % 8
  · simp only [hk, setSkb, Function.update_self]
    refine ⟨fun he => absurd he (by simp), ?_⟩
    rintro ⟨hslot, hn, hne⟩
    have hboth := ((h (m % 8) n).mpr ⟨hslot, hn⟩).symm.trans ((h (m % 8) m).mpr ⟨rfl, hm⟩)
    exact absurd (Option.some_inj.mp hboth) hne
  · simp only [setSkb, Function.update_of_ne hk, h]
    refine and_congr_right fun hslot => ⟨fun hn => ⟨hn, ?_⟩, And.left⟩
    rintro rfl
    exact hk hslot

theorem Inv.frame_setSkb (h : s.Inv) (i k n : ℕ) (hk : ((s.setSkb i none).skbDesc k).skb = some n)
    (sent : Sent) (hsent : s.accepted[n]? = some sent) :
    ((s.setSkb i none).skbDesc k).frameId = sent.frameId := by
  rw [setSkb_frameId]
  apply h.frame k n ?_ sent hsent
  by_cases he : k = i
  · simp only [he, setSkb, Function.update_self] at hk
    exact absurd hk (by simp)
  · simpa only [setSkb, Function.update_of_ne he] using hk

/-- The frame at the tail, when it was completed. -/
theorem Inv.tail_frame (h : s.Inv) (hne : s.nextTxTail ≠ s.nextTxHead)
    (hready : s.ready s.nextTxTail = false) :
    s.passed < s.completed ∧ (s.skbDesc s.nextTxTail).skb = some s.passed := by
  have hlt : s.passed < s.accepted.length := by
    refine Nat.lt_of_le_of_ne (Nat.le_trans h.passed_le h.completed_le) fun he => hne ?_
    rw [h.tail, h.head, he]
  refine ⟨Nat.lt_of_le_of_ne h.passed_le fun he => ?_, ?_⟩
  · have := (h.ready s.nextTxTail).mpr ⟨s.passed, h.tail, Nat.le_of_eq he.symm, hlt⟩
    rw [hready] at this
    exact absurd this Bool.false_ne_true
  · exact (h.skb _ _).mpr ⟨h.tail, hlt, .inl (Nat.le_refl _)⟩

/-- A turn of the completion interrupt passes one frame. -/
theorem Inv.txTurn (h : s.Inv) (ht : s.txTurn = some s') :
    s'.Inv ∧ s'.completed = s.completed ∧ s'.passed = s.passed + 1 := by
  rw [WrnDev.txTurn] at ht
  dsimp only at ht
  split at ht
  · simp at ht
  rename_i hne
  split at ht
  · simp at ht
  rename_i hready
  obtain ⟨hlt, hskb⟩ := h.tail_frame hne (by simpa using hready)
  rw [hskb] at ht
  simp only [Option.some_inj] at ht
  have hunstamped : s.passed ∉ s.stamped := fun hm => Nat.lt_irrefl _ (h.stamped _ hm)
  have htail : next wrnNrDesc s.nextTxTail = (s.passed + 1) % 8 := by
    rw [h.tail, next, wrnNrDesc]
    omega
  have hroom : s.accepted.length < s.passed + 1 + 8 := Nat.lt_of_lt_of_le h.room (by omega)
  have hstamped : ∀ n ∈ s.stamped, n < s.passed + 1 := fun n hn => Nat.lt_succ_of_lt (h.stamped n hn)
  cases hreq : s.requested s.passed with
  | true =>
    rw [hreq, if_pos rfl, wrnTxTstampSkb, if_pos (h.valid _)] at ht
    subst ht
    refine ⟨{ h with
      tail := htail, passed_le := hlt, room := hroom, stamped := hstamped,
      skb := fun k n => ?_, freed := fun n => ?_ }, rfl, rfl⟩
    · dsimp only [requested]
      rw [h.skb, requested]
      refine and_congr_right fun hk => and_congr_right fun hn => ?_
      constructor
      · rintro (hp | hp)
        · by_cases he : n = s.passed
          · subst he
            exact .inr ⟨hreq, hunstamped⟩
          · exact .inl (Nat.lt_of_le_of_ne hp (Ne.symm he))
        · exact .inr hp
      · rintro (hp | hp)
        · exact .inl (Nat.le_of_succ_le hp)
        · exact .inr hp
    · dsimp only
      rw [h.freed]
      refine if_congr ?_ rfl rfl
      constructor
      · rintro ⟨hn, hst⟩
        exact ⟨Nat.lt_succ_of_lt hn, hst⟩
      · rintro ⟨hn, hst⟩
        refine ⟨Nat.lt_of_le_of_ne (Nat.le_of_lt_succ hn) ?_, hst⟩
        rintro rfl
        exact hunstamped (hst hreq)
  | false =>
    rw [hreq, if_neg Bool.false_ne_true] at ht
    subst ht
    refine ⟨{ h with
      tail := htail, passed_le := hlt, room := hroom, stamped := hstamped, skb := fun k n => ?_,
      frame := h.frame_setSkb s.nextTxTail, valid := fun k => ?_, freed := fun n => ?_ }, rfl, rfl⟩
    · have hslot := setSkb_none h.skb ⟨Nat.lt_of_lt_of_le hlt h.completed_le, .inl (Nat.le_refl _)⟩ k n
      rw [← h.tail] at hslot
      refine hslot.trans (and_congr_right fun _ => ?_)
      rw [and_assoc]
      refine and_congr_right fun _ => ?_
      constructor
      · rintro ⟨hp | hp, hne⟩
        · exact .inl (Nat.lt_of_le_of_ne hp (Ne.symm hne))
        · exact .inr hp
      · rintro (hp | hp)
        · exact ⟨.inl (Nat.le_of_succ_le hp), Nat.ne_of_gt hp⟩
        · refine ⟨.inr hp, ?_⟩
          rintro rfl
          exact absurd (hreq.symm.trans hp.1) Bool.false_ne_true
    · rw [setSkb_valid]
      exact h.valid k
    · show (s.freed ++ [s.passed]).count n =
        if n < s.passed + 1 ∧ (s.requested n = true → n ∈ s.stamped) then 1 else 0
      rw [List.count_append, h.freed, List.count_singleton]
      by_cases he : n = s.passed
      · have hnew : s.requested n = true → n ∈ s.stamped := fun hr => by
          rw [he, hreq] at hr
          exact absurd hr Bool.false_ne_true
        have hpos : n < s.passed + 1 ∧ (s.requested n = true → n ∈ s.stamped) :=
          ⟨Nat.lt_succ_of_le (Nat.le_of_eq he), hnew⟩
        rw [if_neg fun hn => Nat.ne_of_lt hn.1 he, if_pos hpos, he, beq_self_eq_true]
        rfl
      · have hiff : n < s.passed + 1 ↔ n < s.passed :=
          ⟨fun hn => Nat.lt_of_le_of_ne (Nat.le_of_lt_succ hn) he, Nat.lt_succ_of_lt⟩
        have hbeq : (s.passed == n) = false := beq_false_of_ne (Ne.symm he)
        rw [hbeq]
        exact if_congr (and_congr_left fun _ => hiff.symm) rfl rfl

theorem Inv.txLoop (h : s.Inv) (fuel : ℕ) : (txLoop fuel s).Inv ∧ (txLoop fuel s).completed = s.completed := by
  induction fuel generalizing s with
  | zero => exact ⟨h, rfl⟩
  | succ fuel ih =>
    rw [WrnDev.txLoop]
    cases ht : s.txTurn with
    | none => exact ⟨h, rfl⟩
    | some s' =>
      obtain ⟨h', hc, -⟩ := h.txTurn ht
      obtain ⟨hloop, hcompleted⟩ := ih h'
      exact ⟨hloop, hcompleted.trans hc⟩

/-- The turns end with the tail at the head, or at a frame that is not completed. -/
theorem Inv.txTurn_none (h : s.Inv) (ht : s.txTurn = none) : s.passed = s.completed := by
  by_contra hne
  have hlt : s.passed < s.completed := Nat.lt_of_le_of_ne h.passed_le hne
  have htail : s.nextTxTail ≠ s.nextTxHead := by
    have := h.room
    have := h.completed_le
    rw [h.tail, h.head]
    omega
  have hready : s.ready s.nextTxTail = false := by
    by_contra hr
    obtain ⟨n, hslot, hn, hn'⟩ := (h.ready _).mp (by simpa using hr)
    have := h.room
    rw [h.tail] at hslot
    omega
  obtain ⟨-, hskb⟩ := h.tail_frame htail hready
  rw [WrnDev.txTurn] at ht
  dsimp only at ht
  rw [if_neg htail, hready, if_neg Bool.false_ne_true, hskb] at ht
  simp at ht

/-- Eight turns are enough. -/
theorem Inv.txLoop_none (h : s.Inv) (fuel : ℕ) (hfuel : s.completed - s.passed ≤ fuel) :
    (WrnDev.txLoop fuel s).passed = s.completed := by
  induction fuel generalizing s with
  | zero => exact Nat.le_antisymm h.passed_le (Nat.sub_eq_zero_iff_le.mp (Nat.le_zero.mp hfuel))
  | succ fuel ih =>
    rw [WrnDev.txLoop]
    cases ht : s.txTurn with
    | none => exact h.txTurn_none ht
    | some s' =>
      obtain ⟨h', hc, hp⟩ := h.txTurn ht
      exact (ih h' (by omega)).trans hc

/-- A completion interrupt passes every completed frame. -/
theorem Inv.txInterrupt (h : s.Inv) : s.wrnTxInterrupt.Inv ∧
    s.wrnTxInterrupt.delivered = s.wrnTxInterrupt.passed := by
  have hfuel : s.completed - s.passed ≤ wrnNrDesc := by
    have := h.room
    have := h.completed_le
    rw [wrnNrDesc]
    omega
  exact ⟨{ (h.txLoop wrnNrDesc).1 with }, (h.txLoop_none wrnNrDesc hfuel).symm⟩

/-- The descriptor of a frame that waits for its stamp is found. -/
theorem Inv.findSkb_eq (h : s.Inv) {n : ℕ} {sent : Sent} (hsent : s.accepted[n]? = some sent)
    (hslot : (s.skbDesc (n % wrnNrDesc)).skb = some n)
    (hfirst : ∀ i < n % wrnNrDesc, (s.skbDesc i).skb.isSome = true → (s.skbDesc i).frameId ≠ sent.frameId) :
    s.findSkb sent.frameId = some (n % wrnNrDesc) := by
  rw [findSkb, List.find?_range_eq_some]
  refine ⟨?_, List.mem_range.mpr (Nat.mod_lt _ (by decide)), fun i hi => ?_⟩
  · rw [hslot, h.frame _ n hslot sent hsent, Option.isSome_some, beq_self_eq_true]
    rfl
  · have := hfirst i hi
    cases hs : (s.skbDesc i).skb.isSome with
    | false => rfl
    | true => simpa using this hs

/-- A stamp frees the buffer it is for. -/
theorem Inv.tstamp (h : s.Inv) {n : ℕ} (hc : s.Orderly (.tstamp n)) (hs : s.step (.tstamp n) = some s') :
    s'.Inv ∧ s'.delivered = s.delivered ∧ s'.passed = s.passed := by
  obtain ⟨hpassed, hfirst⟩ := hc
  rw [step] at hs
  cases hsent : s.accepted[n]? with
  | none => simp [hsent] at hs
  | some sent =>
    simp only [hsent] at hs
    split at hs
    · rename_i hwaits
      have hnew : n ∉ s.stamped := fun hm => by simp [hm] at hwaits
      have hreq : s.requested n = true := by
        rw [requested, hsent]
        exact (Bool.and_eq_true_iff.mp hwaits).1
      have hn := requested_lt hreq
      have hslot : (s.skbDesc (n % wrnNrDesc)).skb = some n := (h.skb _ n).mpr ⟨rfl, hn, .inr ⟨hreq, hnew⟩⟩
      have hstamp : s.recordTstamp sent.frameId =
          { s.setSkb (n % wrnNrDesc) none with freed := s.freed ++ [n] } := by
        rw [recordTstamp, h.findSkb_eq hsent hslot (hfirst sent hsent)]
        simp only [hslot, Option.toList_some]
      rw [hstamp] at hs
      cases hs
      refine ⟨{ h with
        skb := fun k m => ?_, frame := h.frame_setSkb _, valid := fun k => ?_, stamped := fun m hm => ?_,
        freed := fun m => ?_ }, rfl, rfl⟩
      · have hclear := setSkb_none h.skb ⟨hn, .inr ⟨hreq, hnew⟩⟩ k m
        refine hclear.trans (and_congr_right fun _ => ?_)
        rw [and_assoc]
        refine and_congr_right fun _ => ?_
        dsimp only
        rw [List.mem_append, List.mem_singleton, not_or]
        constructor
        · rintro ⟨hp | hp, hne⟩
          · exact .inl hp
          · exact .inr ⟨hp.1, hp.2, hne⟩
        · rintro (hp | hp)
          · exact ⟨.inl hp, fun he => Nat.not_lt.mpr hp (he ▸ hpassed)⟩
          · exact ⟨.inr ⟨hp.1, hp.2.1⟩, hp.2.2⟩
      · rw [setSkb_valid]
        exact h.valid k
      · cases List.mem_append.mp hm with
        | inl hm => exact h.stamped m hm
        | inr hm =>
          rw [List.mem_singleton.mp hm]
          exact hpassed
      · show (s.freed ++ [n]).count m =
          if m < s.passed ∧ (s.requested m = true → m ∈ s.stamped ++ [n]) then 1 else 0
        rw [List.count_append, h.freed, List.count_singleton]
        have hmem : m ∈ s.stamped ++ [n] ↔ m ∈ s.stamped ∨ m = n := by
          rw [List.mem_append, List.mem_singleton]
        by_cases he : m = n
        · have hneg : ¬ (m < s.passed ∧ (s.requested m = true → m ∈ s.stamped)) := fun hm => by
            rw [he] at hm
            exact hnew (hm.2 hreq)
          have hpos : m < s.passed ∧ (s.requested m = true → m ∈ s.stamped ++ [n]) :=
            ⟨Nat.lt_of_le_of_lt (Nat.le_of_eq he) hpassed, fun _ => hmem.mpr (.inr he)⟩
          rw [if_neg hneg, if_pos hpos, he, beq_self_eq_true]
          rfl
        · have hbeq : (n == m) = false := beq_false_of_ne (Ne.symm he)
          rw [hbeq]
          refine if_congr (and_congr_right fun _ => imp_congr_right fun _ => ?_) rfl rfl
          exact (hmem.trans (or_iff_left he)).symm
    · simp at hs

theorem wrnStartXmit_history (s : WrnDev) (len : ℕ) (hwTstamp : Bool) :
    (s.wrnStartXmit len hwTstamp).delivered = s.delivered ∧
      (s.wrnStartXmit len hwTstamp).passed = s.passed := by
  rw [wrnStartXmit]
  split
  · exact ⟨rfl, rfl⟩
  · dsimp only
    split <;> exact ⟨rfl, rfl⟩

/-- An orderly step keeps the invariant. -/
theorem Inv.step (h : s.Inv ∧ s.delivered = s.passed) {a : NicAct} (hc : s.Orderly a)
    (hs : s.step a = some s') : s'.Inv ∧ s'.delivered = s'.passed := by
  obtain ⟨h, hdelivered⟩ := h
  cases a with
  | startXmit len hwTstamp =>
    cases hs
    obtain ⟨hd, hp⟩ := wrnStartXmit_history s len hwTstamp
    exact ⟨h.startXmit hc, by rw [hd, hp, hdelivered]⟩
  | complete =>
    refine ⟨h.complete hs, ?_⟩
    rw [WrnDev.step, WrnDev.complete] at hs
    split at hs
    · cases hs
      exact hdelivered
    · simp at hs
  | txInterrupt =>
    cases hs
    exact h.txInterrupt
  | tstamp n =>
    obtain ⟨h', hd, hp⟩ := h.tstamp hc hs
    exact ⟨h', by rw [hd, hp, hdelivered]⟩

theorem Inv.ringSound (h : s.Inv) (hdelivered : s.delivered = s.passed) : s.RingSound where
  freed n _ := by
    rw [h.freed, hdelivered]
  kept := h.kept
  passed := Nat.le_of_eq hdelivered

/-- Along an orderly run, every buffer is freed once and in time, none is overwritten, and the
tail keeps up with the hardware. -/
theorem ringSound_run {acts : List NicAct} (hc : Obeys step Orderly {} acts)
    (hrun : run step {} acts = some s) : s.RingSound := by
  have h := run_invariant (I := fun s : WrnDev => s.Inv ∧ s.delivered = s.passed)
    (fun h hc hs => Inv.step h hc hs) ⟨start_inv, rfl⟩ hc hrun
  exact h.1.ringSound h.2

/-- A frame with a time stamp whose completion interrupt comes first. -/
theorem ringSound_completion_first :
    ∃ s, run step {} [.startXmit 100 true, .complete, .txInterrupt, .tstamp 0] = some s ∧ s.RingSound := by
  obtain ⟨s, hs⟩ := Option.isSome_iff_exists.mp (show (run step {}
    [.startXmit 100 true, .complete, .txInterrupt, .tstamp 0]).isSome = true by decide)
  exact ⟨s, hs, ringSound_run (by decide) hs⟩

/-- The stamp comes before the completion interrupt: the buffer is freed, and the tail stays. -/
theorem stamp_first_sticks :
    ∃ s, run step {} [.startXmit 100 true, .complete, .tstamp 0, .txInterrupt] = some s ∧ ¬ s.RingSound := by
  obtain ⟨s, hs⟩ := Option.isSome_iff_exists.mp (show (run step {}
    [.startXmit 100 true, .complete, .tstamp 0, .txInterrupt]).isSome = true by decide)
  have hcounts := congrArg (Option.map fun s : WrnDev => (s.delivered, s.passed)) hs
  have hsticks : (run step {} [.startXmit 100 true, .complete, .tstamp 0, .txInterrupt]).map
      (fun s : WrnDev => (s.delivered, s.passed)) = some (1, 0) := by decide
  refine ⟨s, hs, fun h => ?_⟩
  obtain ⟨hd, hp⟩ := Prod.mk.inj (Option.some_inj.mp (hcounts.symm.trans hsticks))
  have hle := h.passed
  rw [hd, hp] at hle
  exact absurd hle (by decide)

end WrnDev

end WhiteRabbit.Nic
