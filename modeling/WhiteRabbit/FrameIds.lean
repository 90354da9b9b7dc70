import WhiteRabbit.NicTransmitRing

/-!
# The ids of frames that wait for a time stamp

Each attempt to send takes the next id, whether a descriptor is free or not, and there are
65535 of them. The time stamp comes with the id, by which the driver finds the frame.
-/

namespace WhiteRabbit.Nic
open RingArcs StepRuns

/-- A time stamp may come with any id. -/
inductive FrameAct where
  | startXmit (len : ℕ) (hwTstamp : Bool)
  | complete
  | txInterrupt
  | tstamp (frameId : ℕ)

/-- The device, the attempts to send so far, and the attempt in which each buffer was accepted. -/
structure Attempts where
  dev : WrnDev := {}
  count : ℕ := 0
  taken : ℕ → ℕ := fun _ => 0

namespace Attempts

def startXmit (s : Attempts) (len : ℕ) (hwTstamp : Bool) : Attempts where
  dev := s.dev.wrnStartXmit len hwTstamp
  count := if wrnMtu < len then s.count else s.count + 1
  taken := Function.update s.taken s.dev.accepted.length s.count

def step (s : Attempts) : FrameAct → Option Attempts
  | .startXmit len hwTstamp => some (s.startXmit len hwTstamp)
  | .complete => s.dev.complete.map fun dev => { s with dev := dev }
  | .txInterrupt => some { s with dev := s.dev.wrnTxInterrupt }
  | .tstamp frameId => some { s with dev := s.dev.recordTstamp frameId }

end Attempts

/-- The id that an attempt takes. -/
def attemptId (attempt : ℕ) : ℕ := attempt % 65535 + 1

theorem attemptId_eq_iff {a b : ℕ} (h : a ≤ b) : attemptId b = attemptId a ↔ 65535 ∣ b - a := by
  rw [attemptId, attemptId]
  omega

namespace WrnDev

/-- Descriptors may have lost their buffers; nothing else that the ids depend on has changed. -/
structure Clears (s s' : WrnDev) : Prop where
  id : s'.id = s.id
  accepted : s'.accepted = s.accepted
  head : s'.nextTxHead = s.nextTxHead
  frameId : ∀ i, (s'.skbDesc i).frameId = (s.skbDesc i).frameId
  skb : ∀ i n, (s'.skbDesc i).skb = some n → (s.skbDesc i).skb = some n

variable {s s' : WrnDev}

theorem Clears.refl (s : WrnDev) : Clears s s :=
  ⟨rfl, rfl, rfl, fun _ => rfl, fun _ _ h => h⟩

theorem Clears.trans {s'' : WrnDev} (h : Clears s s') (h' : Clears s' s'') : Clears s s'' :=
  ⟨h'.id.trans h.id, h'.accepted.trans h.accepted, h'.head.trans h.head,
    fun i => (h'.frameId i).trans (h.frameId i), fun i n hn => h.skb i n (h'.skb i n hn)⟩

theorem clears_setSkb (s : WrnDev) (i : ℕ) : Clears s (s.setSkb i none) := by
  refine ⟨rfl, rfl, rfl, setSkb_frameId s i none, fun k n hn => ?_⟩
  by_cases hk : k = i
  · simp only [hk, setSkb, Function.update_self] at hn
    exact absurd hn (by simp)
  · simpa only [setSkb, Function.update_of_ne hk] using hn

theorem clears_wrnTxTstampSkb (s : WrnDev) (i n : ℕ) : Clears s (s.wrnTxTstampSkb i n) := by
  rw [wrnTxTstampSkb]
  split
  · exact Clears.refl s
  · refine ⟨rfl, rfl, rfl, fun k => ?_, fun k m hm => ?_⟩
    · by_cases hk : k = i
      · simp only [hk, Function.update_self]
      · simp only [Function.update_of_ne hk]
    · by_cases hk : k = i
      · simp only [hk, Function.update_self] at hm
        exact absurd hm (by simp)
      · simpa only [Function.update_of_ne hk] using hm

theorem clears_txTurn (h : s.txTurn = some s') : Clears s s' := by
  rw [txTurn] at h
  dsimp only at h
  split at h
  · simp at h
  split at h
  · simp at h
  split at h
  · simp at h
  rename_i n hskb
  cases h
  split
  · exact (clears_wrnTxTstampSkb s s.nextTxTail n).trans ⟨rfl, rfl, rfl, fun _ => rfl, fun _ _ h => h⟩
  · exact (clears_setSkb s s.nextTxTail).trans ⟨rfl, rfl, rfl, fun _ => rfl, fun _ _ h => h⟩

theorem clears_wrnTxInterrupt (s : WrnDev) : Clears s s.wrnTxInterrupt := by
  have hloop : ∀ fuel (s : WrnDev), Clears s (txLoop fuel s) := by
    intro fuel
    induction fuel with
    | zero => exact Clears.refl
    | succ fuel ih =>
      intro s
      rw [txLoop]
      cases hturn : s.txTurn with
      | none => exact Clears.refl s
      | some s' => exact (clears_txTurn hturn).trans (ih s')
  exact (hloop wrnNrDesc s).trans ⟨rfl, rfl, rfl, fun _ => rfl, fun _ _ h => h⟩

theorem clears_recordTstamp (s : WrnDev) (frameId : ℕ) : Clears s (s.recordTstamp frameId) := by
  rw [recordTstamp]
  split
  · exact Clears.refl s
  · rename_i i hi
    exact (clears_setSkb s i).trans ⟨rfl, rfl, rfl, fun _ => rfl, fun _ _ h => h⟩

theorem clears_complete (h : s.complete = some s') : Clears s s' := by
  rw [WrnDev.complete] at h
  split at h
  · cases h
    exact ⟨rfl, rfl, rfl, fun _ => rfl, fun _ _ h => h⟩
  · simp at h

end WrnDev

namespace Attempts

variable {s s' : Attempts}

/-- A step that is no attempt leaves the ids as they are. -/
theorem step_cases {a : FrameAct} (hs : s.step a = some s') :
    (∃ len hwTstamp, a = .startXmit len hwTstamp ∧ s' = s.startXmit len hwTstamp) ∨
      ((∀ len hwTstamp, a ≠ .startXmit len hwTstamp) ∧
        ∃ dev, s.dev.Clears dev ∧ s' = { s with dev := dev }) := by
  cases a with
  | startXmit len hwTstamp =>
    cases hs
    exact .inl ⟨len, hwTstamp, rfl, rfl⟩
  | complete =>
    obtain ⟨dev, hdev, rfl⟩ := Option.map_eq_some_iff.mp hs
    exact .inr ⟨by simp, dev, WrnDev.clears_complete hdev, rfl⟩
  | txInterrupt =>
    cases hs
    exact .inr ⟨by simp, _, WrnDev.clears_wrnTxInterrupt s.dev, rfl⟩
  | tstamp frameId =>
    cases hs
    exact .inr ⟨by simp, _, WrnDev.clears_recordTstamp s.dev frameId, rfl⟩

/-- The counter follows the attempts, and a frame that waits has the id of its attempt. -/
structure Numbered (s : Attempts) : Prop where
  head : s.dev.nextTxHead < wrnNrDesc
  id : s.dev.id % 2 ^ 16 = if s.count % 65535 = 0 then 0 else s.count % 65535 + 1
  waiting : ∀ i n, (s.dev.skbDesc i).skb = some n → n < s.dev.accepted.length
  frameId : ∀ i n, (s.dev.skbDesc i).skb = some n → (s.dev.skbDesc i).frameId = attemptId (s.taken n)
  sent : ∀ n sent, s.dev.accepted[n]? = some sent → sent.frameId = attemptId (s.taken n)
  earlier : ∀ n < s.dev.accepted.length, s.taken n < s.count

theorem takeId_eq {id count : ℕ} (h : id % 2 ^ 16 = if count % 65535 = 0 then 0 else count % 65535 + 1) :
    (WrnDev.takeId id).1 = attemptId count ∧
      (WrnDev.takeId id).2 % 2 ^ 16 = if (count + 1) % 65535 = 0 then 0 else (count + 1) % 65535 + 1 := by
  rw [WrnDev.takeId, attemptId]
  split at h <;> rename_i hc
  · rw [if_pos h]
    split <;> omega
  · rw [if_neg (by omega)]
    split <;> omega

theorem Numbered.clear (h : s.Numbered) {dev : WrnDev} (hc : s.dev.Clears dev) :
    Numbered { s with dev := dev } := by
  refine ⟨?_, ?_, fun i n hn => ?_, fun i n hn => ?_, fun n sent hsent => ?_, fun n hn => ?_⟩
  · dsimp only
    rw [hc.head]
    exact h.head
  · dsimp only
    rw [hc.id]
    exact h.id
  · dsimp only
    rw [hc.accepted]
    exact h.waiting i n (hc.skb i n hn)
  · dsimp only
    rw [hc.frameId]
    exact h.frameId i n (hc.skb i n hn)
  · dsimp only at hsent
    rw [hc.accepted] at hsent
    exact h.sent n sent hsent
  · dsimp only at hn
    rw [hc.accepted] at hn
    exact h.earlier n hn

/-- An attempt that finds a free descriptor. -/
def Accepts (s : Attempts) (len : ℕ) : Prop := len ≤ wrnMtu ∧ s.dev.ready s.dev.nextTxHead = false

instance (s : Attempts) (len : ℕ) : Decidable (s.Accepts len) := inferInstanceAs (Decidable (_ ∧ _))

/-- The device after an attempt that finds a free descriptor. -/
theorem startXmit_accepts {len : ℕ} (h : s.Accepts len) (hwTstamp : Bool) :
    (s.startXmit len hwTstamp).dev =
      { s.dev with
        id := (WrnDev.takeId s.dev.id).2
        nextTxHead := next wrnNrDesc s.dev.nextTxHead
        skbDesc := Function.update s.dev.skbDesc s.dev.nextTxHead
          { s.dev.skbDesc s.dev.nextTxHead with
            skb := some s.dev.accepted.length, frameId := (WrnDev.takeId s.dev.id).1 }
        ready := Function.update s.dev.ready s.dev.nextTxHead true
        accepted := s.dev.accepted ++ [⟨hwTstamp, (WrnDev.takeId s.dev.id).1⟩]
        overwritten := s.dev.overwritten ++ (s.dev.skbDesc s.dev.nextTxHead).skb.toList } := by
  rw [startXmit, WrnDev.wrnStartXmit, if_neg (Nat.not_lt.mpr h.1)]
  simp only [h.2, Bool.false_eq_true, if_false]

/-- An attempt that finds none takes an id, and a frame that is too long nothing. -/
theorem startXmit_refused {len : ℕ} (h : ¬ s.Accepts len) (hwTstamp : Bool) :
    ∃ id, (s.startXmit len hwTstamp).dev = { s.dev with id := id } ∧
      (wrnMtu < len ∧ id = s.dev.id ∨ len ≤ wrnMtu ∧ id = (WrnDev.takeId s.dev.id).2) := by
  rw [startXmit, WrnDev.wrnStartXmit]
  by_cases hlen : wrnMtu < len
  · exact ⟨s.dev.id, by rw [if_pos hlen], .inl ⟨hlen, rfl⟩⟩
  · have hready : s.dev.ready s.dev.nextTxHead = true := by
      rw [Accepts, not_and] at h
      simpa using h (Nat.le_of_not_lt hlen)
    refine ⟨(WrnDev.takeId s.dev.id).2, ?_, .inr ⟨Nat.le_of_not_lt hlen, rfl⟩⟩
    rw [if_neg hlen]
    simp only [hready, if_true]

theorem Numbered.startXmit (h : s.Numbered) (len : ℕ) (hwTstamp : Bool) : (s.startXmit len hwTstamp).Numbered := by
  obtain ⟨hid, hnext⟩ := takeId_eq h.id
  have hold : ∀ n < s.dev.accepted.length, (s.startXmit len hwTstamp).taken n = s.taken n := fun n hn =>
    Function.update_of_ne (Nat.ne_of_lt hn) _ _
  have hnew : (s.startXmit len hwTstamp).taken s.dev.accepted.length = s.count := Function.update_self _ _ _
  have hcount : s.count ≤ (s.startXmit len hwTstamp).count := by
    rw [Attempts.startXmit]
    dsimp only
    split <;> omega
  by_cases hacc : s.Accepts len
  · have hcount' : (s.startXmit len hwTstamp).count = s.count + 1 := if_neg (Nat.not_lt.mpr hacc.1)
    have hdev := startXmit_accepts hacc hwTstamp
    refine ⟨?_, ?_, fun i n hn => ?_, fun i n hn => ?_, fun n sent hsent => ?_, fun n hn => ?_⟩
    · rw [hdev]
      exact next_lt (show 0 < wrnNrDesc by decide) _
    · rw [hdev, hcount']
      exact hnext
    · rw [hdev] at hn ⊢
      dsimp only at hn ⊢
      rw [List.length_append, List.length_singleton]
      by_cases hi : i = s.dev.nextTxHead
      · rw [hi, Function.update_self] at hn
        cases hn
        exact Nat.lt_succ_self _
      · rw [Function.update_of_ne hi] at hn
        exact Nat.lt_succ_of_lt (h.waiting i n hn)
    · rw [hdev] at hn ⊢
      dsimp only at hn ⊢
      by_cases hi : i = s.dev.nextTxHead
      · rw [hi, Function.update_self] at hn ⊢
        cases hn
        rw [hnew]
        exact hid
      · rw [Function.update_of_ne hi] at hn ⊢
        rw [hold n (h.waiting i n hn)]
        exact h.frameId i n hn
    · rw [hdev] at hsent
      dsimp only at hsent
      rcases Nat.lt_or_ge n s.dev.accepted.length with hn | hn
      · rw [List.getElem?_append_left hn] at hsent
        rw [hold n hn]
        exact h.sent n sent hsent
      · rw [List.getElem?_append_right hn, List.getElem?_singleton] at hsent
        split at hsent
        · rename_i hzero
          have hlast : n = s.dev.accepted.length := by omega
          cases hsent
          rw [hlast, hnew]
          exact hid
        · cases hsent
    · rw [hcount']
      rw [hdev] at hn
      dsimp only at hn
      rw [List.length_append, List.length_singleton] at hn
      rcases Nat.lt_succ_iff_lt_or_eq.mp hn with hn | hn
      · rw [hold n hn]
        exact Nat.lt_succ_of_lt (h.earlier n hn)
      · rw [hn, hnew]
        exact Nat.lt_succ_self _
  · obtain ⟨id, hdev, hid'⟩ := startXmit_refused hacc hwTstamp
    refine ⟨?_, ?_, fun i n hn => ?_, fun i n hn => ?_, fun n sent hsent => ?_, fun n hn => ?_⟩
    · rw [hdev]
      exact h.head
    · rw [hdev]
      rcases hid' with ⟨hlen, rfl⟩ | ⟨hlen, rfl⟩
      · rw [show (s.startXmit len hwTstamp).count = s.count from if_pos hlen]
        exact h.id
      · rw [show (s.startXmit len hwTstamp).count = s.count + 1 from if_neg (Nat.not_lt.mpr hlen)]
        exact hnext
    · rw [hdev] at hn ⊢
      exact h.waiting i n hn
    · rw [hdev] at hn ⊢
      rw [hold n (h.waiting i n hn)]
      exact h.frameId i n hn
    · rw [hdev] at hsent
      rw [hold n (List.getElem?_eq_some_iff.mp hsent).1]
      exact h.sent n sent hsent
    · rw [hdev] at hn
      rw [hold n hn]
      exact Nat.lt_of_lt_of_le (h.earlier n hn) hcount

theorem Numbered.step (h : s.Numbered) {a : FrameAct} (hs : s.step a = some s') : s'.Numbered := by
  obtain ⟨len, hwTstamp, -, rfl⟩ | ⟨-, dev, hc, rfl⟩ := step_cases hs
  · exact h.startXmit len hwTstamp
  · exact h.clear hc

theorem start_numbered : Numbered {} where
  head := by decide
  id := rfl
  waiting := by simp
  frameId := by simp
  sent := by simp
  earlier := by simp

/-- The frames that wait have different ids. -/
def DistinctIds (dev : WrnDev) : Prop := ∀ i < wrnNrDesc, ∀ j < wrnNrDesc, i ≠ j → (dev.skbDesc i).skb.isSome →
  (dev.skbDesc j).skb.isSome → (dev.skbDesc i).frameId ≠ (dev.skbDesc j).frameId

/-- The frame accepted is not a multiple of 65535 attempts behind one that waits in another
descriptor. -/
def Spaced (s : Attempts) : FrameAct → Prop
  | .startXmit len _ => s.Accepts len → ∀ i < wrnNrDesc, i ≠ s.dev.nextTxHead →
      ∀ n, (s.dev.skbDesc i).skb = some n → ¬ 65535 ∣ s.count - s.taken n
  | _ => True

/-- Whether a step keeps the ids apart. -/
theorem Numbered.distinct_iff (h : s.Numbered) (hd : DistinctIds s.dev) {a : FrameAct} (hs : s.step a = some s') :
    DistinctIds s'.dev ↔ s.Spaced a := by
  obtain ⟨len, hwTstamp, rfl, rfl⟩ | ⟨hother, dev, hc, rfl⟩ := step_cases hs
  · by_cases hacc : s.Accepts len
    · obtain ⟨hid, -⟩ := takeId_eq h.id
      have hdev := startXmit_accepts hacc hwTstamp
      have hhead : ((s.startXmit len hwTstamp).dev.skbDesc s.dev.nextTxHead).skb = some s.dev.accepted.length ∧
          ((s.startXmit len hwTstamp).dev.skbDesc s.dev.nextTxHead).frameId = attemptId s.count := by
        rw [hdev]
        simp [hid]
      have hrest : ∀ i, i ≠ s.dev.nextTxHead →
          (s.startXmit len hwTstamp).dev.skbDesc i = s.dev.skbDesc i := by
        intro i hi
        rw [hdev]
        exact Function.update_of_ne hi _ _
      have hclash : ∀ i n, (s.dev.skbDesc i).skb = some n →
          (attemptId s.count = (s.dev.skbDesc i).frameId ↔ 65535 ∣ s.count - s.taken n) := by
        intro i n hn
        rw [h.frameId i n hn]
        exact attemptId_eq_iff (Nat.le_of_lt (h.earlier n (h.waiting i n hn)))
      constructor
      · intro hnew _ i hi hne n hn hdvd
        have hii := hnew s.dev.nextTxHead h.head i hi (Ne.symm hne)
        rw [hhead.1, hhead.2, hrest i hne, hn] at hii
        exact hii rfl rfl ((hclash i n hn).mpr hdvd)
      · intro hspaced i hi j hj hij hsi hsj
        have hapart : ∀ k < wrnNrDesc, k ≠ s.dev.nextTxHead → (s.dev.skbDesc k).skb.isSome →
            attemptId s.count ≠ (s.dev.skbDesc k).frameId := by
          intro k hk hne hsome he
          obtain ⟨n, hn⟩ := Option.isSome_iff_exists.mp hsome
          exact hspaced hacc k hk hne n hn ((hclash k n hn).mp he)
        by_cases hih : i = s.dev.nextTxHead
        · rw [hih] at hij ⊢
          rw [hrest j (Ne.symm hij)] at hsj ⊢
          rw [hhead.2]
          exact hapart j hj (Ne.symm hij) hsj
        · rw [hrest i hih] at hsi ⊢
          by_cases hjh : j = s.dev.nextTxHead
          · rw [hjh, hhead.2]
            exact (hapart i hi hih hsi).symm
          · rw [hrest j hjh] at hsj ⊢
            exact hd i hi j hj hij hsi hsj
    · obtain ⟨id, hdev, -⟩ := startXmit_refused hacc hwTstamp
      rw [hdev]
      exact ⟨fun _ hacc' => absurd hacc' hacc, fun _ => hd⟩
  · have hspaced : s.Spaced a := by
      cases a with
      | startXmit len hwTstamp => exact absurd rfl (hother len hwTstamp)
      | complete => trivial
      | txInterrupt => trivial
      | tstamp frameId => trivial
    refine ⟨fun _ => hspaced, fun _ i hi j hj hij hsi hsj => ?_⟩
    have hsome : ∀ k, (dev.skbDesc k).skb.isSome → (s.dev.skbDesc k).skb.isSome := by
      intro k hk
      obtain ⟨n, hn⟩ := Option.isSome_iff_exists.mp hk
      rw [hc.skb k n hn]
      rfl
    dsimp only
    rw [hc.frameId, hc.frameId]
    exact hd i hi j hj hij (hsome i hsi) (hsome j hsj)

/-- A time stamp reaches the frame it is for: the frames that wait have different ids of 16 bits, and the
id that was given to the hardware with a frame finds the descriptor of the frame. -/
structure StampsReach (dev : WrnDev) : Prop where
  distinct : DistinctIds dev
  nonzero : ∀ i < wrnNrDesc, (dev.skbDesc i).skb.isSome → 0 < (dev.skbDesc i).frameId ∧
    (dev.skbDesc i).frameId < 2 ^ 16
  selects : ∀ i < wrnNrDesc, ∀ n, (dev.skbDesc i).skb = some n →
    ∃ sent, dev.accepted[n]? = some sent ∧ dev.findSkb sent.frameId = some i

theorem Numbered.stampsReach (h : s.Numbered) (hd : DistinctIds s.dev) : StampsReach s.dev := by
  refine ⟨hd, fun i _ hsome => ?_, fun i hi n hn => ?_⟩
  · obtain ⟨n, hn⟩ := Option.isSome_iff_exists.mp hsome
    rw [h.frameId i n hn, attemptId]
    omega
  · obtain ⟨sent, hsent⟩ : ∃ sent, s.dev.accepted[n]? = some sent :=
      ⟨_, List.getElem?_eq_getElem (h.waiting i n hn)⟩
    have hid : (s.dev.skbDesc i).frameId = sent.frameId := by
      rw [h.frameId i n hn, h.sent n sent hsent]
    refine ⟨sent, hsent, ?_⟩
    rw [WrnDev.findSkb, List.find?_range_eq_some]
    refine ⟨by simp [hn, hid], List.mem_range.mpr hi, fun j hj => ?_⟩
    cases hsome : (s.dev.skbDesc j).skb.isSome with
    | false => rfl
    | true =>
      have hne := hd j (hj.trans hi) i hi (Nat.ne_of_lt hj) hsome (by rw [hn]; rfl)
      rw [hid] at hne
      simpa using hne

/-- In a run every time stamp reaches its frame at every moment exactly when every step is spaced. -/
theorem stampsReach_iff (acts : List FrameAct) :
    (∀ pre s, pre <+: acts → run step {} pre = some s → StampsReach s.dev) ↔ Obeys step Spaced {} acts := by
  have hnone : ∀ {s : Attempts} {a : FrameAct}, s.step a = none → s.Spaced a := by
    intro s a hs
    cases a with
    | startXmit len hwTstamp => cases hs
    | complete => trivial
    | txInterrupt => trivial
    | tstamp frameId => trivial
  have hstep : ∀ {s : Attempts} {a : FrameAct} {s' : Attempts}, s.Numbered → DistinctIds s.dev →
      s.step a = some s' → s'.Numbered ∧ (DistinctIds s'.dev ↔ s.Spaced a) := fun h hd hs =>
    ⟨h.step hs, h.distinct_iff hd hs⟩
  have hstart : DistinctIds ({} : Attempts).dev := fun i _ j _ _ hsi => by simp at hsi
  rw [← holds_iff_obeys hstep hnone start_numbered hstart acts]
  constructor
  · exact fun h pre s hpre hrun => (h pre s hpre hrun).distinct
  · intro h pre s hpre hrun
    have hn : s.Numbered := run_keeps (fun hI hs => Numbered.step hI hs) start_numbered hrun
    exact hn.stampsReach (h pre s hpre hrun)

/-- While no descriptor is free the attempts go on. -/
theorem refused_run {len : ℕ} (hlen : len ≤ wrnMtu) (hready : s.dev.ready s.dev.nextTxHead = true) (n : ℕ) :
    ∃ id taken, run step s (List.replicate n (.startXmit len true)) =
      some ⟨{ s.dev with id := id }, s.count + n, taken⟩ ∧ ∀ k < s.dev.accepted.length, taken k = s.taken k := by
  induction n generalizing s with
  | zero => exact ⟨s.dev.id, s.taken, rfl, fun _ _ => rfl⟩
  | succ n ih =>
    have hacc : ¬ s.Accepts len := fun h => Bool.false_ne_true (h.2.symm.trans hready)
    obtain ⟨id, hdev, -⟩ := startXmit_refused hacc true
    have hcount : (s.startXmit len true).count = s.count + 1 := if_neg (Nat.not_lt.mpr hlen)
    obtain ⟨id', taken, hrun, htaken⟩ := ih (s := s.startXmit len true) (by rw [hdev]; exact hready)
    rw [hdev] at hrun htaken
    refine ⟨id', taken, ?_, fun k hk => ?_⟩
    · rw [List.replicate_succ, run_cons]
      rw [hcount, Nat.add_right_comm] at hrun
      exact hrun
    · rw [htaken k hk]
      exact Function.update_of_ne (Nat.ne_of_lt hk) _ _

/-- All descriptors hold frames. -/
def fullRing : Attempts := (run step {} (List.replicate 8 (.startXmit 60 true))).getD {}

/-- Eight frames are accepted and no descriptor gets free for a long time, then the first one does. -/
def longBurst : List FrameAct :=
  List.replicate 8 (.startXmit 60 true) ++ List.replicate 65528 (.startXmit 60 true) ++ [.complete, .startXmit 60 true]

/-- The ninth frame accepted gets the id of the second one, which still waits. -/
theorem id_reused : ∃ s, run step {} longBurst = some s ∧ ¬ StampsReach s.dev := by
  have hfull : run step {} (List.replicate 8 (.startXmit 60 true)) = some fullRing := rfl
  obtain ⟨id, taken, hrefused, htaken⟩ := refused_run (s := fullRing) (show 60 ≤ wrnMtu by decide) rfl 65528
  obtain ⟨s, hs⟩ : ∃ s, run step ⟨{ fullRing.dev with id := id }, fullRing.count + 65528, taken⟩
      [.complete, .startXmit 60 true] = some s := ⟨_, rfl⟩
  have hrun : run step {} longBurst = some s := by
    rw [longBurst, run_append, run_append, hfull, Option.bind_some, hrefused, Option.bind_some, hs]
  have hn : s.Numbered := run_keeps (fun hI hs => Numbered.step hI hs) start_numbered hrun
  cases hs
  refine ⟨_, hrun, fun h => ?_⟩
  have hne := h.distinct 0 (by decide) 1 (by decide) (by decide) rfl rfl
  rw [hn.frameId 0 8 rfl, hn.frameId 1 1 rfl] at hne
  have hsecond : Function.update taken 8 65536 1 = 1 := htaken 1 (by decide)
  have hsame : attemptId 65536 = attemptId (Function.update taken 8 65536 1) := by
    rw [hsecond]
    rfl
  exact hne hsame

end Attempts

end WhiteRabbit.Nic
