import WhiteRabbit.CycleAccounts
import WhiteRabbit.ExpiryTimes
import WhiteRabbit.ReturnAddresses

/-!
# No cycle is left behind by a check

The check walks the list of devices with a cursor and flushes each, while callbacks open and close
devices. A cycle that was closed before the check waits on the list of a device at the cursor or
behind it, until it is flushed; then its callback has run or a response owns it.
-/

namespace WhiteRabbit.Etherbone
open StepRuns

namespace Machine

/-- A cycle that meets a condition waits on the ready list of the device. -/
def Pending (m : Machine) (P : ℕ → Prop) (e : ℕ) : Prop :=
  ∃ dev ∈ m.devices, dev.id = e ∧ ∃ w ∈ dev.ready, P w.cycle

def deviceIds (m : Machine) : List ℕ := m.devices.map Device.id

/-- A walk from the cursor comes to a device. If the device at the cursor is gone the walk cannot go on. -/
def Reaches (m : Machine) (cursor : Option ℕ) (e : ℕ) : Prop :=
  ∃ d, cursor = some d ∧ d < m.nextId ∧ (d ∈ m.deviceIds → d = e ∨ [d, e].Sublist m.deviceIds)

/-- The check still visits every device with a cycle that meets the condition. -/
def Visits (m : Machine) (P : ℕ → Prop) : CheckPhase → Prop
  | .expire => True
  | .poll => True
  | .devices cursor => ∀ e, m.Pending P e → m.Reaches cursor e
  | .slave d next => ∀ e, m.Pending P e → d = e ∨ m.Reaches next e

section Walks

variable {m : Machine} {d e : ℕ}

/-- The walk goes on with the device that follows. -/
theorem following_sublist {devs : List Device} (hids : (devs.map Device.id).Nodup)
    (h : [d, e].Sublist (devs.map Device.id)) :
    ∃ n, following d devs = some n ∧ n ∈ devs.map Device.id ∧ (n = e ∨ [n, e].Sublist (devs.map Device.id)) := by
  induction devs with
  | nil => simp at h
  | cons dev devs ih =>
    rw [List.map_cons] at h hids
    obtain ⟨hnew, hids⟩ := List.nodup_cons.mp hids
    by_cases hd : dev.id = d
    · have hmem : e ∈ devs.map Device.id := by
        rw [hd] at h
        exact List.singleton_sublist.mp (List.cons_sublist_cons.mp h)
      cases devs with
      | nil => simp at hmem
      | cons dev' rest =>
        refine ⟨dev'.id, by simp [following, hd], by simp, ?_⟩
        cases List.mem_cons.mp hmem with
        | inl heq => exact .inl heq.symm
        | inr hrest =>
          have hsub : [dev'.id, e].Sublist (dev'.id :: rest.map Device.id) :=
            List.cons_sublist_cons.mpr (List.singleton_sublist.mpr hrest)
          exact .inr (hsub.trans (List.sublist_cons_self _ _))
    · have htail : [d, e].Sublist (devs.map Device.id) := by
        cases h with
        | cons _ h => exact h
        | cons_cons _ h => exact absurd rfl hd
      obtain ⟨n, hn, hmem, hsub⟩ := ih hids htail
      refine ⟨n, by rw [following, if_neg hd, hn], List.mem_cons_of_mem _ hmem, ?_⟩
      cases hsub with
      | inl heq => exact .inl heq
      | inr hsub => exact .inr (hsub.trans (List.sublist_cons_self _ _))

theorem Distinct.reaches_following (h : m.Distinct) (hd : d ∈ m.deviceIds) (he : m.Reaches (some d) e) :
    d = e ∨ m.Reaches (following d m.devices) e := by
  obtain ⟨d', hcursor, -, hreach⟩ := he
  cases hcursor
  cases hreach hd with
  | inl heq => exact .inl heq
  | inr hsub =>
    obtain ⟨n, hn, hmem, hreach⟩ := following_sublist h.ids hsub
    obtain ⟨dev, hdev, hid⟩ := List.mem_map.mp hmem
    exact .inr ⟨n, hn, hid ▸ h.ids_lt dev hdev, fun _ => hreach⟩

/-- A walk from the first device comes to all. -/
theorem Distinct.reaches_head (h : m.Distinct) (he : e ∈ m.deviceIds) :
    m.Reaches (m.devices.head?.map Device.id) e := by
  rw [deviceIds] at he
  cases hdevices : m.devices with
  | nil => simp [hdevices] at he
  | cons dev devs =>
    refine ⟨dev.id, rfl, h.ids_lt dev (hdevices ▸ List.mem_cons_self), fun _ => ?_⟩
    rw [hdevices, List.map_cons] at he
    cases List.mem_cons.mp he with
    | inl heq => exact .inl heq.symm
    | inr hrest =>
      right
      rw [deviceIds, hdevices, List.map_cons]
      exact List.cons_sublist_cons.mpr (List.singleton_sublist.mpr hrest)

end Walks

/-- A step that moves no cycle of the condition to a ready list, and keeps the order of the devices. -/
structure Drains (P : ℕ → Prop) (m m' : Machine) : Prop where
  nextId : m.nextId ≤ m'.nextId
  known : ∀ d ∈ m'.deviceIds, d ∈ m.deviceIds ∨ m.nextId ≤ d
  order : ∀ d e, [d, e].Sublist m.deviceIds → d ∈ m'.deviceIds → e ∈ m'.deviceIds → [d, e].Sublist m'.deviceIds
  pending : ∀ e, m'.Pending P e → m.Pending P e

section Drains

variable {P : ℕ → Prop} {m m' : Machine} {cursor : Option ℕ} {e : ℕ}

theorem Pending.mem_ids (h : m.Pending P e) : e ∈ m.deviceIds := by
  obtain ⟨dev, hdev, rfl, -⟩ := h
  exact List.mem_map_of_mem hdev

theorem Drains.reaches (h : Drains P m m') (he : m'.Pending P e) (hreach : m.Reaches cursor e) :
    m'.Reaches cursor e := by
  obtain ⟨d, hcursor, hlt, hreach⟩ := hreach
  refine ⟨d, hcursor, Nat.lt_of_lt_of_le hlt h.nextId, fun hd => ?_⟩
  cases h.known d hd with
  | inl hold =>
    cases hreach hold with
    | inl heq => exact .inl heq
    | inr hsub => exact .inr (h.order d e hsub hd he.mem_ids)
  | inr hnew => omega

theorem Drains.visits {phase : CheckPhase} (h : Drains P m m') (hv : m.Visits P phase) : m'.Visits P phase := by
  cases phase with
  | expire => trivial
  | poll => trivial
  | devices cursor => exact fun e he => h.reaches he (hv e (h.pending e he))
  | slave d next =>
    intro e he
    cases hv e (h.pending e he) with
    | inl heq => exact .inl heq
    | inr hreach => exact .inr (h.reaches he hreach)

/-- The devices stay as they are. -/
theorem Drains.same (hdevices : m'.devices = m.devices) (hnext : m'.nextId = m.nextId) : Drains P m m' where
  nextId := Nat.le_of_eq hnext.symm
  known d hd := by
    rw [deviceIds, hdevices] at hd
    exact .inl hd
  order d e hsub _ _ := by
    rw [deviceIds, hdevices]
    exact hsub
  pending e he := by
    rw [Pending, hdevices] at he
    exact he

/-- A device is changed, with no new cycle of the condition. -/
theorem Drains.setDevice {d : ℕ} (f : Device → Device) (hid : ∀ dev, (f dev).id = dev.id)
    (hready : ∀ dev ∈ m.devices, ∀ w ∈ (f dev).ready, P w.cycle → w ∈ dev.ready)
    (hdevices : m'.devices = (m.setDevice d f).devices) (hnext : m.nextId ≤ m'.nextId) : Drains P m m' := by
  have hids : m'.deviceIds = m.deviceIds := by
    rw [deviceIds, deviceIds, hdevices, Machine.setDevice, List.map_map]
    apply List.map_congr_left
    intro dev _
    by_cases hdev : dev.id = d
    · simp [hdev, hid]
    · simp [hdev]
  refine ⟨hnext, fun d hd => .inl (hids ▸ hd), fun d e hsub _ _ => hids ▸ hsub, fun e he => ?_⟩
  obtain ⟨dev, hdev, rfl, w, hw, hp⟩ := he
  rw [hdevices] at hdev
  obtain ⟨old, hold, rfl⟩ := List.mem_map.mp hdev
  by_cases hd : old.id = d
  · rw [if_pos hd] at hw ⊢
    exact ⟨old, hold, (hid old).symm, w, hready old hold w hw hp, hp⟩
  · rw [if_neg hd] at hw ⊢
    exact ⟨old, hold, rfl, w, hw, hp⟩

theorem Drains.openDevice (port : Port) (mtu : ℕ) : Drains P m (m.ebDeviceOpen port mtu) where
  nextId := Nat.le_succ _
  known d hd := by
    cases List.mem_cons.mp hd with
    | inl hnew => exact .inr (Nat.le_of_eq hnew.symm)
    | inr hold => exact .inl hold
  order d e hsub _ _ := hsub.trans (List.sublist_cons_self _ _)
  pending e he := by
    obtain ⟨dev, hdev, hid, w, hw, hp⟩ := he
    cases List.mem_cons.mp hdev with
    | inl hnew =>
      subst hnew
      cases hw
    | inr hold => exact ⟨dev, hold, hid, w, hw, hp⟩

theorem Drains.removeDevice (d : ℕ) (stack : List Frame) :
    Drains P m { m with devices := m.devices.filter fun dev => dev.id != d, stack := stack } where
  nextId := Nat.le_refl _
  known e he := by
    obtain ⟨dev, hdev, rfl⟩ := List.mem_map.mp he
    exact .inl (List.mem_map_of_mem (List.mem_filter.mp hdev).1)
  order a b hsub ha hb := by
    have hids : (m.devices.filter fun dev => dev.id != d).map Device.id = m.deviceIds.filter fun n => n != d := by
      rw [deviceIds, List.filter_map]
      rfl
    have ha' : a ∈ m.deviceIds.filter fun n => n != d := hids ▸ ha
    have hb' : b ∈ m.deviceIds.filter fun n => n != d := hids ▸ hb
    have hkept : [a, b].filter (fun n => n != d) = [a, b] := by
      simp [(List.mem_filter.mp ha').2, (List.mem_filter.mp hb').2]
    rw [deviceIds, hids, ← hkept]
    exact hsub.filter _
  pending e he := by
    obtain ⟨dev, hdev, hid, w, hw, hp⟩ := he
    exact ⟨dev, (List.mem_filter.mp hdev).1, hid, w, hw, hp⟩

theorem Drains.turns (ht : Turns m m') : Drains P m m' := by
  cases ht with
  | flush hs hd =>
    exact .setDevice (fun dev => { dev with ready := [] }) (fun _ => rfl) (fun _ _ w hw => absurd hw List.not_mem_nil)
      rfl (Nat.le_refl _)
  | flushEnd hs =>
    exact .setDevice (fun dev => { dev with ready := [] }) (fun _ => rfl) (fun _ _ w hw => absurd hw List.not_mem_nil)
      rfl (Nat.le_refl _)
  | closeEnd hs hd => exact .removeDevice _ _
  | _ => exact .same rfl rfl

/-- No step puts a cycle that was closed before on a ready list. -/
theorem Drains.moves {a : SocketAct} (h : m.Distinct) (hP : ∀ c, P c → m.closings c = 1) (hm : Moves m a m') :
    Drains P m m' := by
  cases hm with
  | openDevice port mtu => exact .openDevice port mtu
  | openCycle =>
    exact .setDevice (fun dev => { dev with unready := (dev.unready + 1) % 256 }) (fun _ => rfl)
      (fun _ _ w hw _ => hw) rfl (Nat.le_succ _)
  | abort =>
    exact .setDevice (fun dev => { dev with unready := (dev.unready + 255) % 256 }) (fun _ => rfl)
      (fun _ _ w hw _ => hw) rfl (Nat.le_refl _)
  | @closeCycle n cyc dev checked hu hc =>
    refine .setDevice (fun dev => dev.enqueue (cyc.close checked)) (fun dev => enqueue_id dev _) (fun dev hdev w hw hp => ?_)
      rfl (Nat.le_refl _)
    · rw [enqueue_ready dev _ (h.closing dev hdev)] at hw
      cases List.mem_cons.mp hw with
      | inl hnew =>
        have hid : cyc.id = n := by simpa using List.find?_some hc
        have hcycle : w.cycle = n := by rw [hnew, OpenCycle.close, hid]
        have honce := h.once n
        have hopen : 0 < m.opened n :=
          List.countP_pos_iff.mpr ⟨cyc, List.mem_of_find?_eq_some hc, by simp [hid]⟩
        have hclosed := hP w.cycle hp
        rw [handled] at honce
        rw [hcycle] at hclosed
        omega
      | inr hold => exact hold
  | closeDevice =>
    exact .setDevice (fun dev => { dev with ready := [], closing := true }) (fun _ => rfl)
      (fun _ _ w hw => absurd hw List.not_mem_nil) rfl (Nat.le_refl _)
  | timeout =>
    obtain ⟨first, last, -, hres⟩ := m.ebSocketTimeout_spec
    rw [hres]
    exact .same rfl rfl
  | next alloc ht => exact .turns ht
  | writeBack widths addr value =>
    obtain ⟨first, last, ⟨-, hres⟩ | ⟨pre, f, post, status, -, -, hres⟩⟩ :=
      m.ebSocketWriteConfig_spec widths addr value
    · rw [hres]
      exact .same rfl rfl
    · rw [hres]
      exact .same rfl rfl
  | breakLink =>
    exact .setDevice (fun dev => { dev with link := false }) (fun _ => rfl) (fun _ _ w hw _ => hw) rfl (Nat.le_refl _)
  | _ => exact .same rfl rfl

end Drains

/-- A step puts calls on the stack, returns from a callback, or is a turn of the call on top. -/
inductive StackStep (m : Machine) (a : SocketAct) (m' : Machine) : Prop where
  | push (frames : List Frame) (hstack : m'.stack = frames ++ m.stack)
  | done (stack : List Frame) (hs : m.stack = .callback :: stack) (hstack : m'.stack = stack)
  | turn (alloc : Bool) (ha : a = .next alloc) (ht : Turns m m') (frame : Frame) (frames stack : List Frame)
      (hs : m.stack = frame :: stack) (hstack : m'.stack = frames ++ stack)

theorem turns_stack {m m' : Machine} (alloc : Bool) (ht : Turns m m') : StackStep m (.next alloc) m' := by
  have ht' := ht
  cases ht with
  | expire hs he => exact .push [.callback] rfl
  | returned hs | flushEnd hs | killEnd hs | closeEnd hs => exact .turn alloc rfl ht' _ [] _ hs rfl
  | tick hs | poll hs | visit hs | skip hs | flushIssue hs => exact .turn alloc rfl ht' _ [_] _ hs rfl
  | flush hs | flushCall hs | killCall hs | closeCall hs => exact .turn alloc rfl ht' _ [_, _] _ hs rfl

theorem moves_stack {m m' : Machine} {a : SocketAct} (hm : Moves m a m') : StackStep m a m' := by
  cases hm with
  | idle | openDevice | openCycle | operate | abort | closeCycle | breakLink => exact .push [] rfl
  | closeAgain | check | handler => exact .push [_] rfl
  | closeDevice => exact .push [_, _] rfl
  | timeout =>
    obtain ⟨first, last, -, hres⟩ := m.ebSocketTimeout_spec
    rw [hres]
    exact .push [] rfl
  | done hs => exact .done _ hs rfl
  | next alloc ht => exact turns_stack alloc ht
  | writeBack widths addr value =>
    obtain ⟨first, last, ⟨-, hres⟩ | ⟨pre, f, post, status, -, -, hres⟩⟩ :=
      m.ebSocketWriteConfig_spec widths addr value
    · rw [hres]
      exact .push [] rfl
    · rw [hres]
      exact .push [.callback] rfl

/-- When an expiry loop ends, no check before it or in its callbacks has set the clock to a later time, and
the check is not later than those it is nested in that have left their expiry loops. -/
def Nested (m : Machine) : SocketAct → Prop
  | .next _ =>
    match m.stack with
    | .check now .expire :: _ => (m.expiring now).isNone = true → m.timeCache ≤ now ∧ ∀ n ∈ m.passed, now ≤ n
    | _ => True
  | _ => True

/-- When a check has polled a device with a broken link, no cycle waits on its ready list. -/
def Linked (m : Machine) : SocketAct → Prop
  | .next _ =>
    match m.stack with
    | .check _ (.slave d _) :: _ => ∀ dev ∈ m.devices, dev.id = d → dev.link = false → dev.ready = []
    | _ => True
  | _ => True

/-- The conditions under which no cycle is left behind. -/
def Prompt (m : Machine) (a : SocketAct) : Prop := m.Settled a ∧ m.Nested a ∧ m.Linked a

/-- The check whose expiry loop is running, and the device that is flushed after a poll. -/
def expiry (m : Machine) : Option ℕ :=
  match m.stack with
  | .check now .expire :: _ => some now
  | _ => none

def polledDevice (m : Machine) : Option ℕ :=
  match m.stack with
  | .check _ (.slave d _) :: _ => some d
  | _ => none

theorem nested_next (m : Machine) (alloc : Bool) : m.Nested (.next alloc) ↔
    ∀ now ∈ m.expiry, (m.expiring now).isNone = true → m.timeCache ≤ now ∧ ∀ n ∈ m.passed, now ≤ n := by
  rw [Nested, expiry]
  split <;> simp

theorem linked_next (m : Machine) (alloc : Bool) : m.Linked (.next alloc) ↔
    ∀ d ∈ m.polledDevice, ∀ dev ∈ m.devices, dev.id = d → dev.link = false → dev.ready = [] := by
  rw [Linked, polledDevice]
  split <;> simp

instance (m : Machine) : ∀ a : SocketAct, Decidable (m.Prompt a)
  | .next alloc =>
    decidable_of_iff ((∀ dev ∈ m.devices, m.clearing = some dev.id → dev.ready = []) ∧
        (∀ now ∈ m.expiry, (m.expiring now).isNone = true → m.timeCache ≤ now ∧ ∀ n ∈ m.passed, now ≤ n) ∧
        ∀ d ∈ m.polledDevice, ∀ dev ∈ m.devices, dev.id = d → dev.link = false → dev.ready = [])
      (and_congr Iff.rfl (and_congr (m.nested_next alloc).symm (m.linked_next alloc).symm))
  | .openDevice _ _ | .openCycle _ | .operate _ _ | .closeCycle _ _ | .abort _ | .closeDevice _ | .timeout | .check _ | .done
  | .writeBack _ _ _ | .handler | .breakLink => inferInstanceAs (Decidable (True ∧ True ∧ True))

/-- Responses are due within five seconds behind the clock, which no check on the stack is behind. -/
structure Clocked (m : Machine) : Prop where
  due : ∀ t ∈ m.tickets, t.due ≤ m.timeCache + 5
  deadline : ∀ t ∈ m.tickets, t.deadline = t.due % 2 ^ 16
  passed : ∀ n ∈ m.passed, m.timeCache ≤ n

section Clocks

variable {m m' : Machine} {a : SocketAct}

theorem Clocked.keep (h : m.Clocked) (ht : TicketStep m m') (hclock : m'.timeCache = m.timeCache)
    (hpassed : m'.passed ⊆ m.passed) : m'.Clocked := by
  have hp : ∀ n ∈ m'.passed, m'.timeCache ≤ n := fun n hn => hclock ▸ h.passed n (hpassed hn)
  cases ht with
  | keep hsub _ _ =>
    refine ⟨fun t ht => ?_, fun t ht => h.deadline t (hsub.subset ht), hp⟩
    rw [hclock]
    exact h.due t (hsub.subset ht)
  | issue t htickets _ hdeadline hdue _ _ _ =>
    refine ⟨fun u hu => ?_, fun u hu => ?_, hp⟩
    · rw [htickets] at hu
      rw [hclock]
      cases List.mem_append.mp hu with
      | inl hold => exact h.due u hold
      | inr hnew => exact Nat.le_of_eq (List.mem_singleton.mp hnew ▸ hdue)
    · rw [htickets] at hu
      cases List.mem_append.mp hu with
      | inl hold => exact h.deadline u hold
      | inr hnew => rw [List.mem_singleton.mp hnew, hdeadline, hdue]

theorem Clocked.moves (h : m.Clocked) (hc : m.Nested a) (hm : Moves m a m') : m'.Clocked := by
  have htickets := moves_tickets hm
  cases moves_clock hm with
  | keep hclock hpassed _ => exact h.keep htickets hclock hpassed
  | expire _ hclock hpassed _ => exact h.keep htickets hclock hpassed
  | @tick now stack alloc ha hs he hclock hsame hpassed _ =>
    subst ha
    simp only [Nested, hs, he, Option.isNone_none, forall_const] at hc
    refine ⟨fun t ht => ?_, fun t ht => h.deadline t (hsame ▸ ht), fun n hn => ?_⟩
    · have hdue := h.due t (hsame ▸ ht)
      rw [hclock]
      exact Nat.le_trans hdue (Nat.add_le_add_right hc.1 5)
    · rw [hclock]
      cases List.mem_cons.mp (hpassed hn) with
      | inl heq => exact Nat.le_of_eq heq.symm
      | inr hold => exact hc.2 n hold

theorem start_clocked : Clocked {} :=
  ⟨fun _ h => absurd h List.not_mem_nil, fun _ h => absurd h List.not_mem_nil,
    fun _ h => absurd h List.not_mem_nil⟩

end Clocks

/-- The outermost call is a check that still visits every device with a cycle of the condition. -/
structure Within (P : ℕ → Prop) (now : ℕ) (m : Machine) : Prop where
  closed : ∀ c, P c → m.closings c = 1
  bottom : ∃ rest phase, m.stack = rest ++ [.check now phase] ∧ m.Visits P phase

/-- The check has returned, and no cycle of the condition waits. -/
structure Finished (P : ℕ → Prop) (now : ℕ) (m : Machine) : Prop where
  stack : m.stack = []
  clock : m.timeCache ≤ now
  pending : ∀ e, ¬ m.Pending P e

section Visits

variable {P : ℕ → Prop} {m m' : Machine} {a : SocketAct} {now : ℕ} {phase : CheckPhase} {d : ℕ} {dev : Device}

theorem closings_moves (hm : Moves m a m') (c : ℕ) : m.closings c ≤ m'.closings c := by
  cases hm with
  | next alloc ht => exact Nat.le_of_eq (ht.closings c).symm
  | abort | closeCycle =>
    rw [closings, closings, List.count_append]
    exact Nat.le_add_right _ _
  | timeout =>
    obtain ⟨first, last, -, hres⟩ := m.ebSocketTimeout_spec
    rw [hres]
    exact Nat.le_refl _
  | writeBack widths addr value => exact Nat.le_of_eq (m.closings_writeBack widths addr value c).symm
  | _ => exact Nat.le_refl _

/-- A closed cycle stays closed. -/
theorem Distinct.closed_moves (h : m.Distinct) (hm : Moves m a m') {c : ℕ} (hc : m.closings c = 1) :
    m'.closings c = 1 := by
  have hle := closings_moves hm c
  have honce := (h.moves hm).once c
  rw [handled] at honce
  omega

/-- A device with an empty list has no cycle that waits. -/
theorem Distinct.not_pending (h : m.Distinct) (hd : m.device? d = some dev) (hready : dev.ready = []) :
    ¬ m.Pending P d := by
  intro hpending
  obtain ⟨other, hother, hid, w, hw, -⟩ := hpending
  have hmem : other ∈ m.devices.filter fun dev => dev.id == d := List.mem_filter.mpr ⟨hother, by simp [hid]⟩
  rw [filter_device h.ids hd] at hmem
  rw [List.mem_singleton.mp hmem, hready] at hw
  cases hw

/-- A device whose list was cleared. -/
theorem not_pending_clear (m : Machine) (d : ℕ) (stack : List Frame) :
    ¬ Machine.Pending { m.setDevice d fun dev => { dev with ready := [] } with stack := stack } P d := by
  intro hpending
  obtain ⟨dev, hdev, hid, w, hw, -⟩ := hpending
  obtain ⟨old, -, rfl⟩ := List.mem_map.mp hdev
  by_cases hd : old.id = d
  · rw [if_pos hd] at hw
    cases hw
  · rw [if_neg hd] at hid
    exact hd hid

/-- A turn of the outermost check. -/
theorem Distinct.visits_turns {alloc : Bool} (h : m.Distinct) (hlinked : m.Linked (.next alloc))
    (hclocked : m.Clocked)
    (ht : Turns m m') (hs : m.stack = [.check now phase]) (hv : m.Visits P phase) :
    (∃ rest phase', m'.stack = rest ++ [.check now phase'] ∧ m'.Visits P phase') ∨
      (m'.stack = [] ∧ m'.timeCache ≤ now ∧ ∀ e, ¬ m'.Pending P e) := by
  have hdrains : Drains P m m' := .turns ht
  cases ht with
  | expire hs' he =>
    cases hs.symm.trans hs'
    exact .inl ⟨[.callback], .expire, congrArg (Frame.callback :: ·) hs, trivial⟩
  | tick hs' he =>
    cases hs.symm.trans hs'
    exact .inl ⟨[], .poll, rfl, trivial⟩
  | poll hs' =>
    cases hs.symm.trans hs'
    exact .inl ⟨[], .devices _, rfl, fun e he => h.reaches_head (Pending.mem_ids he)⟩
  | returned hs' =>
    cases hs.symm.trans hs'
    refine .inr ⟨rfl, hclocked.passed now (by simp [passed, hs, Frame.passed]), fun e he => ?_⟩
    obtain ⟨d, hnone, -⟩ := hv e he
    cases hnone
  | @visit _ d _ dev hs' hd =>
    cases hs.symm.trans hs'
    have hmem : d ∈ m.deviceIds := by
      have hid : dev.id = d := by simpa using List.find?_some hd
      exact hid ▸ List.mem_map_of_mem (List.mem_of_find?_eq_some hd)
    exact .inl ⟨[], .slave d _, rfl, fun e he => h.reaches_following hmem (hv e he)⟩
  | @skip _ d next _ dev hs' hd hskip =>
    cases hs.symm.trans hs'
    have hmem := List.mem_of_find?_eq_some hd
    have hid : dev.id = d := by simpa using List.find?_some hd
    have hready : dev.ready = [] := by
      cases hskip with
      | inl hclosing => exact h.closing dev hmem hclosing
      | inr hlink =>
        simp only [Linked, hs] at hlinked
        exact hlinked dev hmem hid hlink
    refine .inl ⟨[], .devices next, rfl, fun e he => ?_⟩
    cases hv e he with
    | inl heq =>
      subst heq
      exact absurd he (h.not_pending hd hready)
    | inr hreach => exact hreach
  | @flush _ d next _ dev hs' hd =>
    cases hs.symm.trans hs'
    refine .inl ⟨[_], .devices next, rfl, fun e he => ?_⟩
    cases hv e (hdrains.pending e he) with
    | inl heq =>
      subst heq
      exact absurd he (not_pending_clear m d _)
    | inr hreach => exact hdrains.reaches he hreach
  | flushEnd hs' | flushCall hs' | flushIssue hs' | killEnd hs' | killCall hs' | closeEnd hs' | closeCall hs' =>
    cases hs.symm.trans hs'

theorem Within.moves (hw : m.Within P now) (h : m.Distinct) (hclocked : m.Clocked) (hlinked : m.Linked a)
    (hm : Moves m a m') : m'.Within P now ∨ m'.Finished P now := by
  have hclosed : ∀ c, P c → m'.closings c = 1 := fun c hc => h.closed_moves hm (hw.closed c hc)
  have hdrains : Drains P m m' := .moves h hw.closed hm
  obtain ⟨rest, phase, hs, hv⟩ := hw.bottom
  cases moves_stack hm with
  | push frames hstack =>
    exact .inl ⟨hclosed, frames ++ rest, phase, by rw [hstack, hs, List.append_assoc], hdrains.visits hv⟩
  | done stack hs' hstack =>
    cases rest with
    | nil => cases hs.symm.trans hs'
    | cons frame rest =>
      cases hs.symm.trans hs'
      exact .inl ⟨hclosed, rest, phase, hstack, hdrains.visits hv⟩
  | turn alloc ha ht frame frames stack hs' hstack =>
    subst ha
    cases rest with
    | nil =>
      cases h.visits_turns hlinked hclocked ht hs hv with
      | inl hwithin => exact .inl ⟨hclosed, hwithin⟩
      | inr hdone => exact .inr ⟨hdone.1, hdone.2.1, hdone.2.2⟩
    | cons top rest =>
      cases hs.symm.trans hs'
      exact .inl ⟨hclosed, frames ++ rest, phase, hstack.trans (List.append_assoc _ _ _).symm, hdrains.visits hv⟩

end Visits

/-- A call of `eb_socket_check` that no other call encloses, from its start until it returns. -/
structure OutermostCheck (s : Machine) (now : ℕ) (acts : List SocketAct) (m : Machine) : Prop where
  idle : s.stack = []
  run : StepRuns.run step s (.check now :: acts) = some m
  inside : ∀ part t, part <+: acts → part ≠ acts → StepRuns.run step s (.check now :: part) = some t → t.stack ≠ []
  returned : m.stack = []

/-- Every cycle closed before the call has been called back, or is owned by a response in flight
whose deadline is at most five seconds behind its time. -/
def Answered (s : Machine) (now : ℕ) (m : Machine) : Prop :=
  ∀ c, s.closings c = 1 → m.calls c = 1 ∨
    ∃ f ∈ m.queue, f.cycle = c ∧ f.due ≤ now + 5 ∧ f.response.deadline = f.due % 2 ^ 16

section Runs

variable {P : ℕ → Prop} {s m : Machine} {now : ℕ} {acts : List SocketAct}

/-- The call goes on until it returns. -/
theorem Within.run_finished (hw : s.Within P now) (h : s.Distinct) (hclocked : s.Clocked)
    (hobeys : Obeys step Prompt s acts) (hrun : run step s acts = some m)
    (hinside : ∀ part t, part <+: acts → part ≠ acts → run step s part = some t → t.stack ≠ [])
    (hreturned : m.stack = []) : m.Finished P now ∧ m.Clocked := by
  induction acts generalizing s with
  | nil =>
    cases hrun
    obtain ⟨rest, phase, hs, -⟩ := hw.bottom
    rw [hreturned] at hs
    simp at hs
  | cons a acts ih =>
    rw [run_cons] at hrun
    obtain ⟨t, ht, hrun⟩ := Option.bind_eq_some_iff.mp hrun
    have hm := step_moves ht
    obtain ⟨-, hnested, hlinked⟩ := hobeys.1
    have hclocked' := hclocked.moves hnested hm
    cases hw.moves h hclocked hlinked hm with
    | inl hwithin =>
      apply ih hwithin (h.moves hm) hclocked' (hobeys.2 t ht) hrun
      intro part u hpart hne hrunpart
      apply hinside (a :: part) u (List.cons_prefix_cons.mpr ⟨rfl, hpart⟩) (by simpa using hne)
      rw [run_cons, ht]
      exact hrunpart
    | inr hdone =>
      cases acts with
      | nil =>
        cases hrun
        exact ⟨hdone, hclocked'⟩
      | cons b acts =>
        have hstack := hinside [a] t (by simp) (by simp) (by rw [run_cons, ht]; rfl)
        exact absurd hdone.stack hstack

theorem Finished.answered (hf : m.Finished (fun c => s.closings c = 1) now) (hclocked : m.Clocked)
    (hexactly : m.ExactlyOnce) (hclosed : ∀ c, s.closings c = 1 → m.closings c = 1) : s.Answered now m := by
  intro c hc
  have hone := hexactly.closed c (hclosed c hc)
  have hwaiting : m.waiting c = 0 := by
    rw [waiting, hf.stack, List.map_nil, List.sum_nil, Nat.add_zero, queued, List.countP_eq_zero]
    intro w hw hcycle
    obtain ⟨dev, hdev, hready⟩ := List.mem_flatMap.mp hw
    have hcycle : w.cycle = c := beq_iff_eq.mp hcycle
    exact hf.pending dev.id ⟨dev, hdev, rfl, w, hready, hcycle ▸ hc⟩
  have hflight : m.inFlight c = m.tickets.countP fun t => t.cycle == c := by
    rw [inFlight, hf.stack]
    rfl
  by_cases hcalls : m.calls c = 1
  · exact .inl hcalls
  · right
    have hpos : 0 < m.tickets.countP fun t => t.cycle == c := by omega
    obtain ⟨t, ht, hcycle⟩ := List.countP_pos_iff.mp hpos
    obtain ⟨f, hfm, rfl⟩ := List.mem_map.mp ht
    have hdue := hclocked.due _ ht
    have hclock := hf.clock
    exact ⟨f, hfm, beq_iff_eq.mp hcycle, by rw [Flight.ticket_due] at hdue; omega, hclocked.deadline _ ht⟩

/-- The call begins. -/
theorem within_check (s : Machine) (now : ℕ) (hidle : s.stack = []) :
    Within (fun c => s.closings c = 1) now { s with stack := .check now .expire :: s.stack } :=
  ⟨fun _ hc => hc, [], .expire, by rw [hidle]; rfl, trivial⟩

theorem prompt_run (hobeys : Obeys step Prompt {} acts) (hrun : run step {} acts = some m) :
    m.Distinct ∧ m.ExactlyOnce ∧ m.Clocked := by
  have hkeeps : ∀ {m : Machine} {a : SocketAct} {m' : Machine}, m.Distinct ∧ m.ExactlyOnce ∧ m.Clocked →
      m.Prompt a → m.step a = some m' → m'.Distinct ∧ m'.ExactlyOnce ∧ m'.Clocked := by
    intro m a m' hm hc hs
    have hmoves := step_moves hs
    exact ⟨hm.1.moves hmoves, (hm.1.settled_iff hm.2.1 hs).mpr hc.1, hm.2.2.moves hc.2.1 hmoves⟩
  exact run_invariant hkeeps ⟨start_distinct, start_exactlyOnce, start_clocked⟩ hobeys hrun

theorem closings_run (h : s.Distinct) (hrun : run step s acts = some m) {c : ℕ} (hc : s.closings c = 1) :
    m.closings c = 1 := by
  have hkeeps : ∀ {m : Machine} {a : SocketAct} {m' : Machine}, m.Distinct ∧ m.closings c = 1 →
      m.step a = some m' → m'.Distinct ∧ m'.closings c = 1 := by
    intro m a m' hm hs
    exact ⟨hm.1.step hs, hm.1.closed_moves (step_moves hs) hm.2⟩
  exact (run_keeps hkeeps ⟨h, hc⟩ hrun).2

end Runs

/-- No closed cycle is left behind by a check, when no cycle waits for a broken link, no callback closes a
cycle on the device whose flush or close runs it, no check sets the clock back, and none is later than
those it is nested in. -/
theorem no_stranded {pre acts : List SocketAct} {s m : Machine} {now : ℕ}
    (hobeys : Obeys step Prompt {} (pre ++ .check now :: acts)) (hpre : run step {} pre = some s)
    (hcheck : s.OutermostCheck now acts m) : s.Answered now m := by
  have hall : run step {} (pre ++ .check now :: acts) = some m := by
    rw [run_append, hpre]
    exact hcheck.run
  obtain ⟨hpast, hfuture⟩ := hobeys.append hpre
  obtain ⟨hdistinct, -, hclocked⟩ := prompt_run hpast hpre
  obtain ⟨-, hexactly, -⟩ := prompt_run hobeys hall
  have hcall : s.step (.check now) = some { s with stack := .check now .expire :: s.stack } := by
    rw [step, if_pos (by rw [userTurn, hcheck.idle])]
  have hmoves := step_moves hcall
  have hrun := hcheck.run
  rw [run_cons, hcall] at hrun
  have hinside : ∀ part t, part <+: acts → part ≠ acts →
      run step { s with stack := .check now .expire :: s.stack } part = some t → t.stack ≠ [] := by
    intro part t hpart hne hpartrun
    apply hcheck.inside part t hpart hne
    rw [run_cons, hcall]
    exact hpartrun
  obtain ⟨hfinished, hend⟩ := (within_check s now hcheck.idle).run_finished (hdistinct.moves hmoves)
    (hclocked.moves hfuture.1.2.1 hmoves) (hfuture.2 _ hcall) hrun hinside hcheck.returned
  exact hfinished.answered hend hexactly fun c hc => closings_run hdistinct hcheck.run hc

end Machine

namespace Sample
open Machine

def closeRead : List SocketAct := .openDevice narrowPort 0 :: queueRead 0 1

/-- The turns of a check that flushes one read. -/
def flushCheck : List SocketAct := List.replicate 7 (.next true)

/-- The link of the device breaks when the check polls it. -/
def brokenCheck : List SocketAct := [.next true, .next true, .next true, .breakLink, .next true, .next true]

/-- A check is outermost when the stack is empty before it and after it, and at no step between. -/
theorem outermost_of_busy {s m : Machine} {now : ℕ} {acts : List SocketAct} (hidle : s.stack = [])
    (hrun : run step s (.check now :: acts) = some m)
    (hbusy : Obeys step (fun m _ => m.stack.isEmpty = false) { s with stack := .check now .expire :: s.stack } acts)
    (hreturned : m.stack = []) : s.OutermostCheck now acts m where
  idle := hidle
  run := hrun
  inside part t hpart hne hpartrun := by
    have hcall : s.step (.check now) = some { s with stack := .check now .expire :: s.stack } := by
      rw [step, if_pos (by rw [userTurn, hidle])]
    rw [run_cons, hcall] at hpartrun
    obtain ⟨-, hstack⟩ := hbusy.before hpart hne hpartrun
    exact List.isEmpty_eq_false_iff.mp hstack
  returned := hreturned

theorem flushCheck_answered : ∃ s m, run step {} closeRead = some s ∧ s.OutermostCheck 0 flushCheck m ∧
    s.Answered 0 m :=
  have hcheck := @outermost_of_busy (queuedReads 1) _ 0 flushCheck rfl rfl (by decide) rfl
  ⟨_, _, rfl, hcheck, @no_stranded closeRead flushCheck _ _ 0 (by decide) rfl hcheck⟩

/-- The check leaves the cycle on the list of the broken device. -/
theorem brokenCheck_strands : ¬ ∀ pre acts s now m, run step {} pre = some s → s.OutermostCheck now acts m →
    s.Answered now m := by
  intro h
  have hcheck := @outermost_of_busy (queuedReads 1) _ 0 brokenCheck rfl rfl (by decide) rfl
  cases h closeRead brokenCheck _ 0 _ rfl hcheck 1 (by decide) with
  | inl hcalled => exact absurd hcalled (by decide)
  | inr hflight =>
    obtain ⟨f, hf, -⟩ := hflight
    exact absurd hf List.not_mem_nil

end Sample

end WhiteRabbit.Etherbone
