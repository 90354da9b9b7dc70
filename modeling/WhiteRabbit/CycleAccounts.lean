import WhiteRabbit.ResponseTickets

/-!
# Where a closed cycle is

A closed cycle waits on a ready list, also while a call works the list off; then one response in
flight owns it, or its callback has run. A call that returns clears the ready list of its device,
and with it the cycles that callbacks have closed meanwhile.
-/

namespace WhiteRabbit.Etherbone
open StepRuns

/-- How often a cycle is on the list that a call works off. -/
def Frame.waits (c : ℕ) : Frame → ℕ
  | .flush _ _ _ todo _ => todo.countP fun w => w.cycle == c
  | .close _ todo => todo.countP fun w => w.cycle == c
  | _ => 0

def Frame.flies (c : ℕ) : Frame → ℕ
  | .kill bads => bads.countP fun f => f.cycle == c
  | _ => 0

namespace Machine

section Counts

variable (m : Machine) (c : ℕ)

def queued : ℕ := (m.devices.flatMap Device.ready).countP fun w => w.cycle == c

def waiting : ℕ := m.queued c + (m.stack.map (Frame.waits c)).sum

def inFlight : ℕ := (m.tickets.countP fun t => t.cycle == c) + (m.stack.map (Frame.flies c)).sum

def calls : ℕ := m.log.countP fun e => match e with | .called other _ => other == c | _ => false

def closings : ℕ := m.log.count (.closed c)

def abortions : ℕ := m.log.count (.aborted c)

def opened : ℕ := m.cycles.countP fun cyc => cyc.id == c

/-- Where the cycle is found. -/
def found : ℕ := m.waiting c + m.inFlight c + m.calls c

end Counts

/-- A closed cycle waits, is in flight, or was called back, and only one of these and once; a cycle that
is not closed, or was aborted, is never called back. -/
structure ExactlyOnce (m : Machine) : Prop where
  once : ∀ c, m.closings c + m.abortions c ≤ 1
  closed : ∀ c, m.closings c = 1 → m.waiting c + m.inFlight c + m.calls c = 1
  others : ∀ c, m.closings c = 0 → m.waiting c + m.inFlight c + m.calls c = 0

/-- The device whose ready list is cleared by the next turn, which ends a flush or removes it. -/
def clearing (m : Machine) : Option ℕ :=
  match m.stack with
  | .flush d _ _ [] _ :: _ => some d
  | .close d [] :: _ => some d
  | _ => none

/-- When a flush or a close of a device ends, no cycle was closed on it meanwhile. -/
def Settled (m : Machine) : SocketAct → Prop
  | .next _ => ∀ dev ∈ m.devices, m.clearing = some dev.id → dev.ready = []
  | _ => True

/-- How often the step takes the cycle off a ready list for good. -/
def lost (m : Machine) (c : ℕ) : SocketAct → ℕ
  | .next _ => ((m.devices.filter fun dev => m.clearing == some dev.id).flatMap Device.ready).countP fun w =>
      w.cycle == c
  | _ => 0

theorem settled_iff (m : Machine) (a : SocketAct) : m.Settled a ↔ ∀ c, m.lost c a = 0 := by
  cases a with
  | next alloc =>
    constructor
    · intro h c
      rw [lost, List.countP_eq_zero]
      intro w hw
      obtain ⟨dev, hdev, hready⟩ := List.mem_flatMap.mp hw
      obtain ⟨hmem, hid⟩ := List.mem_filter.mp hdev
      rw [h dev hmem (beq_iff_eq.mp hid)] at hready
      cases hready
    · intro h dev hmem hid
      cases hready : dev.ready with
      | nil => rfl
      | cons w rest =>
        have hw := List.countP_eq_zero.mp (h w.cycle) w (List.mem_flatMap.mpr
          ⟨dev, List.mem_filter.mpr ⟨hmem, beq_iff_eq.mpr hid⟩, hready ▸ List.mem_cons_self⟩)
        simp at hw
  | _ => exact ⟨fun _ _ => rfl, fun _ => trivial⟩

section Devices

variable {m : Machine} {d : ℕ} {dev : Device}

/-- The waiting cycles of a device. -/
theorem countP_setDevice (d : ℕ) (f : Device → Device) (q : Waiting → Bool) (devs : List Device) :
    ((devs.map fun dev => if dev.id = d then f dev else dev).flatMap Device.ready).countP q +
        ((devs.filter fun dev => dev.id == d).flatMap Device.ready).countP q =
      (devs.flatMap Device.ready).countP q +
        (((devs.filter fun dev => dev.id == d).map f).flatMap Device.ready).countP q := by
  induction devs with
  | nil => rfl
  | cons dev devs ih =>
    by_cases h : dev.id = d
    · simp [h, List.countP_append]
      omega
    · simp [h, List.countP_append]
      omega

theorem filter_device (hids : (m.devices.map Device.id).Nodup) (hd : m.device? d = some dev) :
    (m.devices.filter fun dev => dev.id == d) = [dev] := by
  obtain ⟨hid, pre, post, hdevs, hpre⟩ := List.find?_eq_some_iff_append.mp hd
  have hid : dev.id = d := by simpa using hid
  rw [hdevs, List.map_append, List.map_cons, List.nodup_append, List.nodup_cons] at hids
  have hleft : (pre.filter fun dev => dev.id == d) = [] := by
    apply List.filter_eq_nil_iff.mpr
    intro other hother
    simpa using hpre other hother
  have hright : (post.filter fun dev => dev.id == d) = [] := by
    apply List.filter_eq_nil_iff.mpr
    intro other hother heq
    have hsame : other.id = dev.id := (beq_iff_eq.mp heq).trans hid.symm
    exact hids.2.1.1 (hsame ▸ List.mem_map_of_mem hother)
  rw [hdevs, List.filter_append, hleft, List.filter_cons_of_pos (by simp [hid]), hright, List.nil_append]

/-- A device is changed. -/
theorem queued_setDevice (hids : (m.devices.map Device.id).Nodup) (hd : m.device? d = some dev)
    (f : Device → Device) (c : ℕ) :
    (m.setDevice d f).queued c + dev.ready.countP (fun w => w.cycle == c) =
      m.queued c + (f dev).ready.countP (fun w => w.cycle == c) := by
  have hcount := countP_setDevice d f (fun w => w.cycle == c) m.devices
  rw [filter_device hids hd] at hcount
  simpa [queued, setDevice] using hcount

/-- A device is changed apart from its ready list. -/
theorem queued_setDevice_of_ready (f : Device → Device) (hf : ∀ dev, (f dev).ready = dev.ready) (c : ℕ) :
    (m.setDevice d f).queued c = m.queued c := by
  rw [queued, queued, setDevice, List.flatMap_map]
  congr 2
  funext dev
  split
  · exact hf dev
  · rfl

theorem enqueue_ready (dev : Device) (w : Waiting) (hclosing : dev.closing = true → dev.ready = []) :
    (dev.enqueue w).ready = w :: dev.ready := by
  rw [Device.enqueue]
  split
  · rename_i h
    rw [hclosing h]
  · rfl

end Devices

/-- How often the cycle was opened. -/
def handled (m : Machine) (c : ℕ) : ℕ := m.opened c + m.closings c + m.abortions c

/-- Devices and cycles have their own handles, and the ready list of a closing device is empty. -/
structure Distinct (m : Machine) : Prop where
  ids : (m.devices.map Device.id).Nodup
  ids_lt : ∀ dev ∈ m.devices, dev.id < m.nextId
  closing : ∀ dev ∈ m.devices, dev.closing = true → dev.ready = []
  fresh : ∀ c, m.nextId ≤ c → m.handled c = 0
  once : ∀ c, m.handled c ≤ 1

section Handles

variable {m m' : Machine} {a : SocketAct} {c d : ℕ} {cyc : OpenCycle}

/-- A step that opens nothing and keeps the devices. -/
theorem Distinct.same (h : m.Distinct) (hdevices : m'.devices = m.devices) (hnext : m'.nextId = m.nextId)
    (hhandled : ∀ c, m'.handled c = m.handled c) : m'.Distinct where
  ids := hdevices ▸ h.ids
  ids_lt := by
    rw [hdevices, hnext]
    exact h.ids_lt
  closing := hdevices ▸ h.closing
  fresh c hc := by
    rw [hhandled]
    exact h.fresh c (hnext ▸ hc)
  once c := hhandled c ▸ h.once c

/-- A step that changes a device, and cycles that it does not open. -/
theorem Distinct.setDevice (h : m.Distinct) (f : Device → Device) (hid : ∀ dev, (f dev).id = dev.id)
    (hclosing : ∀ dev, (dev.closing = true → dev.ready = []) → (f dev).closing = true → (f dev).ready = []) :
    (m.setDevice d f).Distinct where
  ids := by
    have hids : (m.setDevice d f).devices.map Device.id = m.devices.map Device.id := by
      rw [Machine.setDevice, List.map_map]
      apply List.map_congr_left
      intro dev _
      by_cases hdev : dev.id = d
      · simp [hdev, hid]
      · simp [hdev]
    rw [hids]
    exact h.ids
  ids_lt dev hdev := by
    obtain ⟨old, hold, rfl⟩ := List.mem_map.mp hdev
    split
    · rw [hid]
      exact h.ids_lt old hold
    · exact h.ids_lt old hold
  closing dev hdev := by
    obtain ⟨old, hold, rfl⟩ := List.mem_map.mp hdev
    split
    · exact hclosing old (h.closing old hold)
    · exact h.closing old hold
  fresh := h.fresh
  once := h.once

theorem handled_call (status : Status) (n : ℕ) : (m.call c status).handled n = m.handled n := by
  simp [handled, opened, closings, abortions, call]

theorem handled_setCycle (f : OpenCycle → OpenCycle) (hf : ∀ cyc, (f cyc).id = cyc.id) (n : ℕ) :
    (m.setCycle c f).handled n = m.handled n := by
  have hopened : (m.setCycle c f).opened n = m.opened n := by
    rw [opened, opened, setCycle, List.countP_map]
    congr 1
    funext cyc
    by_cases h : cyc.id = c
    · simp [h, hf]
    · simp [h]
  rw [handled, hopened]
  rfl

/-- A cycle that is closed or aborted is no longer open. -/
theorem Distinct.opened_dropCycle (h : m.Distinct) (hc : m.cycle? c = some cyc) (n : ℕ) :
    (m.dropCycle c).opened n + (if c = n then 1 else 0) = m.opened n := by
  have honce := h.once c
  have hmem := List.mem_of_find?_eq_some hc
  have hid : cyc.id = c := by simpa using List.find?_some hc
  have hpos : 0 < m.opened c := List.countP_pos_iff.mpr ⟨cyc, hmem, by simp [hid]⟩
  rw [handled] at honce
  by_cases hn : c = n
  · subst hn
    have hnone : (m.dropCycle c).opened c = 0 := by
      rw [opened, dropCycle, List.countP_filter, List.countP_eq_zero]
      intro other _
      simp
    rw [if_pos rfl]
    omega
  · have hsame : (m.dropCycle c).opened n = m.opened n := by
      rw [opened, opened, dropCycle, List.countP_filter]
      congr 1
      funext other
      by_cases hother : other.id = n
      · simp [hother, Ne.symm hn]
      · simp [hother]
    rw [if_neg hn, hsame]
    rfl

theorem Distinct.closeCycle (h : m.Distinct) (hc : m.cycle? c = some cyc) (n : ℕ) :
    Machine.handled { m.dropCycle c with log := m.log ++ [.closed c] } n = m.handled n := by
  have hdrop := h.opened_dropCycle hc n
  simp only [handled, opened, closings, abortions, List.count_append, List.count_singleton, beq_iff_eq,
    SocketEvent.closed.injEq, reduceCtorEq, if_false] at hdrop ⊢
  omega

theorem Distinct.abort (h : m.Distinct) (hc : m.cycle? c = some cyc) (n : ℕ) :
    Machine.handled { m.dropCycle c with log := m.log ++ [.aborted c] } n = m.handled n := by
  have hdrop := h.opened_dropCycle hc n
  simp only [handled, opened, closings, abortions, List.count_append, List.count_singleton, beq_iff_eq,
    SocketEvent.aborted.injEq, reduceCtorEq, if_false] at hdrop ⊢
  omega

theorem Distinct.openDevice (h : m.Distinct) (port : Port) (mtu : ℕ) : (m.ebDeviceOpen port mtu).Distinct where
  ids := by
    rw [ebDeviceOpen, List.map_cons, List.nodup_cons]
    refine ⟨fun hmem => ?_, h.ids⟩
    obtain ⟨dev, hdev, hid⟩ := List.mem_map.mp hmem
    have hlt := h.ids_lt dev hdev
    rw [hid] at hlt
    exact Nat.lt_irrefl _ hlt
  ids_lt dev hdev := by
    cases List.mem_cons.mp hdev with
    | inl hnew =>
      subst hnew
      exact Nat.lt_succ_self _
    | inr hold => exact Nat.lt_succ_of_lt (h.ids_lt dev hold)
  closing dev hdev hclosing := by
    cases List.mem_cons.mp hdev with
    | inl hnew =>
      subst hnew
      cases hclosing
    | inr hold => exact h.closing dev hold hclosing
  fresh c hc := h.fresh c (Nat.le_of_succ_le hc)
  once := h.once

theorem Distinct.openCycle (h : m.Distinct) (d : ℕ) :
    Distinct { m with cycles := { id := m.nextId, device := d } :: m.cycles, nextId := m.nextId + 1 } := by
  have hhandled : ∀ c, handled
      { m with cycles := { id := m.nextId, device := d } :: m.cycles, nextId := m.nextId + 1 } c =
        m.handled c + if m.nextId = c then 1 else 0 := by
    intro c
    simp only [handled, opened, closings, abortions, List.countP_cons, beq_iff_eq]
    omega
  refine ⟨h.ids, fun dev hdev => Nat.lt_succ_of_lt (h.ids_lt dev hdev), h.closing, fun c hc => ?_, fun c => ?_⟩
  · rw [hhandled, h.fresh c (Nat.le_of_succ_le hc), if_neg (Nat.ne_of_lt hc)]
  · rw [hhandled]
    split
    · rename_i hnext
      rw [h.fresh c (Nat.le_of_eq hnext)]
    · exact h.once c

theorem Distinct.turns (h : m.Distinct) (ht : Turns m m') : m'.Distinct := by
  cases ht with
  | expire hs he =>
    refine h.same rfl rfl fun c => ?_
    rw [handled_call]
    simp [handled, opened, closings, abortions]
  | tick | poll | returned | visit | skip | flushIssue | killEnd => exact h.same rfl rfl fun _ => rfl
  | @flush _ d _ _ dev =>
    have hdevice := h.setDevice (d := d) (fun dev => { dev with ready := [] }) (fun _ => rfl) fun _ _ _ => rfl
    exact hdevice.same rfl rfl fun _ => rfl
  | @flushEnd d =>
    have hdevice := h.setDevice (d := d) (fun dev => { dev with ready := [] }) (fun _ => rfl) fun _ _ _ => rfl
    exact hdevice.same rfl rfl fun _ => rfl
  | flushCall | killCall | closeCall => exact h.same rfl rfl fun c => handled_call _ c
  | closeEnd hs hd =>
    exact ⟨h.ids.sublist (List.filter_sublist.map _), fun dev hdev => h.ids_lt dev (List.mem_filter.mp hdev).1,
      fun dev hdev => h.closing dev (List.mem_filter.mp hdev).1, h.fresh, h.once⟩

theorem enqueue_id (dev : Device) (w : Waiting) : (dev.enqueue w).id = dev.id := by
  rw [Device.enqueue]
  split
  · rfl
  · rfl

theorem enqueue_closing (dev : Device) (w : Waiting) : (dev.enqueue w).closing = false := by
  rw [Device.enqueue]
  split
  · rfl
  · rename_i h
    simpa using h

theorem Distinct.moves (h : m.Distinct) (hm : Moves m a m') : m'.Distinct := by
  cases hm with
  | idle => exact h
  | openDevice port mtu => exact h.openDevice port mtu
  | @openCycle d =>
    have hdevice := h.setDevice (d := d) (fun dev => { dev with unready := (dev.unready + 1) % 256 })
      (fun _ => rfl) fun _ hready => hready
    exact hdevice.openCycle d
  | operate op f hu hc hf => exact h.same rfl rfl (handled_setCycle f fun cyc => (hf cyc).1)
  | @abort c cyc _ hu hc =>
    have hdevice := h.setDevice (d := cyc.device) (fun dev => { dev with unready := (dev.unready + 255) % 256 })
      (fun _ => rfl) fun _ hready => hready
    exact hdevice.same rfl rfl (h.abort hc)
  | @closeCycle c cyc _ checked hu hc =>
    have hdevice := h.setDevice (d := cyc.device) (fun dev => dev.enqueue (cyc.close checked))
      (fun dev => enqueue_id dev _) fun dev _ hclosing => by
        rw [enqueue_closing] at hclosing
        cases hclosing
    exact hdevice.same rfl rfl (h.closeCycle hc)
  | @closeDevice d =>
    have hdevice := h.setDevice (d := d) (fun dev => { dev with ready := [], closing := true }) (fun _ => rfl)
      fun _ _ _ => rfl
    exact hdevice.same rfl rfl fun _ => rfl
  | closeAgain | check | done | handler => exact h.same rfl rfl fun _ => rfl
  | timeout =>
    obtain ⟨first, last, -, hres⟩ := m.ebSocketTimeout_spec
    rw [hres]
    exact h.same rfl rfl fun _ => rfl
  | next alloc ht => exact h.turns ht
  | writeBack widths addr value =>
    obtain ⟨first, last, ⟨-, hres⟩ | ⟨pre, f, post, status, -, -, hres⟩⟩ :=
      m.ebSocketWriteConfig_spec widths addr value
    · rw [hres]
      exact h.same rfl rfl fun _ => rfl
    · rw [hres]
      exact h.same rfl rfl fun c => handled_call status c
  | @breakLink _ d =>
    exact h.setDevice (d := d) (fun dev => { dev with link := false }) (fun _ => rfl) fun _ hready => hready

end Handles

section Accounts

variable {m m' : Machine} {a : SocketAct} {c d : ℕ}

theorem found_call (c n : ℕ) (status : Status) :
    (m.call c status).found n = m.found n + if c = n then 1 else 0 := by
  simp only [found, waiting, inFlight, calls, queued, tickets, queue, call, List.map_cons,
    List.sum_cons, Frame.waits, Frame.flies, List.countP_append, List.countP_singleton, beq_iff_eq]
  omega

theorem closings_call (c n : ℕ) (status : Status) : (m.call c status).closings n = m.closings n := by
  simp [closings, call]

theorem lost_of_not_clearing (h : m.clearing = none) (c : ℕ) (alloc : Bool) : m.lost c (.next alloc) = 0 := by
  simp [lost, h]

theorem lost_of_clearing (h : m.clearing = some d) (c : ℕ) (alloc : Bool) : m.lost c (.next alloc) =
    ((m.devices.filter fun dev => dev.id == d).flatMap Device.ready).countP fun w => w.cycle == c := by
  rw [lost, h]
  congr 3
  funext dev
  rw [Option.some_beq_some, Bool.beq_comm]

/-- A turn that changes only the frames on the stack, which keep the same cycles. -/
theorem found_stack {stack : List Frame} (c : ℕ)
    (hwaits : (stack.map (Frame.waits c)).sum = (m.stack.map (Frame.waits c)).sum)
    (hflies : (stack.map (Frame.flies c)).sum = (m.stack.map (Frame.flies c)).sum) :
    Machine.found { m with stack := stack } c = m.found c := by
  simp only [found, waiting, inFlight, hwaits, hflies, queued, tickets, queue, calls]

theorem Turns.closings (ht : Turns m m') (c : ℕ) : m'.closings c = m.closings c := by
  cases ht with
  | expire hs he =>
    rw [closings_call]
    simp [Machine.closings]
  | flushCall | killCall | closeCall => exact closings_call _ _ _
  | _ => rfl

theorem Distinct.found_turns (h : m.Distinct) (ht : Turns m m') (alloc : Bool) (c : ℕ) :
    m'.found c + m.lost c (.next alloc) = m.found c := by
  cases ht with
  | @expire now stack f rest hs he =>
    have hfirst := (expiring_spec he).1
    have hclearing : m.clearing = none := by rw [clearing, hs]
    rw [found_call, lost_of_not_clearing hclearing]
    simp only [found, waiting, inFlight, calls, queued, tickets, queue, hfirst, List.cons_append, List.map_cons,
      List.countP_cons, List.countP_append, Flight.ticket_cycle, beq_iff_eq, List.countP_nil, Bool.false_eq_true,
      if_false]
    omega
  | @tick now stack hs he =>
    have hclearing : m.clearing = none := by rw [clearing, hs]
    rw [lost_of_not_clearing hclearing]
    have hfound : Machine.found { m with stack := .check now .poll :: stack } c = m.found c :=
      found_stack c (by rw [hs]; rfl) (by rw [hs]; rfl)
    exact hfound
  | poll hs =>
    have hclearing : m.clearing = none := by rw [clearing, hs]
    rw [lost_of_not_clearing hclearing]
    exact found_stack c (by rw [hs]; rfl) (by rw [hs]; rfl)
  | returned hs =>
    have hclearing : m.clearing = none := by rw [clearing, hs]
    rw [lost_of_not_clearing hclearing]
    exact found_stack c (by simp [hs, Frame.waits]) (by simp [hs, Frame.flies])
  | visit hs hd =>
    have hclearing : m.clearing = none := by rw [clearing, hs]
    rw [lost_of_not_clearing hclearing]
    exact found_stack c (by rw [hs]; rfl) (by rw [hs]; rfl)
  | skip hs hd hskip =>
    have hclearing : m.clearing = none := by rw [clearing, hs]
    rw [lost_of_not_clearing hclearing]
    exact found_stack c (by rw [hs]; rfl) (by rw [hs]; rfl)
  | @flush now d next stack dev hs hd =>
    have hclearing : m.clearing = none := by rw [clearing, hs]
    have hqueued := queued_setDevice h.ids hd (fun dev => { dev with ready := [] }) c
    rw [lost_of_not_clearing hclearing]
    simp only [List.countP_nil] at hqueued
    simp only [found, waiting, inFlight, calls, tickets, queue, hs, List.map_cons, List.sum_cons, Frame.waits,
      Frame.flies, List.countP_reverse, Machine.setDevice, queued] at hqueued ⊢
    omega
  | @flushEnd d mtu p buffer stack hs =>
    have hclearing : m.clearing = some d := by rw [clearing, hs]
    have hqueued := countP_setDevice d (fun dev => { dev with ready := [] }) (fun w => w.cycle == c) m.devices
    have hnone : (((m.devices.filter fun dev => dev.id == d).map fun dev => { dev with ready := [] }).flatMap
        Device.ready).countP (fun w => w.cycle == c) = 0 := by
      rw [List.flatMap_map, List.flatMap_eq_nil_iff.mpr fun _ _ => rfl, List.countP_nil]
    rw [lost_of_clearing hclearing]
    simp only [found, waiting, inFlight, calls, tickets, queue, hs, List.map_cons, List.sum_cons, Frame.waits,
      Frame.flies, Machine.setDevice, queued, List.countP_nil] at hqueued ⊢
    omega
  | @flushCall d mtu p w todo buffer buffer' stack _ status operation hs hf =>
    have hclearing : m.clearing = none := by rw [clearing, hs]
    rw [found_call, lost_of_not_clearing hclearing]
    simp only [found, waiting, inFlight, calls, queued, tickets, queue, hs, List.map_cons,
      List.sum_cons, Frame.waits, Frame.flies, List.countP_cons, beq_iff_eq]
    omega
  | @flushIssue d mtu address p w todo buffer buffer' stack _ hs hf =>
    have hclearing : m.clearing = none := by rw [clearing, hs]
    rw [lost_of_not_clearing hclearing]
    simp only [found, waiting, inFlight, calls, queued, tickets, queue, issue, hs, List.map_cons, List.sum_cons,
      Frame.waits, Frame.flies, List.countP_cons, beq_iff_eq, List.reverse_cons, List.map_append,
      List.countP_append, List.map_nil, List.countP_nil, Flight.ticket_cycle]
    omega
  | killEnd hs =>
    have hclearing : m.clearing = none := by rw [clearing, hs]
    rw [lost_of_not_clearing hclearing]
    exact found_stack c (by simp [hs, Frame.waits]) (by simp [hs, Frame.flies])
  | @killCall f bads stack hs =>
    have hclearing : m.clearing = none := by rw [clearing, hs]
    rw [found_call, lost_of_not_clearing hclearing]
    simp only [found, waiting, inFlight, calls, queued, tickets, queue, hs, List.map_cons,
      List.sum_cons, Frame.waits, Frame.flies, List.countP_cons, beq_iff_eq]
    omega
  | @closeEnd d stack dev hs hd =>
    have hsplit := (List.filter_append_perm (fun dev => dev.id == d) m.devices).flatMap_right Device.ready
    have hcount := hsplit.countP_eq fun w => w.cycle == c
    rw [List.flatMap_append, List.countP_append] at hcount
    rw [lost_of_clearing (by rw [clearing, hs])]
    simp only [found, waiting, inFlight, calls, tickets, queue, hs, List.map_cons, List.sum_cons, Frame.waits,
      Frame.flies, queued, List.countP_nil]
    have hsame : (m.devices.filter fun dev => dev.id != d) = m.devices.filter fun dev => !(dev.id == d) := rfl
    rw [hsame]
    omega
  | @closeCall d w todo stack hs =>
    have hclearing : m.clearing = none := by rw [clearing, hs]
    rw [found_call, lost_of_not_clearing hclearing]
    simp only [found, waiting, inFlight, calls, queued, tickets, queue, hs, List.map_cons,
      List.sum_cons, Frame.waits, Frame.flies, List.countP_cons, beq_iff_eq]
    omega

theorem lost_of_userTurn (hu : m.userTurn = true) (c : ℕ) (a : SocketAct) : m.lost c a = 0 := by
  cases a with
  | next alloc =>
    apply lost_of_not_clearing
    rw [userTurn] at hu
    rw [clearing]
    split at hu
    · rename_i hs
      rw [hs]
    · rename_i hs
      rw [hs]
    · cases hu
  | _ => rfl

/-- A device is changed apart from its ready list. -/
theorem found_setDevice (f : Device → Device) (hf : ∀ dev, (f dev).ready = dev.ready) (c : ℕ) :
    (m.setDevice d f).found c = m.found c := by
  have hqueued := queued_setDevice_of_ready (m := m) (d := d) f hf c
  rw [found, found, waiting, waiting, hqueued]
  rfl

theorem Distinct.found_enqueue {dev : Device} {w : Waiting} (h : m.Distinct) (hd : m.device? d = some dev)
    (c : ℕ) :
    (m.setDevice d fun dev => dev.enqueue w).found c = m.found c + if w.cycle = c then 1 else 0 := by
  have hready := enqueue_ready dev w (h.closing dev (List.mem_of_find?_eq_some hd))
  have hqueued := queued_setDevice h.ids hd (fun dev => dev.enqueue w) c
  rw [hready, List.countP_cons] at hqueued
  simp only [beq_iff_eq] at hqueued
  have hsame : (m.setDevice d fun dev => dev.enqueue w).queued c + m.found c =
      m.queued c + (m.setDevice d fun dev => dev.enqueue w).found c := by
    simp only [found, waiting, inFlight, calls, tickets, queue, Machine.setDevice]
    omega
  omega

/-- The responses of the device go to the loop that kills them, and its cycles to the loop that closes it. -/
theorem Distinct.found_closeDevice {dev : Device} (h : m.Distinct) (hd : m.device? d = some dev) (c : ℕ) :
    Machine.found (ebSocketKillInflight
      { m.setDevice d fun dev => { dev with ready := [], closing := true } with
        stack := .close d dev.ready.reverse :: m.stack } d) c = m.found c := by
  have hqueued := queued_setDevice h.ids hd (fun dev => { dev with ready := [], closing := true }) c
  have hsplit := (List.filter_append_perm (fun f => f.response.device == d) m.queue).countP_eq fun f =>
    f.cycle == c
  rw [List.countP_append] at hsplit
  have hflies : ∀ fs : List Flight, (fs.map Flight.ticket).countP (fun t => t.cycle == c) =
      fs.countP fun f => f.cycle == c := by
    intro fs
    rw [List.countP_map]
    rfl
  simp only [List.countP_nil] at hqueued
  simp only [found, waiting, inFlight, calls, tickets, Machine.setDevice, queued, ebSocketKillInflight, List.map_cons,
    List.sum_cons, Frame.waits, Frame.flies, List.countP_reverse, hflies, queue, List.reverse_nil,
    List.append_nil] at hqueued hsplit ⊢
  omega

theorem found_push {frame : Frame} (c : ℕ) (hwaits : frame.waits c = 0) (hflies : frame.flies c = 0) :
    Machine.found { m with stack := frame :: m.stack } c = m.found c :=
  found_stack c (by rw [List.map_cons, List.sum_cons, hwaits, Nat.zero_add])
    (by rw [List.map_cons, List.sum_cons, hflies, Nat.zero_add])

theorem found_queue {first last : List Flight} (c : ℕ)
    (h : (first ++ last.reverse).map Flight.ticket = m.tickets) :
    Machine.found { m with first := first, last := last } c = m.found c := by
  simp only [found, waiting, inFlight, queued, calls]
  rw [tickets, queue, h]

theorem found_writeBack (widths addr value c : ℕ) :
    (m.ebSocketWriteConfig widths addr value).found c = m.found c := by
  obtain ⟨first, last, ⟨htickets, hres⟩ | ⟨pre, f, post, status, hqueue, hrest, hres⟩⟩ :=
    m.ebSocketWriteConfig_spec widths addr value
  · rw [hres]
    exact found_queue c htickets
  · rw [hres, found_call]
    simp only [found, waiting, inFlight, calls, queued, tickets, queue, hrest] at hqueue ⊢
    rw [hqueue]
    simp only [List.map_append, List.map_cons, List.countP_append, List.countP_cons,
      Flight.ticket_cycle, beq_iff_eq]
    omega

theorem closings_writeBack (widths addr value c : ℕ) :
    (m.ebSocketWriteConfig widths addr value).closings c = m.closings c := by
  obtain ⟨first, last, ⟨-, hres⟩ | ⟨pre, f, post, status, -, -, hres⟩⟩ :=
    m.ebSocketWriteConfig_spec widths addr value
  · rw [hres]
    rfl
  · rw [hres]
    exact closings_call _ _ _

/-- An event other than a callback. -/
theorem found_log {e : SocketEvent} (he : ∀ n status, e ≠ .called n status) (c : ℕ) :
    Machine.found { m with log := m.log ++ [e] } c = m.found c := by
  have hcalls : Machine.calls { m with log := m.log ++ [e] } c = m.calls c := by
    rw [calls, calls, List.countP_append, List.countP_singleton]
    cases e with
    | called n status => exact absurd rfl (he n status)
    | _ => rfl
  rw [found, hcalls]
  rfl

/-- A step loses no closed cycle, but for those that a returning call takes off a ready list. -/
theorem Distinct.found_moves (h : m.Distinct) (hm : Moves m a m') (c : ℕ) :
    m'.found c + m.lost c a + m.closings c = m.found c + m'.closings c := by
  cases hm with
  | next alloc ht =>
    have hfound := h.found_turns ht alloc c
    have hclosings := ht.closings c
    omega
  | idle a hu => rw [lost_of_userTurn hu, Nat.add_zero]
  | openDevice port mtu => rfl
  | @openCycle d =>
    have hfound := found_setDevice (m := m) (d := d) (fun dev => { dev with unready := (dev.unready + 1) % 256 })
      (fun _ => rfl) c
    exact congrArg (· + m.closings c) hfound
  | operate op f hu hc hf => rfl
  | @abort n cyc =>
    have hfound := found_setDevice (m := m) (d := cyc.device)
      (fun dev => { dev with unready := (dev.unready + 255) % 256 }) (fun _ => rfl) c
    have hlog := found_log (m := (m.setDevice cyc.device
      fun dev => { dev with unready := (dev.unready + 255) % 256 }).dropCycle n) (e := .aborted n) (by simp) c
    have hclosings : Machine.closings { m with log := m.log ++ [.aborted n] } c = m.closings c := by
      simp [Machine.closings]
    exact congrArg₂ (· + ·) (hlog.trans hfound) hclosings.symm
  | @closeCycle n cyc dev checked hu hc hd =>
    have hid : cyc.id = n := by simpa using List.find?_some hc
    have hfound := h.found_enqueue (w := cyc.close checked) hd c
    have hlog := found_log (m := (m.setDevice cyc.device fun dev => dev.enqueue (cyc.close checked)).dropCycle n)
      (e := .closed n) (by simp) c
    have hclosings : Machine.closings { m with log := m.log ++ [.closed n] } c =
        m.closings c + if n = c then 1 else 0 := by
      simp [Machine.closings, List.count_singleton]
    have hcycle : (cyc.close checked).cycle = n := hid
    rw [hcycle] at hfound
    refine (congrArg (· + m.closings c) (hlog.trans hfound)).trans ?_
    change m.found c + (if n = c then 1 else 0) + m.closings c =
      m.found c + Machine.closings { m with log := m.log ++ [.closed n] } c
    rw [hclosings]
    omega
  | closeAgain hu hd hclosing => exact congrArg (· + m.closings c) (found_push c rfl rfl)
  | closeDevice hu hd =>
    exact congrArg (· + m.closings c) (h.found_closeDevice hd c)
  | timeout =>
    obtain ⟨first, last, hqueue, hres⟩ := m.ebSocketTimeout_spec
    rw [hres]
    exact congrArg (· + m.closings c) (found_queue c (by rw [hqueue, tickets]))
  | check now hu => exact congrArg (· + m.closings c) (found_push c rfl rfl)
  | done hs =>
    exact congrArg (· + m.closings c) (found_stack c (by simp [hs, Frame.waits]) (by simp [hs, Frame.flies]))
  | writeBack widths addr value =>
    have hfound := m.found_writeBack widths addr value c
    have hclosings := m.closings_writeBack widths addr value c
    rw [hfound, hclosings]
    rfl
  | handler hp => exact congrArg (· + m.closings c) (found_push c rfl rfl)
  | @breakLink _ d =>
    exact congrArg (· + m.closings c) (found_setDevice (d := d) (fun dev => { dev with link := false }) (fun _ => rfl) c)

theorem start_distinct : Distinct {} :=
  ⟨List.nodup_nil, fun _ h => absurd h List.not_mem_nil, fun _ h => absurd h List.not_mem_nil, fun _ _ => rfl,
    fun _ => Nat.zero_le 1⟩

theorem Distinct.step (h : m.Distinct) (hs : m.step a = some m') : m'.Distinct := h.moves (step_moves hs)

theorem Distinct.once_iff (h : m.Distinct) : m.ExactlyOnce ↔ ∀ c, m.found c = m.closings c := by
  have honce : ∀ c, m.closings c + m.abortions c ≤ 1 := fun c => by
    have hone := h.once c
    rw [handled] at hone
    omega
  constructor
  · intro hexactly c
    cases hclosings : m.closings c with
    | zero => exact hexactly.others c hclosings
    | succ k =>
      have hk := honce c
      have hone : k = 0 := by omega
      subst hone
      exact hexactly.closed c hclosings
  · intro hfound
    exact ⟨honce, fun c hc => (hfound c).trans hc, fun c hc => (hfound c).trans hc⟩

/-- Whether the next step keeps every closed cycle. -/
theorem Distinct.settled_iff (h : m.Distinct) (hexactly : m.ExactlyOnce) (hs : m.step a = some m') :
    m'.ExactlyOnce ↔ m.Settled a := by
  have hmoves := step_moves hs
  rw [(h.moves hmoves).once_iff, Machine.settled_iff]
  have hbefore := h.once_iff.mp hexactly
  constructor
  · intro hafter c
    have hstep := h.found_moves hmoves c
    rw [hbefore, hafter] at hstep
    omega
  · intro hlost c
    have hstep := h.found_moves hmoves c
    rw [hbefore, hlost] at hstep
    omega

theorem start_exactlyOnce : ExactlyOnce {} := start_distinct.once_iff.mpr fun _ => rfl

end Accounts

/-- A call that cannot return clears no ready list. -/
theorem settled_of_stuck {m : Machine} {a : SocketAct} (hs : m.step a = none) : m.Settled a := by
  cases a with
  | next alloc =>
    intro dev hdev hclearing
    rw [clearing] at hclearing
    rw [Machine.step, turn] at hs
    split at hclearing
    · rename_i hstack
      simp [hstack] at hs
    · rename_i d stack hstack
      rw [hstack] at hs
      have hnone := List.find?_eq_none.mp (Option.map_eq_none_iff.mp hs) dev hdev
      exact absurd (Option.some.inj hclearing).symm (by simpa using hnone)
    · cases hclearing
  | _ => trivial

/-- In a run every closed cycle completes exactly once at every moment exactly when no callback closes a
cycle on the device whose flush or close runs it. -/
theorem exactlyOnce_iff (acts : List SocketAct) :
    (∀ pre m, pre <+: acts → run step {} pre = some m → m.ExactlyOnce) ↔ Obeys step Settled {} acts :=
  holds_iff_obeys (fun hI hP hs => ⟨hI.step hs, hI.settled_iff hP hs⟩) settled_of_stuck start_distinct
    start_exactlyOnce acts

end Machine

namespace Sample
open Machine

/-- The callback of the first cycle closes a second one on the same device, and the flush returns. -/
def reopening : List SocketAct :=
  [.openDevice narrowPort 0, .openCycle 0, .closeCycle 1 false, .check 0, .next true, .next true, .next true,
    .next true, .next true, .openCycle 0, .closeCycle 2 false, .done, .next true]

theorem reopening_loses : ¬ ∀ m, run step {} reopening = some m → m.ExactlyOnce := by
  intro h
  have hlost : (run step {} reopening).map (fun m => (m.closings 2, m.found 2)) = some (1, 0) := by decide
  obtain ⟨m, hm, hcounts⟩ := Option.map_eq_some_iff.mp hlost
  have hclosed := (h m hm).closed 2 (congrArg Prod.fst hcounts)
  have hfound : m.found 2 = 0 := congrArg Prod.snd hcounts
  rw [← found, hfound] at hclosed
  cases hclosed

end Sample

end WhiteRabbit.Etherbone
