import WhiteRabbit.CycleAccounts

/-!
# Counting the open cycles of a device

`unready` counts the cycles of a device that are open, in one byte. `eb_device_close` refuses to work
while it is not zero; when 256 cycles are open at once it is.
-/

namespace WhiteRabbit.Etherbone
open StepRuns

namespace Machine

/-- How many cycles of the device are open: opened, and neither closed nor aborted. -/
def openOn (m : Machine) (d : ℕ) : ℕ := m.cycles.countP fun cyc => cyc.device == d

/-- Whether `eb_device_close` returns `EB_BUSY`. -/
def closeBusy (m : Machine) (d : ℕ) : Bool := (m.device? d).any fun dev => dev.unready != 0

/-- Devices are busy while they have open cycles, and are not closed then; open cycles have their devices. -/
structure Accounted (m : Machine) : Prop where
  busy : ∀ dev ∈ m.devices, m.closeBusy dev.id = true ↔ 0 < m.openOn dev.id
  refused : ∀ dev ∈ m.devices, m.ebDeviceClose dev.id = some m ↔ 0 < m.openOn dev.id
  referred : ∀ cyc ∈ m.cycles, ∃ dev ∈ m.devices, dev.id = cyc.device

/-- At no time 256 cycles of a device are open. -/
def Countable (m : Machine) : Prop := ∀ d, m.openOn d < 256

/-- The count is kept in a byte. A device that closes has no open cycle, and is not used any more. -/
structure Kept (m : Machine) : Prop where
  counted : ∀ dev ∈ m.devices, dev.unready = m.openOn dev.id % 256
  idle : ∀ dev ∈ m.devices, dev.closing = true → m.openOn dev.id = 0
  referred : ∀ d, 0 < m.openOn d → ∃ dev ∈ m.devices, dev.id = d
  frames : ∀ d todo, Frame.close d todo ∈ m.stack → d < m.nextId ∧ ∀ dev ∈ m.devices,
    dev.id = d → dev.closing = true

section Keeping

variable {m m' : Machine} {a : SocketAct} {c d : ℕ} {dev : Device} {cyc : OpenCycle}

/-- The call returns without doing anything exactly for a busy device. -/
theorem ebDeviceClose_refuses_iff (hd : m.device? d = some dev) :
    m.ebDeviceClose d = some m ↔ m.closeBusy d = true := by
  rw [ebDeviceClose, closeBusy, hd, Option.bind_some, Option.any_some, bne_iff_ne]
  by_cases hunready : dev.unready = 0
  · refine iff_of_false (fun hsame => ?_) (not_not.mpr hunready)
    rw [if_neg (not_not.mpr hunready)] at hsame
    -- a call that goes on is put on the stack
    split_ifs at hsame with hclosing hbusy
    · have hstack := congrArg (fun m => m.stack.length) (Option.some.inj hsame)
      exact absurd hstack (Nat.succ_ne_self _)
    · have hstack := congrArg (fun m => m.stack.length) (Option.some.inj hsame)
      change m.stack.length + 1 + 1 = m.stack.length at hstack
      omega
  · rw [if_pos hunready]
    exact iff_of_true rfl hunready

theorem Distinct.device_eq (h : m.Distinct) (hd : m.device? d = some dev) {other : Device}
    (hother : other ∈ m.devices)
    (hid : other.id = d) : other = dev := by
  have hmem : other ∈ m.devices.filter fun dev => dev.id == d := List.mem_filter.mpr ⟨hother, by simp [hid]⟩
  rw [filter_device h.ids hd] at hmem
  exact List.mem_singleton.mp hmem

theorem Distinct.device_of_mem (h : m.Distinct) (hdev : dev ∈ m.devices) : m.device? dev.id = some dev := by
  cases hfind : m.device? dev.id with
  | none => exact absurd (List.find?_eq_none.mp hfind dev hdev) (by simp)
  | some other => rw [h.device_eq hfind hdev rfl]

/-- The counts, the devices and the calls that close them stay as they are. -/
theorem Kept.same (h : m.Kept) (hopen : ∀ d, m'.openOn d = m.openOn d) (hnext : m.nextId ≤ m'.nextId)
    (hdevices : ∀ dev' ∈ m'.devices, ∃ dev ∈ m.devices,
      dev'.id = dev.id ∧ dev'.unready = dev.unready ∧ dev'.closing = dev.closing)
    (hkept : ∀ dev ∈ m.devices, ∃ dev' ∈ m'.devices, dev'.id = dev.id)
    (hstack : ∀ d todo, Frame.close d todo ∈ m'.stack → ∃ todo', Frame.close d todo' ∈ m.stack) : m'.Kept where
  counted dev' hdev' := by
    obtain ⟨dev, hdev, hid, hunready, -⟩ := hdevices dev' hdev'
    rw [hunready, hid, hopen]
    exact h.counted dev hdev
  idle dev' hdev' hclosing := by
    obtain ⟨dev, hdev, hid, -, hsame⟩ := hdevices dev' hdev'
    rw [hid, hopen]
    exact h.idle dev hdev (hsame ▸ hclosing)
  referred d hpos := by
    obtain ⟨dev, hdev, rfl⟩ := h.referred d (hopen d ▸ hpos)
    exact hkept dev hdev
  frames d todo hframe := by
    obtain ⟨todo', hframe'⟩ := hstack d todo hframe
    obtain ⟨hlt, hall⟩ := h.frames d todo' hframe'
    refine ⟨Nat.lt_of_lt_of_le hlt hnext, fun dev' hdev' hid => ?_⟩
    obtain ⟨dev, hdev, hid', -, hsame⟩ := hdevices dev' hdev'
    rw [hsame]
    exact hall dev hdev (hid' ▸ hid)

/-- One device is changed, with the number of its open cycles. -/
theorem Kept.setDevice (h : m.Kept) (hdistinct : m.Distinct) (hd : m.device? d = some dev) (f : Device → Device)
    (hid : ∀ dev, (f dev).id = dev.id) (hdevices : m'.devices = (m.setDevice d f).devices)
    (hnext : m.nextId ≤ m'.nextId)
    (hopen : ∀ e, e ≠ d → m'.openOn e = m.openOn e) (hcounted : (f dev).unready = m'.openOn d % 256)
    (hidle : (f dev).closing = true → m'.openOn d = 0)
    (hstack : ∀ e todo, Frame.close e todo ∈ m'.stack → (∃ todo', Frame.close e todo' ∈ m.stack) ∨ e = d)
    (hframe : ∀ todo, Frame.close d todo ∈ m'.stack → (f dev).closing = true) : m'.Kept := by
  have hmem := List.mem_of_find?_eq_some hd
  have hdid : dev.id = d := by simpa using List.find?_some hd
  have hcases : ∀ dev' ∈ m'.devices, dev' = f dev ∨ (dev' ∈ m.devices ∧ dev'.id ≠ d) := by
    intro dev' hdev'
    rw [hdevices] at hdev'
    obtain ⟨old, hold, rfl⟩ := List.mem_map.mp hdev'
    by_cases hold' : old.id = d
    · rw [if_pos hold', hdistinct.device_eq hd hold hold']
      exact .inl rfl
    · rw [if_neg hold']
      exact .inr ⟨hold, hold'⟩
  have hstay : ∀ old ∈ m.devices, ∃ dev' ∈ m'.devices, dev'.id = old.id := by
    intro old hold
    rw [hdevices]
    refine ⟨_, List.mem_map_of_mem hold, ?_⟩
    by_cases hold' : old.id = d
    · rw [if_pos hold', hid]
    · rw [if_neg hold']
  have hfid : (f dev).id = d := (hid dev).trans hdid
  refine ⟨fun dev' hdev' => ?_, fun dev' hdev' hclosing => ?_, fun e hpos => ?_,
    fun e todo he => ⟨?_, fun dev' hdev' hide => ?_⟩⟩
  · cases hcases dev' hdev' with
    | inl heq =>
      subst heq
      rw [hfid]
      exact hcounted
    | inr hold =>
      rw [hopen _ hold.2]
      exact h.counted dev' hold.1
  · cases hcases dev' hdev' with
    | inl heq =>
      subst heq
      rw [hfid]
      exact hidle hclosing
    | inr hold =>
      rw [hopen _ hold.2]
      exact h.idle dev' hold.1 hclosing
  · by_cases he : e = d
    · obtain ⟨dev', hdev', hid'⟩ := hstay dev hmem
      exact ⟨dev', hdev', hid'.trans (hdid.trans he.symm)⟩
    · obtain ⟨old, hold, rfl⟩ := h.referred e (hopen e he ▸ hpos)
      exact hstay old hold
  · cases hstack e todo he with
    | inl hold =>
      obtain ⟨todo', hframe'⟩ := hold
      exact Nat.lt_of_lt_of_le (h.frames e todo' hframe').1 hnext
    | inr heq => exact heq ▸ hdid ▸ Nat.lt_of_lt_of_le (hdistinct.ids_lt dev hmem) hnext
  · cases hcases dev' hdev' with
    | inl heq =>
      subst heq
      have hed : e = d := hide.symm.trans hfid
      exact hframe todo (hed ▸ he)
    | inr hold =>
      cases hstack e todo he with
      | inl hframe' =>
        obtain ⟨todo', hframe'⟩ := hframe'
        exact (h.frames e todo' hframe').2 dev' hold.1 hide
      | inr heq => exact absurd (hide.trans heq) hold.2

theorem openOn_setCycle (f : OpenCycle → OpenCycle) (hf : ∀ cyc, (f cyc).device = cyc.device) (d : ℕ) :
    (m.setCycle c f).openOn d = m.openOn d := by
  rw [openOn, openOn, Machine.setCycle, List.countP_map]
  congr 1
  funext cyc
  by_cases hid : cyc.id = c
  · simp [hid, hf]
  · simp [hid]

/-- A cycle that is closed or aborted no longer counts. -/
theorem Distinct.openOn_dropCycle (h : m.Distinct) (hc : m.cycle? c = some cyc) (e : ℕ) :
    (m.dropCycle c).openOn e + (if cyc.device = e then 1 else 0) = m.openOn e := by
  have honce := h.once c
  have hid : cyc.id = c := by simpa using List.find?_some hc
  have hmem : cyc ∈ m.cycles.filter fun other => other.id == c :=
    List.mem_filter.mpr ⟨List.mem_of_find?_eq_some hc, by simp [hid]⟩
  have hone : m.cycles.filter (fun other => other.id == c) = [cyc] := by
    have hlength : (m.cycles.filter fun other => other.id == c).length ≤ 1 := by
      rw [← List.countP_eq_length_filter]
      rw [handled, opened] at honce
      omega
    cases hfilter : m.cycles.filter fun other => other.id == c with
    | nil =>
      rw [hfilter] at hmem
      cases hmem
    | cons first rest =>
      rw [hfilter] at hmem hlength
      have hrest : rest = [] := by
        rw [List.length_cons] at hlength
        exact List.length_eq_zero_iff.mp (by omega)
      subst hrest
      rw [List.mem_singleton.mp hmem]
  have hsplit := List.countP_eq_countP_filter_add m.cycles (fun cyc => cyc.device == e) (fun cyc => cyc.id == c)
  rw [hone] at hsplit
  have hdrop : (m.dropCycle c).cycles = m.cycles.filter fun cyc => !(cyc.id == c) := rfl
  rw [openOn, openOn, hdrop, hsplit, List.countP_singleton]
  simp only [beq_iff_eq]
  rw [Nat.add_comm]

theorem openOn_pos (hc : m.cycle? c = some cyc) : 0 < m.openOn cyc.device :=
  List.countP_pos_iff.mpr ⟨cyc, List.mem_of_find?_eq_some hc, by simp⟩

/-- A device that is changed, but not in what is kept of it. -/
theorem Kept.setSame (h : m.Kept) (f : Device → Device) (hid : ∀ dev, (f dev).id = dev.id)
    (hunready : ∀ dev, (f dev).unready = dev.unready) (hclosing : ∀ dev, (f dev).closing = dev.closing)
    (hdevices : m'.devices = (m.setDevice d f).devices) (hcycles : m'.cycles = m.cycles)
    (hnext : m.nextId ≤ m'.nextId)
    (hstack : ∀ d todo, Frame.close d todo ∈ m'.stack → ∃ todo', Frame.close d todo' ∈ m.stack) : m'.Kept := by
  refine h.same (fun d => by rw [openOn, openOn, hcycles]) hnext (fun dev' hdev' => ?_) (fun dev hdev => ?_) hstack
  · rw [hdevices] at hdev'
    obtain ⟨old, hold, rfl⟩ := List.mem_map.mp hdev'
    refine ⟨old, hold, ?_⟩
    by_cases hd : old.id = d
    · rw [if_pos hd]
      exact ⟨hid old, hunready old, hclosing old⟩
    · rw [if_neg hd]
      exact ⟨rfl, rfl, rfl⟩
  · rw [hdevices]
    refine ⟨_, List.mem_map_of_mem hdev, ?_⟩
    by_cases hd : dev.id = d
    · rw [if_pos hd, hid]
    · rw [if_neg hd]

/-- The devices and cycles stay as they are. -/
theorem Kept.rest (h : m.Kept) (hdevices : m'.devices = m.devices) (hcycles : m'.cycles = m.cycles)
    (hnext : m.nextId ≤ m'.nextId)
    (hstack : ∀ d todo, Frame.close d todo ∈ m'.stack → ∃ todo', Frame.close d todo' ∈ m.stack) : m'.Kept := by
  refine h.same (fun d => by rw [openOn, openOn, hcycles]) hnext (fun dev' hdev' => ?_) (fun dev hdev => ?_) hstack
  · exact ⟨dev', hdevices ▸ hdev', rfl, rfl, rfl⟩
  · exact ⟨dev, hdevices.symm ▸ hdev, rfl⟩

/-- The calls that close devices, in a stack that has lost or gained other calls. -/
theorem close_mem {frames frames' stack : List Frame} (hs : m.stack = frames ++ stack)
    (hframes : ∀ d todo, Frame.close d todo ∈ frames' → ∃ todo', Frame.close d todo' ∈ frames) :
    ∀ d todo, Frame.close d todo ∈ frames' ++ stack → ∃ todo', Frame.close d todo' ∈ m.stack := by
  intro d todo hmem
  rw [hs]
  cases List.mem_append.mp hmem with
  | inl hnew =>
    obtain ⟨todo', hold⟩ := hframes d todo hnew
    exact ⟨todo', List.mem_append_left _ hold⟩
  | inr hold => exact ⟨todo, List.mem_append_right _ hold⟩

theorem Kept.turns (h : m.Kept) (ht : Turns m m') : m'.Kept := by
  cases ht with
  | expire hs he => exact h.rest rfl rfl (Nat.le_refl _) (@close_mem m [] [_] _ rfl (by simp))
  | tick hs | poll hs | visit hs | skip hs =>
    exact h.rest rfl rfl (Nat.le_refl _) (@close_mem m [_] [_] _ hs (by simp))
  | returned hs | killEnd hs => exact h.rest rfl rfl (Nat.le_refl _) (@close_mem m [_] [] _ hs (by simp))
  | flush hs hd =>
    exact h.setSame (fun dev => { dev with ready := [] }) (fun _ => rfl) (fun _ => rfl) (fun _ => rfl) rfl rfl
      (Nat.le_refl _) (@close_mem m [_] [_, _] _ hs (by simp))
  | flushEnd hs =>
    exact h.setSame (fun dev => { dev with ready := [] }) (fun _ => rfl) (fun _ => rfl) (fun _ => rfl) rfl rfl
      (Nat.le_refl _) (@close_mem m [_] [] _ hs (by simp))
  | flushCall hs | killCall hs | closeCall hs =>
    exact h.rest rfl rfl (Nat.le_refl _) (@close_mem m [_] [_, _] _ hs (by simp))
  | flushIssue hs => exact h.rest rfl rfl (Nat.le_refl _) (@close_mem m [_] [_] _ hs (by simp))
  | @closeEnd d stack dev hs hd =>
    have hmem := List.mem_of_find?_eq_some hd
    have hid : dev.id = d := by simpa using List.find?_some hd
    have hclosing := (h.frames d [] (hs ▸ List.mem_cons_self)).2 dev hmem hid
    have hnone : m.openOn d = 0 := hid ▸ h.idle dev hmem hclosing
    refine ⟨fun dev' hdev' => h.counted dev' (List.mem_filter.mp hdev').1,
      fun dev' hdev' => h.idle dev' (List.mem_filter.mp hdev').1, fun e hpos => ?_, fun e todo he => ?_⟩
    · obtain ⟨dev', hdev', rfl⟩ := h.referred e hpos
      have hne : dev'.id ≠ d := by
        intro heq
        have hpos' : 0 < m.openOn dev'.id := hpos
        rw [heq, hnone] at hpos'
        exact Nat.lt_irrefl _ hpos'
      exact ⟨dev', List.mem_filter.mpr ⟨hdev', by simpa using hne⟩, rfl⟩
    · obtain ⟨hlt, hall⟩ := h.frames e todo (hs ▸ List.mem_cons_of_mem _ he)
      exact ⟨hlt, fun dev' hdev' => hall dev' (List.mem_filter.mp hdev').1⟩

/-- While fewer than 256 cycles are open on each device, a step keeps the count. -/
theorem Kept.moves (h : m.Kept) (hdistinct : m.Distinct) (hcountable : m.Countable)
    (hm : Moves m a m') : m'.Kept := by
  cases hm with
  | idle => exact h
  | openDevice port mtu hu =>
    refine ⟨fun dev hdev => ?_, fun dev hdev hclosing => ?_, fun d hpos => ?_, fun d todo hd => ?_⟩
    · cases List.mem_cons.mp hdev with
      | inl hnew =>
        subst hnew
        have hnone : m.openOn m.nextId = 0 := by
          by_contra hpos
          obtain ⟨dev, hdev, hid⟩ := h.referred m.nextId (Nat.pos_of_ne_zero hpos)
          exact absurd (hid ▸ hdistinct.ids_lt dev hdev) (Nat.lt_irrefl _)
        change 0 = m.openOn m.nextId % 256
        rw [hnone]
      | inr hold => exact h.counted dev hold
    · cases List.mem_cons.mp hdev with
      | inl hnew =>
        subst hnew
        cases hclosing
      | inr hold => exact h.idle dev hold hclosing
    · obtain ⟨dev, hdev, hid⟩ := h.referred d hpos
      exact ⟨dev, List.mem_cons_of_mem _ hdev, hid⟩
    · obtain ⟨hlt, hall⟩ := h.frames d todo hd
      refine ⟨Nat.lt_succ_of_lt hlt, fun dev hdev hid => ?_⟩
      cases List.mem_cons.mp hdev with
      | inl hnew =>
        subst hnew
        exact absurd hlt (hid ▸ Nat.lt_irrefl _)
      | inr hold => exact hall dev hold hid
  | @openCycle d dev hu hd hclosing =>
    have hmem := List.mem_of_find?_eq_some hd
    have hid : dev.id = d := by simpa using List.find?_some hd
    refine h.setDevice hdistinct hd (fun dev => { dev with unready := (dev.unready + 1) % 256 }) (fun _ => rfl) rfl
      (Nat.le_succ _) (fun e he => ?_) ?_ (fun htrue => ?_) (fun e todo he => .inl ⟨todo, he⟩) (fun todo he => ?_)
    · rw [openOn, openOn, List.countP_cons_of_neg (by simpa using Ne.symm he)]
    · rw [openOn, List.countP_cons_of_pos (by simp)]
      change (dev.unready + 1) % 256 = (m.openOn d + 1) % 256
      rw [h.counted dev hmem, hid]
      omega
    · rw [hclosing] at htrue
      cases htrue
    · exact (h.frames d todo he).2 dev hmem hid
  | operate op f hu hc hf =>
    exact h.same (fun d => openOn_setCycle f (fun cyc => (hf cyc).2) d) (Nat.le_refl _)
      (fun dev hdev => ⟨dev, hdev, rfl, rfl, rfl⟩) (fun dev hdev => ⟨dev, hdev, rfl⟩) (fun d todo hd => ⟨todo, hd⟩)
  | @abort c cyc dev hu hc hd =>
    have hmem := List.mem_of_find?_eq_some hd
    have hid : dev.id = cyc.device := by simpa using List.find?_some hd
    have hdrop := hdistinct.openOn_dropCycle hc
    have hpos := openOn_pos hc
    refine h.setDevice hdistinct hd (fun dev => { dev with unready := (dev.unready + 255) % 256 }) (fun _ => rfl) rfl
      (Nat.le_refl _) (fun e he => ?_) ?_ (fun htrue => ?_) (fun e todo he => .inl ⟨todo, he⟩) (fun todo he => ?_)
    · have hsame := hdrop e
      rw [if_neg (Ne.symm he)] at hsame
      exact hsame
    · have hone := hdrop cyc.device
      rw [if_pos rfl] at hone
      change (dev.unready + 255) % 256 = (m.dropCycle c).openOn cyc.device % 256
      rw [h.counted dev hmem, hid]
      omega
    · have hnone := h.idle dev hmem htrue
      rw [hid] at hnone
      omega
    · have hclosing := (h.frames cyc.device todo he).2 dev hmem hid
      exact hclosing
  | @closeCycle c cyc dev checked hu hc hd =>
    have hmem := List.mem_of_find?_eq_some hd
    have hid : dev.id = cyc.device := by simpa using List.find?_some hd
    have hdrop := hdistinct.openOn_dropCycle hc
    have hpos := openOn_pos hc
    have hopen : dev.closing = false := by
      by_contra hclosing
      have hnone := h.idle dev hmem (by simpa using hclosing)
      rw [hid] at hnone
      omega
    refine h.setDevice hdistinct hd (fun dev => dev.enqueue (cyc.close checked)) (fun dev => enqueue_id dev _) rfl
      (Nat.le_refl _) (fun e he => ?_) ?_ (fun htrue => ?_) (fun e todo he => .inl ⟨todo, he⟩) (fun todo he => ?_)
    · have hsame := hdrop e
      rw [if_neg (Ne.symm he)] at hsame
      exact hsame
    · have hone := hdrop cyc.device
      rw [if_pos rfl] at hone
      rw [Device.enqueue, if_neg (by simp [hopen])]
      change (dev.unready + 255) % 256 = (m.dropCycle c).openOn cyc.device % 256
      rw [h.counted dev hmem, hid]
      omega
    · rw [enqueue_closing] at htrue
      cases htrue
    · have hclosing := (h.frames cyc.device todo he).2 dev hmem hid
      rw [hopen] at hclosing
      cases hclosing
  | @closeAgain d dev hu hd hclosing =>
    have hmem := List.mem_of_find?_eq_some hd
    have hid : dev.id = d := by simpa using List.find?_some hd
    refine ⟨h.counted, h.idle, h.referred, fun e todo he => ?_⟩
    cases List.mem_cons.mp he with
    | inl hnew =>
      cases hnew
      exact ⟨hid ▸ hdistinct.ids_lt dev hmem,
        fun other hother hoid => hdistinct.device_eq hd hother hoid ▸ hclosing⟩
    | inr hold => exact h.frames e todo hold
  | @closeDevice d dev hu hd hunready hclosing hflushing hstray =>
    have hmem := List.mem_of_find?_eq_some hd
    have hid : dev.id = d := by simpa using List.find?_some hd
    have hnone : m.openOn d = 0 := by
      have hcount := h.counted dev hmem
      have hlt := hcountable d
      rw [hid, hunready] at hcount
      omega
    refine h.setDevice hdistinct hd (fun dev => { dev with ready := [], closing := true }) (fun _ => rfl) rfl
      (Nat.le_refl _) (fun e he => rfl) ?_ (fun _ => hnone) (fun e todo he => ?_) (fun _ _ => rfl)
    · have hcount := h.counted dev hmem
      rw [hid] at hcount
      exact hcount
    · simp only [ebSocketKillInflight, List.mem_cons, reduceCtorEq, Frame.close.injEq, false_or] at he
      cases he with
      | inl hnew => exact .inr hnew.1
      | inr hold => exact .inl ⟨todo, hold⟩
  | timeout hu =>
    obtain ⟨first, last, -, hres⟩ := m.ebSocketTimeout_spec
    rw [hres]
    exact h.rest rfl rfl (Nat.le_refl _) (fun d todo hd => ⟨todo, hd⟩)
  | check now hu => exact h.rest rfl rfl (Nat.le_refl _) (@close_mem m [] [_] _ rfl (by simp))
  | done hs => exact h.rest rfl rfl (Nat.le_refl _) (@close_mem m [_] [] _ hs (by simp))
  | next alloc ht => exact h.turns ht
  | writeBack widths addr value hp =>
    obtain ⟨first, last, ⟨-, hres⟩ | ⟨pre, f, post, status, -, -, hres⟩⟩ :=
      m.ebSocketWriteConfig_spec widths addr value
    · rw [hres]
      exact h.rest rfl rfl (Nat.le_refl _) (fun d todo hd => ⟨todo, hd⟩)
    · rw [hres]
      exact h.rest rfl rfl (Nat.le_refl _) (@close_mem m [] [_] _ rfl (by simp))
  | handler hp => exact h.rest rfl rfl (Nat.le_refl _) (@close_mem m [] [_] _ rfl (by simp))
  | breakLink hs hd hclosing hlink =>
    exact h.setSame (fun dev => { dev with link := false }) (fun _ => rfl) (fun _ => rfl) (fun _ => rfl) rfl rfl
      (Nat.le_refl _) (fun d todo hd => ⟨todo, hd⟩)

end Keeping

/-- A step opens one cycle at most. -/
theorem Distinct.openOn_moves {m m' : Machine} {a : SocketAct} (h : m.Distinct) (hm : Moves m a m') (d : ℕ) :
    m'.openOn d ≤ m.openOn d + 1 := by
  cases hm with
  | openCycle =>
    rw [openOn, openOn, List.countP_cons]
    split
    · exact Nat.le_refl _
    · exact Nat.le_succ _
  | operate op f hu hc hf =>
    rw [openOn_setCycle f (fun cyc => (hf cyc).2)]
    exact Nat.le_succ _
  | abort hu hc | closeCycle checked hu hc =>
    have hdrop := h.openOn_dropCycle hc d
    have hle : (m.dropCycle _).openOn d ≤ m.openOn d := hdrop ▸ Nat.le_add_right _ _
    exact Nat.le_succ_of_le hle
  | timeout =>
    obtain ⟨first, last, -, hres⟩ := m.ebSocketTimeout_spec
    rw [hres]
    exact Nat.le_succ _
  | next alloc ht =>
    have hcycles : m'.cycles = m.cycles := by cases ht <;> rfl
    rw [openOn, hcycles]
    exact Nat.le_succ _
  | writeBack widths addr value =>
    obtain ⟨first, last, ⟨-, hres⟩ | ⟨pre, f, post, status, -, -, hres⟩⟩ :=
      m.ebSocketWriteConfig_spec widths addr value
    · rw [hres]
      exact Nat.le_succ _
    · rw [hres]
      exact Nat.le_succ _
  | _ => exact Nat.le_succ _

/-- The devices are accounted for until 256 cycles of one of them are open. -/
theorem Kept.accounted_iff {m : Machine} (h : m.Kept) (hdistinct : m.Distinct) (hle : ∀ d, m.openOn d ≤ 256) :
    m.Accounted ↔ m.Countable := by
  have hbusy : ∀ dev ∈ m.devices, m.closeBusy dev.id = true ↔ m.openOn dev.id % 256 ≠ 0 := by
    intro dev hdev
    rw [closeBusy, hdistinct.device_of_mem hdev, Option.any_some, bne_iff_ne, h.counted dev hdev]
  constructor
  · intro haccounted d
    by_contra hge
    have hall : m.openOn d = 256 := by
      have hled := hle d
      omega
    obtain ⟨dev, hdev, rfl⟩ := h.referred d (by omega)
    have hzero := (hbusy dev hdev).mp ((haccounted.busy dev hdev).mpr (by omega))
    rw [hall] at hzero
    exact hzero rfl
  · intro hcountable
    have hopen : ∀ dev ∈ m.devices, m.closeBusy dev.id = true ↔ 0 < m.openOn dev.id := by
      intro dev hdev
      have hlt := hcountable dev.id
      rw [hbusy dev hdev]
      omega
    refine ⟨hopen, fun dev hdev => ?_, fun cyc hcyc => ?_⟩
    · exact (ebDeviceClose_refuses_iff (hdistinct.device_of_mem hdev)).trans (hopen dev hdev)
    · exact h.referred cyc.device (List.countP_pos_iff.mpr ⟨cyc, hcyc, by simp⟩)

/-- `eb_device_close` refuses exactly the devices with open cycles, and no open cycle loses its device, in
the runs where never 256 cycles of a device are open at once. -/
theorem openAccounting_iff (acts : List SocketAct) :
    (∀ pre m, pre <+: acts → run step {} pre = some m → m.Accounted) ↔
      (∀ pre m, pre <+: acts → run step {} pre = some m → m.Countable) := by
  have hstep : ∀ {m : Machine} {a : SocketAct} {m' : Machine}, m.Distinct ∧ m.Kept → m.Accounted → m.Countable →
      m.step a = some m' → (m'.Distinct ∧ m'.Kept) ∧ (m'.Accounted ↔ m'.Countable) := by
    intro m a m' hkept _ hcountable hs
    have hmoves := step_moves hs
    have hdistinct := hkept.1.moves hmoves
    have hkept' := hkept.2.moves hkept.1 hcountable hmoves
    refine ⟨⟨hdistinct, hkept'⟩, hkept'.accounted_iff hdistinct fun d => ?_⟩
    have hgrows := hkept.1.openOn_moves hmoves d
    have hlt := hcountable d
    omega
  have hstart : Kept {} := ⟨fun _ h => absurd h List.not_mem_nil, fun _ h => absurd h List.not_mem_nil,
    fun _ h => absurd h (Nat.lt_irrefl _), fun _ _ h => absurd h List.not_mem_nil⟩
  have hcountable : Countable {} := fun _ => Nat.zero_lt_succ _
  have haccounted : Accounted {} := (hstart.accounted_iff start_distinct fun _ => Nat.zero_le _).mpr hcountable
  exact holds_together hstep ⟨start_distinct, hstart⟩ haccounted hcountable acts

end Machine

namespace Sample
open Machine

/-- A device, and cycles opened on it. -/
def openMany (n : ℕ) : List SocketAct := .openDevice narrowPort 0 :: List.replicate n (.openCycle 0)

def openedMany (n : ℕ) : Machine where
  devices := [{ id := 0, port := narrowPort, mtu := 0, unready := n % 256 }]
  cycles := (List.range n).reverse.map fun i => { id := i + 1, device := 0 }
  nextId := n + 1

theorem openMany_run (n : ℕ) : run step {} (openMany n) = some (openedMany n) := by
  induction n with
  | zero => rfl
  | succ n ih =>
    rw [openMany, List.replicate_succ', ← List.cons_append, run_append, ← openMany, ih]
    simp [openedMany, run, step, userTurn, ebCycleOpen, device?, Machine.setDevice, List.range_succ]

/-- With 256 open cycles a device can be closed. -/
theorem openMany_unaccounted : ¬ ∀ acts m, run step {} acts = some m → m.Accounted := by
  intro h
  have hbusy := (h _ _ (openMany_run 256)).busy _ (List.mem_singleton_self _)
  have hcount : (openedMany 256).openOn 0 = 256 := by
    rw [openOn, openedMany, List.countP_map]
    exact (List.countP_eq_length.mpr fun _ _ => rfl).trans (by rw [List.length_reverse, List.length_range])
  have hfree : (openedMany 256).closeBusy 0 = false := rfl
  rw [hcount, hfree] at hbusy
  exact absurd (hbusy.mpr (by omega)) (by simp)

end Sample

end WhiteRabbit.Etherbone
