import WhiteRabbit.SocketMachine

/-!
# What a step of the socket can do

One constructor for each way a step can go, with what is known when it goes that way and the
machine after it. Every invariant is shown by cases on it.
-/

namespace WhiteRabbit.Etherbone
open StepRuns

namespace Machine

/-- The next turn of the call on top goes from `m` to the machine given. -/
inductive Turns (m : Machine) : Machine → Prop where
  | expire {now : ℕ} {stack : List Frame} {f : Flight} {rest : List Flight}
      (hs : m.stack = .check now .expire :: stack) (he : m.expiring now = some (f, rest)) :
      Turns m ({ m with first := rest, log := m.log ++ [SocketEvent.expired f.due now] }.call f.cycle
        .timeout)
  | tick {now : ℕ} {stack : List Frame}
      (hs : m.stack = .check now .expire :: stack) (he : m.expiring now = none) :
      Turns m { m with timeCache := now, stack := .check now .poll :: stack }
  | poll {now : ℕ} {stack : List Frame} (hs : m.stack = .check now .poll :: stack) :
      Turns m { m with stack := .check now (.devices (m.devices.head?.map Device.id)) :: stack }
  | returned {now : ℕ} {stack : List Frame} (hs : m.stack = .check now (.devices none) :: stack) :
      Turns m { m with stack := stack }
  | visit {now d : ℕ} {stack : List Frame} {dev : Device}
      (hs : m.stack = .check now (.devices (some d)) :: stack) (hd : m.device? d = some dev) :
      Turns m { m with stack := .check now (.slave d (following d m.devices)) :: stack }
  | skip {now d : ℕ} {next : Option ℕ} {stack : List Frame} {dev : Device}
      (hs : m.stack = .check now (.slave d next) :: stack) (hd : m.device? d = some dev)
      (hskip : dev.closing = true ∨ dev.link = false) :
      Turns m { m with stack := .check now (.devices next) :: stack }
  | flush {now d : ℕ} {next : Option ℕ} {stack : List Frame} {dev : Device}
      (hs : m.stack = .check now (.slave d next) :: stack) (hd : m.device? d = some dev)
      (hclosing : dev.closing = false) (hlink : dev.link = true)
      (hflushing : m.flushing d = false) (hstray : dev.stray = false) :
      Turns m
        { m.setDevice d fun dev => { dev with ready := [] } with
          stack := .flush d dev.port dev.mtu dev.ready.reverse (FlushState.start m.rba) ::
            .check now (.devices next) :: stack }
  | flushEnd {d mtu : ℕ} {p : Port} {buffer : FlushState} {stack : List Frame}
      (hs : m.stack = .flush d p mtu [] buffer :: stack) :
      Turns m { m.setDevice d fun dev => { dev with ready := [] } with stack := stack }
  | flushCall {d mtu : ℕ} {p : Port} {c : Waiting} {todo : List Waiting} {buffer buffer' : FlushState}
      {stack : List Frame} {alloc : Bool} {status : Status} {operation : Option ℕ}
      (hs : m.stack = .flush d p mtu (c :: todo) buffer :: stack)
      (hf : { buffer with rba := m.rba }.flushCycle p mtu { c.content with alloc := alloc } =
        (buffer', .callback status operation)) :
      Turns m ({ m with rba := buffer'.rba, stack := .flush d p mtu todo buffer' :: stack }.call
        c.cycle status)
  | flushIssue {d mtu address : ℕ} {p : Port} {c : Waiting} {todo : List Waiting}
      {buffer buffer' : FlushState} {stack : List Frame} {alloc : Bool}
      (hs : m.stack = .flush d p mtu (c :: todo) buffer :: stack)
      (hf : { buffer with rba := m.rba }.flushCycle p mtu { c.content with alloc := alloc } =
        (buffer', .response address)) :
      Turns m ({ m with rba := buffer'.rba, stack := .flush d p mtu todo buffer' :: stack }.issue d c
        (checkOperations p c.content.ops).1 address)
  | killEnd {stack : List Frame} (hs : m.stack = .kill [] :: stack) : Turns m { m with stack := stack }
  | killCall {f : Flight} {bads : List Flight} {stack : List Frame}
      (hs : m.stack = .kill (f :: bads) :: stack) :
      Turns m ({ m with stack := .kill bads :: stack }.call f.cycle .timeout)
  | closeEnd {d : ℕ} {stack : List Frame} {dev : Device} (hs : m.stack = .close d [] :: stack)
      (hd : m.device? d = some dev) :
      Turns m { m with devices := m.devices.filter fun dev => dev.id != d, stack := stack }
  | closeCall {d : ℕ} {c : Waiting} {todo : List Waiting} {stack : List Frame}
      (hs : m.stack = .close d (c :: todo) :: stack) :
      Turns m ({ m with stack := .close d todo :: stack }.call c.cycle .timeout)

/-- A step from `m` goes to the machine given. -/
inductive Moves (m : Machine) : SocketAct → Machine → Prop where
  /-- The call fails, or has no effect. -/
  | idle (a : SocketAct) (hu : m.userTurn = true) : Moves m a m
  | openDevice (port : Port) (mtu : ℕ) (hu : m.userTurn = true) :
      Moves m (.openDevice port mtu) (m.ebDeviceOpen port mtu)
  | openCycle {d : ℕ} {dev : Device} (hu : m.userTurn = true) (hd : m.device? d = some dev)
      (hclosing : dev.closing = false) :
      Moves m (.openCycle d)
        { m.setDevice d fun dev => { dev with unready := (dev.unready + 1) % 256 } with
          cycles := { id := m.nextId, device := d } :: m.cycles
          nextId := m.nextId + 1 }
  | operate {c : ℕ} {cyc : OpenCycle} (op : Option Operation) (f : OpenCycle → OpenCycle)
      (hu : m.userTurn = true) (hc : m.cycle? c = some cyc)
      (hf : ∀ cyc, (f cyc).id = cyc.id ∧ (f cyc).device = cyc.device) :
      Moves m (.operate c op) (m.setCycle c f)
  | abort {c : ℕ} {cyc : OpenCycle} {dev : Device} (hu : m.userTurn = true)
      (hc : m.cycle? c = some cyc) (hd : m.device? cyc.device = some dev) :
      Moves m (.abort c)
        { (m.setDevice cyc.device fun dev => { dev with unready := (dev.unready + 255) % 256 }).dropCycle c
          with log := m.log ++ [.aborted c] }
  | closeCycle {c : ℕ} {cyc : OpenCycle} {dev : Device} (checked : Bool) (hu : m.userTurn = true)
      (hc : m.cycle? c = some cyc) (hd : m.device? cyc.device = some dev) :
      Moves m (.closeCycle c checked)
        { (m.setDevice cyc.device fun dev => dev.enqueue (cyc.close checked)).dropCycle c
          with log := m.log ++ [.closed c] }
  | closeAgain {d : ℕ} {dev : Device} (hu : m.userTurn = true) (hd : m.device? d = some dev)
      (hclosing : dev.closing = true) :
      Moves m (.closeDevice d) { m with stack := .close d [] :: m.stack }
  | closeDevice {d : ℕ} {dev : Device} (hu : m.userTurn = true) (hd : m.device? d = some dev)
      (hunready : dev.unready = 0) (hclosing : dev.closing = false) (hflushing : m.flushing d = false)
      (hstray : dev.stray = false) :
      Moves m (.closeDevice d) (ebSocketKillInflight
        { m.setDevice d fun dev => { dev with ready := [], closing := true } with
          stack := .close d dev.ready.reverse :: m.stack } d)
  | timeout (hu : m.userTurn = true) : Moves m .timeout m.ebSocketTimeout.1
  | check (now : ℕ) (hu : m.userTurn = true) :
      Moves m (.check now) { m with stack := .check now .expire :: m.stack }
  | done {stack : List Frame} (hs : m.stack = .callback :: stack) : Moves m .done { m with stack := stack }
  | next {m' : Machine} (alloc : Bool) (ht : Turns m m') : Moves m (.next alloc) m'
  | writeBack (widths addr value : ℕ) (hp : m.polling = true) :
      Moves m (.writeBack widths addr value) (m.ebSocketWriteConfig widths addr value)
  | handler (hp : m.polling = true) : Moves m .handler { m with stack := .callback :: m.stack }
  | breakLink {now d : ℕ} {next : Option ℕ} {stack : List Frame} {dev : Device}
      (hs : m.stack = .check now (.slave d next) :: stack) (hd : m.device? d = some dev)
      (hclosing : dev.closing = false) (hlink : dev.link = true) :
      Moves m .breakLink (m.setDevice d fun dev => { dev with link := false })

variable {m m' : Machine}

theorem checkTurn_turns {now : ℕ} {phase : CheckPhase} {stack : List Frame}
    (hs : m.stack = .check now phase :: stack) (h : m.checkTurn now phase stack = some m') :
    Turns m m' := by
  cases phase with
  | expire =>
    simp only [checkTurn] at h
    split at h
    · rename_i f rest he
      cases h
      exact .expire hs he
    · rename_i he
      cases h
      exact .tick hs he
  | poll =>
    cases h
    exact .poll hs
  | devices cursor =>
    cases cursor with
    | none =>
      cases h
      exact .returned hs
    | some d =>
      obtain ⟨dev, hd, rfl⟩ := Option.map_eq_some_iff.mp h
      exact .visit hs hd
  | slave d next =>
    obtain ⟨dev, hd, h⟩ := Option.bind_eq_some_iff.mp h
    dsimp only at h
    split at h
    · rename_i hskip
      cases h
      exact .skip hs hd (by simpa using hskip)
    · rename_i hactive
      split at h
      · exact absurd h (by simp)
      · rename_i hfree
        cases h
        simp only [Bool.or_eq_true, Bool.not_eq_true', not_or, Bool.not_eq_true, Bool.not_eq_false]
          at hactive hfree
        have hflushing : m.flushing d = false := by
          rw [← hfree.1, flushing, flushing, hs]
          rfl
        exact .flush hs hd hactive.1 hactive.2 hflushing hfree.2

theorem flushTurn_turns {d mtu : ℕ} {p : Port} {todo : List Waiting} {buffer : FlushState}
    {stack : List Frame} (alloc : Bool) (hs : m.stack = .flush d p mtu todo buffer :: stack) :
    Turns m (m.flushTurn d p mtu todo buffer stack alloc) := by
  cases todo with
  | nil => exact .flushEnd hs
  | cons c todo =>
    simp only [flushTurn]
    generalize hf : { buffer with rba := m.rba }.flushCycle p mtu { c.content with alloc := alloc } = res
    obtain ⟨buffer', fate⟩ := res
    cases fate with
    | callback status operation => exact .flushCall hs hf
    | response address => exact .flushIssue hs hf

theorem turn_turns {alloc : Bool} (h : m.turn alloc = some m') : Turns m m' := by
  rw [turn] at h
  cases hs : m.stack with
  | nil => simp [hs] at h
  | cons frame stack =>
    rw [hs] at h
    cases frame with
    | callback => simp at h
    | check now phase => exact checkTurn_turns hs h
    | flush d p mtu todo buffer =>
      cases h
      exact flushTurn_turns alloc hs
    | kill bads =>
      cases h
      cases bads with
      | nil => exact .killEnd hs
      | cons f bads => exact .killCall hs
    | close d todo =>
      cases todo with
      | nil =>
        obtain ⟨dev, hd, rfl⟩ := Option.map_eq_some_iff.mp h
        exact .closeEnd hs hd
      | cons c todo =>
        cases h
        exact .closeCall hs

theorem ebDeviceClose_moves {d : ℕ} (hu : m.userTurn = true) (h : m.ebDeviceClose d = some m') :
    Moves m (.closeDevice d) m' := by
  obtain ⟨dev, hd, h⟩ := Option.bind_eq_some_iff.mp h
  split at h
  · cases h
    exact .idle _ hu
  · rename_i hunready
    split at h
    · rename_i hclosing
      cases h
      exact .closeAgain hu hd hclosing
    · rename_i hclosing
      split at h
      · simp at h
      · rename_i hfree
        cases h
        simp only [Bool.or_eq_true, not_or, Bool.not_eq_true] at hclosing hfree
        exact .closeDevice hu hd (not_not.mp hunready) hclosing hfree.1 hfree.2

theorem ebCycleDoop_moves {c : ℕ} {op : Option Operation} (hu : m.userTurn = true)
    (h : m.ebCycleDoop c op = some m') : Moves m (.operate c op) m' := by
  obtain ⟨cyc, hc, rfl⟩ := Option.map_eq_some_iff.mp h
  cases op with
  | none => exact .operate none _ hu hc fun _ => ⟨rfl, rfl⟩
  | some op =>
    dsimp only
    split
    · exact .idle _ hu
    · exact .operate (some op) _ hu hc fun _ => ⟨rfl, rfl⟩

/-- Every step is one of the moves. -/
theorem step_moves {a : SocketAct} (h : m.step a = some m') : Moves m a m' := by
  cases a with
  | openDevice port mtu =>
    obtain ⟨hu, h⟩ := Option.ite_none_right_eq_some.mp h
    cases h
    exact .openDevice port mtu hu
  | openCycle d =>
    obtain ⟨hu, h⟩ := Option.ite_none_right_eq_some.mp h
    obtain ⟨dev, hd, rfl⟩ := Option.map_eq_some_iff.mp h
    split
    · exact .idle _ hu
    · rename_i hclosing
      exact .openCycle hu hd (by simpa using hclosing)
  | operate c op =>
    obtain ⟨hu, h⟩ := Option.ite_none_right_eq_some.mp h
    exact ebCycleDoop_moves hu h
  | closeCycle c checked =>
    obtain ⟨hu, h⟩ := Option.ite_none_right_eq_some.mp h
    obtain ⟨cyc, hc, h⟩ := Option.bind_eq_some_iff.mp h
    obtain ⟨dev, hd, rfl⟩ := Option.map_eq_some_iff.mp h
    exact .closeCycle checked hu hc hd
  | abort c =>
    obtain ⟨hu, h⟩ := Option.ite_none_right_eq_some.mp h
    obtain ⟨cyc, hc, h⟩ := Option.bind_eq_some_iff.mp h
    obtain ⟨dev, hd, rfl⟩ := Option.map_eq_some_iff.mp h
    exact .abort hu hc hd
  | closeDevice d =>
    obtain ⟨hu, h⟩ := Option.ite_none_right_eq_some.mp h
    exact ebDeviceClose_moves hu h
  | timeout =>
    obtain ⟨hu, h⟩ := Option.ite_none_right_eq_some.mp h
    cases h
    exact .timeout hu
  | check now =>
    obtain ⟨hu, h⟩ := Option.ite_none_right_eq_some.mp h
    cases h
    exact .check now hu
  | done =>
    simp only [step] at h
    split at h
    · rename_i stack hs
      cases h
      exact .done hs
    · simp at h
  | next alloc => exact .next alloc (turn_turns h)
  | writeBack widths addr value =>
    obtain ⟨hp, h⟩ := Option.ite_none_right_eq_some.mp h
    cases h
    exact .writeBack widths addr value hp
  | handler =>
    obtain ⟨hp, h⟩ := Option.ite_none_right_eq_some.mp h
    cases h
    exact .handler hp
  | breakLink =>
    simp only [step, breakLink] at h
    split at h
    · rename_i now d next stack hs
      obtain ⟨dev, hd, h⟩ := Option.bind_eq_some_iff.mp h
      split at h
      · simp at h
      · rename_i hactive
        cases h
        simp only [Bool.or_eq_true, Bool.not_eq_true', not_or, Bool.not_eq_true, Bool.not_eq_false] at hactive
        exact .breakLink hs hd hactive.1 hactive.2
    · simp at h

end Machine

end WhiteRabbit.Etherbone
