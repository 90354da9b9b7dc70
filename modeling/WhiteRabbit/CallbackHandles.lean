import WhiteRabbit.CycleAccounts

/-!
# The operation handles that callbacks get

A callback gets its device, a status and the handle of an operation, from which user code walks the
operations of the cycle. The first operation and the mark of a cycle that ran out of memory share a
word: a marked cycle has its own index there.
-/

namespace WhiteRabbit.Etherbone
open StepRuns

/-- What an operation handle can name: nothing, an operation of the cycle, or the cycle itself. -/
inductive Handle where
  | null
  | operation (position : ℕ)
  | cycle
  deriving DecidableEq

/-- `cycle->un_ops.first`. -/
def Queued.unOps (q : Queued) : Handle :=
  if q.dead then .cycle else if q.ops.isEmpty then .null else .operation 0

/-- `operationp` after some operations. -/
def operationp (ops : List Operation) (i : ℕ) : Handle := if i < ops.length then .operation i else .null

/-- A callback: its cycle, with what the cycle holds, and the operation handle. -/
structure Handed where
  cycle : ℕ
  content : Queued
  handle : Handle

/-- A response ends. Only cycles with operations get a response. -/
def Flight.handed (f : Flight) : Handed where
  cycle := f.cycle
  content := { ops := f.response.ops }
  handle := Queued.unOps { ops := f.response.ops }

/-- `eb_device_close` kills a cycle. -/
def Waiting.killed (c : Waiting) : Handed := ⟨c.cycle, c.content, c.content.unOps⟩

/-- `eb_device_flush` decides on a cycle; without an operation to report the handle is null. -/
def Waiting.flushed (c : Waiting) : CycleFate → Option Handed
  | .callback _ operation => some ⟨c.cycle, c.content, operation.elim .null (operationp c.content.ops)⟩
  | .response _ => none

namespace Machine

/-- The callback that a step runs. -/
def handed (m : Machine) : SocketAct → Option Handed
  | .next alloc =>
    match m.stack with
    | .check now .expire :: _ => (m.expiring now).map fun r => r.1.handed
    | .flush _ p mtu (c :: _) buffer :: _ =>
      c.flushed ({ buffer with rba := m.rba }.flushCycle p mtu { c.content with alloc := alloc }).2
    | .kill (f :: _) :: _ => some f.handed
    | .close _ (c :: _) :: _ => some c.killed
    | _ => none
  | .writeBack widths addr value =>
    let other (f : Flight) : Bool := f.response.address != addr &&& 0xFFFE
    let m := if m.first.all other then m.refill else m
    match m.first.dropWhile other with
    | [] => none
    | f :: _ =>
      let (r, done) := f.response.writeBack widths addr value
      done.map fun _ => Flight.handed { f with response := r }
  | _ => none

/-- The handle is null or names an operation of the cycle, which has not been called back before. -/
def Honest (m : Machine) (x : Handed) : Prop :=
  x.handle = .null ∨
    ∃ i < x.content.ops.length, x.handle = .operation i ∧ x.content.dead = false ∧ m.calls x.cycle = 0

/-- `eb_device_close` does not come to a cycle that ran out of memory. -/
def Filled (m : Machine) : SocketAct → Prop
  | .next _ =>
    match m.stack with
    | .close _ (c :: _) :: _ => c.content.dead = false
    | _ => True
  | _ => True

section Calls

variable {m m' : Machine} {a : SocketAct}

theorem calls_call (c n : ℕ) (status : Status) :
    (m.call c status).calls n = m.calls n + if c = n then 1 else 0 := by
  simp only [calls, call, List.countP_append, List.countP_singleton, beq_iff_eq]

/-- How often a step calls a cycle back. -/
def Calls (m : Machine) (x : Option Handed) (m' : Machine) : Prop :=
  ∀ c, m'.calls c = m.calls c + if x.map Handed.cycle = some c then 1 else 0

theorem calls_same (hlog : m'.log = m.log) : m.Calls none m' := by
  intro c
  rw [calls, calls, hlog]
  rfl

theorem calls_handed (x : Handed) (status : Status) (hcalls : ∀ c, m'.calls c = m.calls c) :
    m.Calls (some x) (m'.call x.cycle status) := by
  intro c
  rw [calls_call, hcalls]
  simp

theorem calls_log {e : SocketEvent} {first : List Flight} (he : ∀ n status, e ≠ .called n status) (c : ℕ) :
    Machine.calls { m with first := first, log := m.log ++ [e] } c = m.calls c := by
  rw [calls, calls, List.countP_append, List.countP_singleton]
  cases e with
  | called n status => exact absurd rfl (he n status)
  | _ => rfl

/-- A turn runs the callback that it is said to run. -/
theorem turn_calls {alloc : Bool} (h : m.turn alloc = some m') : m.Calls (m.handed (.next alloc)) m' := by
  rw [turn] at h
  rw [handed]
  cases hs : m.stack with
  | nil => simp [hs] at h
  | cons frame stack =>
    rw [hs] at h
    cases frame with
    | callback => simp at h
    | check now phase =>
      cases phase with
      | expire =>
        simp only [checkTurn] at h
        cases he : m.expiring now with
        | none =>
          rw [he] at h
          cases h
          simp only [he]
          exact calls_same rfl
        | some r =>
          obtain ⟨f, rest⟩ := r
          rw [he] at h
          cases h
          simp only [he]
          exact calls_handed f.handed .timeout (calls_log (by simp))
      | poll =>
        cases h
        exact calls_same rfl
      | devices cursor =>
        cases cursor with
        | none =>
          cases h
          exact calls_same rfl
        | some d =>
          obtain ⟨dev, -, rfl⟩ := Option.map_eq_some_iff.mp h
          exact calls_same rfl
      | slave d next =>
        obtain ⟨dev, -, h⟩ := Option.bind_eq_some_iff.mp h
        dsimp only at h
        split at h
        · cases h
          exact calls_same rfl
        · split at h
          · cases h
          · cases h
            exact calls_same rfl
    | flush d p mtu todo buffer =>
      cases h
      cases todo with
      | nil => exact calls_same rfl
      | cons c todo =>
        simp only [flushTurn, Waiting.flushed]
        generalize { buffer with rba := m.rba }.flushCycle p mtu { c.content with alloc := alloc } = res
        obtain ⟨buffer', fate⟩ := res
        cases fate with
        | callback status operation =>
          exact calls_handed ⟨c.cycle, c.content,
            operation.elim .null (operationp c.content.ops)⟩ status fun _ => rfl
        | response address => exact calls_same rfl
    | kill bads =>
      cases h
      cases bads with
      | nil => exact calls_same rfl
      | cons f bads => exact calls_handed f.handed .timeout fun _ => rfl
    | close d todo =>
      cases todo with
      | nil =>
        obtain ⟨dev, -, rfl⟩ := Option.map_eq_some_iff.mp h
        exact calls_same rfl
      | cons c todo =>
        cases h
        exact calls_handed c.killed .timeout fun _ => rfl

theorem writeBack_calls (widths addr value : ℕ) :
    m.Calls (m.handed (.writeBack widths addr value)) (m.ebSocketWriteConfig widths addr value) := by
  simp only [handed, ebSocketWriteConfig]
  obtain ⟨m₁, hm₁, hlog⟩ : ∃ m₁,
    (if m.first.all (fun f => f.response.address != addr &&& 0xFFFE) then m.refill else m) = m₁ ∧
      m₁.log = m.log := by
    refine ⟨_, rfl, ?_⟩
    split
    · rfl
    · rfl
  have hcalls : ∀ c, m₁.calls c = m.calls c := fun c => by rw [calls, calls, hlog]
  simp only [hm₁]
  cases m₁.first.dropWhile fun f => f.response.address != addr &&& 0xFFFE with
  | nil => exact calls_same hlog
  | cons f rest =>
    cases hdone : (f.response.writeBack widths addr value).2 with
    | none =>
      simp only [hdone]
      exact calls_same hlog
    | some status =>
      simp only [hdone]
      exact calls_handed (Flight.handed { f with response := (f.response.writeBack widths addr value).1 }) status hcalls

/-- Only turns and write-backs run callbacks. -/
theorem moves_calls (hm : Moves m a m') (hturn : ∀ alloc, a ≠ .next alloc)
    (hwrite : ∀ widths addr value, a ≠ .writeBack widths addr value) : m.Calls none m' := by
  cases hm with
  | next alloc => exact absurd rfl (hturn alloc)
  | writeBack widths addr value => exact absurd rfl (hwrite widths addr value)
  | abort | closeCycle => exact fun c => calls_log (by simp) c
  | timeout =>
    obtain ⟨first, last, -, hres⟩ := m.ebSocketTimeout_spec
    rw [hres]
    exact calls_same rfl
  | _ => exact calls_same rfl

/-- Every step runs the callback that it is said to run. -/
theorem step_calls (hs : m.step a = some m') : m.Calls (m.handed a) m' := by
  have hmoves := step_moves hs
  cases a with
  | next alloc => exact turn_calls hs
  | writeBack widths addr value =>
    rw [step] at hs
    split at hs
    · cases hs
      exact writeBack_calls widths addr value
    · cases hs
  | _ => exact moves_calls hmoves (by simp) (by simp)

/-- A cycle is found at most as often as it was closed. -/
theorem Distinct.found_le (h : m.Distinct) (hle : ∀ c, m.found c ≤ m.closings c)
    (hs : m.step a = some m') (c : ℕ) :
    m'.found c ≤ m'.closings c := by
  have hfound := h.found_moves (step_moves hs) c
  have hold := hle c
  omega

/-- A cycle that is called back has not been called back before. -/
theorem Distinct.calls_eq_zero (h : m.Distinct) (hle : ∀ c, m.found c ≤ m.closings c) (hs : m.step a = some m')
    {x : Handed} (hx : m.handed a = some x) : m.calls x.cycle = 0 := by
  have hcalls := step_calls hs x.cycle
  have hfound := h.found_le hle hs x.cycle
  have honce := (h.step hs).once x.cycle
  rw [hx, Option.map_some, if_pos rfl] at hcalls
  rw [found] at hfound
  rw [handled] at honce
  omega

theorem honest_unOps {x : Handed} (hhandle : x.handle = x.content.unOps) (hcalls : m.calls x.cycle = 0) :
    m.Honest x ↔ x.content.dead = false := by
  rw [Honest, hhandle, Queued.unOps]
  cases hdead : x.content.dead with
  | true => simp
  | false =>
    cases hops : x.content.ops with
    | nil => simp
    | cons op ops => simp [hcalls]

/-- The operation that a flush reports belongs to a cycle that did not run out of memory. -/
theorem honest_flushed {c : Waiting} {p : Port} {mtu : ℕ} {buffer : FlushState} {alloc : Bool} {x : Handed}
    (hx : c.flushed (buffer.flushCycle p mtu { c.content with alloc := alloc }).2 = some x)
    (hcalls : m.calls x.cycle = 0) : m.Honest x := by
  cases hdead : c.content.dead with
  | true =>
    rw [FlushState.flushCycle, if_pos hdead] at hx
    cases hx
    exact .inl rfl
  | false =>
    cases hfate : (buffer.flushCycle p mtu { c.content with alloc := alloc }).2 with
    | response address =>
      rw [hfate] at hx
      cases hx
    | callback status operation =>
      rw [hfate] at hx
      cases hx
      cases operation with
      | none => exact .inl rfl
      | some i =>
        by_cases hi : i < c.content.ops.length
        · exact .inr ⟨i, hi, if_pos hi, hdead, hcalls⟩
        · exact .inl (if_neg hi)

/-- Exactly where `eb_device_close` comes to a marked cycle a callback gets a wrong handle. -/
theorem honest_iff_filled (hcalls : ∀ x, m.handed a = some x → m.calls x.cycle = 0) :
    (∀ x, m.handed a = some x → m.Honest x) ↔ m.Filled a := by
  have hlive : ∀ x, m.handed a = some x → x.handle = x.content.unOps → x.content.dead = false → m.Honest x :=
    fun x hx hhandle hdead => (honest_unOps hhandle (hcalls x hx)).mpr hdead
  cases a with
  | next alloc =>
    rw [Filled]
    cases hs : m.stack with
    | nil => simp [handed, hs]
    | cons frame stack =>
      cases frame with
      | callback => simp [handed, hs]
      | check now phase =>
        refine ⟨fun _ => trivial, fun _ x hx => ?_⟩
        cases phase with
        | expire =>
          have hexp := hx
          simp only [handed, hs] at hexp
          obtain ⟨r, -, rfl⟩ := Option.map_eq_some_iff.mp hexp
          exact hlive _ hx rfl rfl
        | _ => simp [handed, hs] at hx
      | flush d p mtu todo buffer =>
        refine ⟨fun _ => trivial, fun _ x hx => ?_⟩
        have hnone := hcalls x hx
        cases todo with
        | nil => simp [handed, hs] at hx
        | cons c todo =>
          simp only [handed, hs] at hx
          exact honest_flushed hx hnone
      | kill bads =>
        refine ⟨fun _ => trivial, fun _ x hx => ?_⟩
        cases bads with
        | nil => simp [handed, hs] at hx
        | cons f bads =>
          apply hlive x hx
          · simp only [handed, hs] at hx
            cases hx
            rfl
          · simp only [handed, hs] at hx
            cases hx
            rfl
      | close d todo =>
        cases todo with
        | nil => simp [handed, hs]
        | cons c todo =>
          have hx : m.handed (.next alloc) = some c.killed := by simp only [handed, hs]
          have hiff := honest_unOps (x := c.killed) rfl (hcalls _ hx)
          constructor
          · intro h
            exact hiff.mp (h _ hx)
          · intro hdead x hx'
            cases hx.symm.trans hx'
            exact hiff.mpr hdead
  | writeBack widths addr value =>
    refine ⟨fun _ => trivial, fun _ x hx => ?_⟩
    have hwrite := hx
    simp only [handed] at hwrite
    split at hwrite
    · cases hwrite
    · obtain ⟨status, -, rfl⟩ := Option.map_eq_some_iff.mp hwrite
      exact hlive _ hx rfl rfl
  | _ => simp [handed, Filled]

theorem filled_of_none (h : m.step a = none) : m.Filled a := by
  cases a with
  | next alloc =>
    rw [Filled]
    cases hs : m.stack with
    | nil => trivial
    | cons frame stack =>
      cases frame with
      | close d todo =>
        cases todo with
        | nil => trivial
        | cons c todo => simp [step, turn, closeTurn, hs] at h
      | _ => trivial
  | _ => trivial

end Calls

/-- What a run keeps for the callbacks: handles are distinct and no cycle is found more often than it was closed. -/
structure Sane (m : Machine) : Prop where
  distinct : m.Distinct
  closed (c : ℕ) : m.found c ≤ m.closings c

theorem start_sane : Sane {} := ⟨start_distinct, fun _ => le_rfl⟩

theorem Sane.step {m m' : Machine} {a : SocketAct} (h : m.Sane) (hs : m.step a = some m') : m'.Sane :=
  ⟨h.distinct.step hs, h.distinct.found_le h.closed hs⟩

/-- In a run every callback gets an honest handle exactly when `eb_device_close` never comes to a cycle that
ran out of memory. -/
theorem handles_honest_iff (acts : List SocketAct) :
    (∀ pre a m m', pre ++ [a] <+: acts → run step {} pre = some m → m.step a = some m' →
      ∀ x, m.handed a = some x → m.Honest x) ↔
    Obeys step Filled {} acts := by
  have hiff : ∀ pre a m m', run step {} pre = some m → m.step a = some m' →
      ((∀ x, m.handed a = some x → m.Honest x) ↔ m.Filled a) := by
    intro pre a m m' hrun hs
    have hsane : m.Sane := run_keeps Sane.step start_sane hrun
    exact honest_iff_filled fun x hx => hsane.distinct.calls_eq_zero hsane.closed hs hx
  rw [obeys_iff]
  constructor
  · intro h pre a m hpre hrun
    cases hs : m.step a with
    | none => exact filled_of_none hs
    | some m' => exact (hiff pre a m m' hrun hs).mp (h pre a m m' hpre hrun hs)
  · intro h pre a m m' hpre hrun hs
    exact (hiff pre a m m' hrun hs).mpr (h pre a m hpre hrun)

end Machine

namespace Sample
open Machine

/-- A cycle that runs out of memory is closed, and then its device is; no response has to be killed. -/
def closeDead : List SocketAct :=
  [.openDevice narrowPort 0, .openCycle 0, .operate 1 none, .closeCycle 1 false, .closeDevice 0, .next true]

/-- The callback of the cycle gets the cycle itself as its operation. -/
theorem closeDead_dishonest : ¬ ∀ acts pre a m m', pre ++ [a] <+: acts → run step {} pre = some m →
    m.step a = some m' →
    ∀ x, m.handed a = some x → m.Honest x := by
  intro h
  have hhonest := h (closeDead ++ [.next true]) closeDead (.next true) _ _ (List.prefix_refl _) rfl rfl _ rfl
  rcases hhonest with hnull | ⟨i, -, hop, -⟩
  · cases hnull
  · cases hop

end Sample

end WhiteRabbit.Etherbone
