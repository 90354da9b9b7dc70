import WhiteRabbit.SocketAccess

/-!
# The error shift register

Only the marks of the accesses matter for the error register: bus accesses shift in a bit,
reads of the register look at it. An error that was shifted in is visible to a later look
as long as less than 64 further bits were shifted in.
-/

namespace WhiteRabbit.Etherbone

/-- What an access does with the error register. -/
inductive Mark where
  | shift (fail : Bool)
  | look
  | other
  deriving DecidableEq

namespace Mark

def apply (error : ℕ) : Mark → ℕ
  | .shift fail => shiftError error fail
  | .look | .other => error

def isShift : Mark → Bool
  | .shift _ => true
  | .look | .other => false

end Mark

/-- The register after some accesses. -/
def register (error : ℕ) (ms : List Mark) : ℕ := ms.foldl Mark.apply error

@[simp] theorem register_nil (error : ℕ) : register error [] = error := rfl

@[simp] theorem register_cons (error : ℕ) (m : Mark) (ms : List Mark) :
    register error (m :: ms) = register (m.apply error) ms := rfl

theorem register_append (error : ℕ) (ms ns : List Mark) :
    register error (ms ++ ns) = register (register error ms) ns := List.foldl_append

/-- The number of bits shifted in. -/
def shifts (ms : List Mark) : ℕ := ms.countP Mark.isShift

@[simp] theorem shifts_append (ms ns : List Mark) : shifts (ms ++ ns) = shifts ms + shifts ns :=
  List.countP_append

theorem shiftError_eq (error : ℕ) (fail : Bool) :
    shiftError error fail = (2 * error + fail.toNat) % 2 ^ 64 := by
  have h : error <<< 1 ||| fail.toNat = 2 * error + fail.toNat := by
    rw [Nat.shiftLeft_eq, Nat.mul_comm]
    cases fail with
    | false => simp
    | true => exact (Nat.two_pow_add_eq_or_of_lt (i := 1) (by decide) error).symm
  rw [shiftError, h]

/-- An older register value moves up and may fall out. -/
theorem register_mod (error : ℕ) (ms : List Mark) :
    register error ms % 2 ^ 64 = (error * 2 ^ shifts ms + register 0 ms) % 2 ^ 64 := by
  induction ms using List.reverseRecOn with
  | nil => simp [shifts]
  | append_singleton ms m ih =>
    rw [register_append, register_append, shifts_append]
    cases m with
    | shift fail =>
      have h1 : shifts [Mark.shift fail] = 1 := rfl
      simp only [register_cons, register_nil, Mark.apply, shiftError_eq, Nat.mod_mod, h1]
      have hl : (2 * register error ms + fail.toNat) % 2 ^ 64 =
          (2 * (error * 2 ^ shifts ms + register 0 ms) + fail.toNat) % 2 ^ 64 := by
        rw [Nat.add_mod, Nat.mul_mod, ih, ← Nat.mul_mod, ← Nat.add_mod]
      rw [hl, Nat.add_mod_mod]
      congr 1
      rw [pow_succ]
      ring
    | look => exact ih
    | other => exact ih

theorem register_lt (ms : List Mark) : register 0 ms < 2 ^ 64 := by
  induction ms using List.reverseRecOn with
  | nil => simp
  | append_singleton ms m ih =>
    rw [register_append]
    cases m with
    | shift fail =>
      rw [register_cons, register_nil, Mark.apply, shiftError_eq]
      exact Nat.mod_lt _ (by positivity)
    | look => exact ih
    | other => exact ih

/-- An error shifted in during `old` can still be seen after `new`. -/
def Visible (old new : List Mark) : Prop :=
  ∃ before after, old = before ++ .shift true :: after ∧ shifts after + shifts new < 64

theorem visible_append {old mid new : List Mark} :
    Visible (old ++ mid) new ↔ Visible old (mid ++ new) ∨ Visible mid new := by
  constructor
  · rintro ⟨before, after, h, hlt⟩
    rcases List.append_eq_append_iff.mp h with ⟨as, rfl, hmid⟩ | ⟨bs, rfl, hbs⟩
    · exact Or.inr ⟨as, after, hmid, hlt⟩
    · cases bs with
      | nil => exact Or.inr ⟨[], after, by simpa using hbs.symm, hlt⟩
      | cons b bs =>
        rw [List.cons_append, List.cons.injEq] at hbs
        obtain ⟨rfl, rfl⟩ := hbs
        refine Or.inl ⟨before, bs, rfl, ?_⟩
        rw [shifts_append] at hlt ⊢
        omega
  · rintro (⟨before, after, rfl, hlt⟩ | ⟨before, after, rfl, hlt⟩)
    · refine ⟨before, after ++ mid, by simp, ?_⟩
      rw [shifts_append] at hlt ⊢
      omega
    · exact ⟨old ++ before, after, by simp, hlt⟩

private theorem mul_two_pow_mod {r n : ℕ} (_ : r < 2 ^ 64) :
    (r * 2 ^ n) % 2 ^ 64 = 0 ↔ 64 ≤ n ∨ r % 2 ^ (64 - n) = 0 := by
  rcases Nat.lt_or_ge n 64 with h | h
  · have hp : 2 ^ 64 = 2 ^ (64 - n) * 2 ^ n := by rw [← pow_add]; congr 1; omega
    rw [hp, Nat.mul_mod_mul_right, Nat.mul_eq_zero]
    have : 2 ^ n ≠ 0 := by positivity
    omega
  · obtain ⟨k, rfl⟩ := Nat.exists_eq_add_of_le h
    rw [pow_add, Nat.mul_left_comm, Nat.mul_mod_right]
    simp

/-- The low bits of the register are the last errors. -/
theorem register_low (ms : List Mark) {k : ℕ} (hk : k ≤ 64) :
    register 0 ms % 2 ^ k = 0 ↔
      ∀ before after, ms = before ++ .shift true :: after → k ≤ shifts after := by
  induction ms using List.reverseRecOn generalizing k with
  | nil => simp
  | append_singleton ms m ih =>
    rw [register_append]
    have hlast : ∀ {before after : List Mark}, ms ++ [m] = before ++ .shift true :: after →
        (after = [] ∧ m = .shift true ∧ ms = before) ∨
          ∃ after', after = after' ++ [m] ∧ ms = before ++ .shift true :: after' := by
      intro before after h
      rcases List.eq_nil_or_concat after with rfl | ⟨after', x, rfl⟩
      · obtain ⟨h1, h2⟩ := List.append_inj' h rfl
        exact Or.inl ⟨rfl, by simpa using h2, h1⟩
      · rw [List.concat_eq_append, ← List.cons_append, ← List.append_assoc] at h
        obtain ⟨h1, h2⟩ := List.append_inj' h rfl
        refine Or.inr ⟨after', ?_, h1⟩
        rw [List.concat_eq_append, h2]
    have idle : m.isShift = false → (register 0 ms % 2 ^ k = 0 ↔
        ∀ before after, ms ++ [m] = before ++ .shift true :: after → k ≤ shifts after) := by
      intro hm
      rw [ih hk]
      constructor
      · intro h before after he
        rcases hlast he with ⟨-, h1, -⟩ | ⟨after', rfl, h1⟩
        · rw [h1] at hm
          simp [Mark.isShift] at hm
        · rw [shifts_append]
          exact (h before after' h1).trans (Nat.le_add_right _ _)
      · rintro h before after rfl
        have hle := h before (after ++ [m]) (by simp)
        have hone : shifts [m] = 0 := by simp [shifts, hm]
        rwa [shifts_append, hone] at hle
    cases m with
    | shift fail =>
      rw [register_cons, register_nil, Mark.apply, shiftError_eq,
        Nat.mod_mod_of_dvd _ (Nat.pow_dvd_pow 2 hk)]
      cases k with
      | zero => simp [Nat.mod_one]
      | succ k =>
        have hhalf : (2 * register 0 ms + fail.toNat) % 2 ^ (k + 1) = 0 ↔
            fail = false ∧ register 0 ms % 2 ^ k = 0 := by
          rw [pow_succ, Nat.mul_comm (2 ^ k)]
          cases fail with
          | true =>
            simp only [Bool.toNat_true, Bool.true_eq_false, false_and, iff_false]
            rw [Nat.mod_mul]
            omega
          | false => simp [Nat.mul_mod_mul_left]
        rw [hhalf, ih (by omega)]
        constructor
        · rintro ⟨rfl, h⟩ before after he
          rcases hlast he with ⟨-, h1, -⟩ | ⟨after', rfl, h1⟩
          · simp at h1
          · have := h before after' h1
            rw [shifts_append]
            exact Nat.succ_le_succ this
        · intro h
          constructor
          · cases fail with
            | false => rfl
            | true => exact absurd (h ms [] rfl) (by simp [shifts])
          · rintro before after rfl
            have := h before (after ++ [.shift fail]) (by simp)
            rw [shifts_append] at this
            exact Nat.le_of_succ_le_succ this
    | look => exact idle rfl
    | other => exact idle rfl

/-- Old errors change the register exactly when they are still visible. -/
theorem register_eq_iff (old new : List Mark) :
    register 0 (old ++ new) = register 0 new ↔ ¬ Visible old new := by
  have hmod := register_mod (register 0 old) new
  rw [← register_append, Nat.mod_eq_of_lt (register_lt _)] at hmod
  have hnew := register_lt new
  have hzero : register 0 (old ++ new) = register 0 new ↔
      register 0 old * 2 ^ shifts new % 2 ^ 64 = 0 := by
    rw [hmod]
    generalize register 0 old * 2 ^ shifts new = a
    constructor <;> intro h <;> omega
  rw [hzero, mul_two_pow_mod (register_lt old), register_low _ (Nat.sub_le _ _)]
  constructor
  · rintro h ⟨before, after, he, hlt⟩
    rcases h with h | h
    · omega
    · have := h before after he
      omega
  · intro h
    by_cases hn : 64 ≤ shifts new
    · exact Or.inl hn
    · refine Or.inr fun before after he => ?_
      by_contra hlt
      exact h ⟨before, after, he, by omega⟩

/-- What was done before each look at the register. -/
def looks : List Mark → List (List Mark)
  | [] => []
  | .look :: ms => [] :: (looks ms).map (Mark.look :: ·)
  | .shift fail :: ms => (looks ms).map (Mark.shift fail :: ·)
  | .other :: ms => (looks ms).map (Mark.other :: ·)

theorem mem_looks {ms before : List Mark} :
    before ∈ looks ms ↔ ∃ after, ms = before ++ .look :: after := by
  induction ms generalizing before with
  | nil => simp [looks]
  | cons m ms ih =>
    have htail : (∃ x ∈ looks ms, m :: x = before) ↔
        ∃ after, before ≠ [] ∧ m :: ms = before ++ .look :: after := by
      constructor
      · rintro ⟨x, hx, rfl⟩
        obtain ⟨after, rfl⟩ := ih.mp hx
        exact ⟨after, by simp, by simp⟩
      · rintro ⟨after, hne, he⟩
        obtain ⟨b, bs, rfl⟩ := List.exists_cons_of_ne_nil hne
        rw [List.cons_append, List.cons.injEq] at he
        obtain ⟨rfl, he⟩ := he
        exact ⟨bs, ih.mpr ⟨after, he⟩, rfl⟩
    have hhead : (∃ after, m :: ms = before ++ .look :: after) ↔
        (before = [] ∧ m = .look) ∨ ∃ after, before ≠ [] ∧ m :: ms = before ++ .look :: after := by
      cases before with
      | nil => simp
      | cons b bs => simp
    rw [hhead, ← htail]
    cases m <;> simp [looks, eq_comm]

theorem looks_append (ms ns : List Mark) :
    looks (ms ++ ns) = looks ms ++ (looks ns).map (ms ++ ·) := by
  induction ms with
  | nil => simp [looks]
  | cons m ms ih => cases m <;> simp [looks, ih, Function.comp_def]

section Accesses

variable {σ : Type} (g : Glue σ)

def sockAfter (s : σ) : Access → σ
  | .write widths addrB addrL value => (g.write s widths addrB addrL value).1
  | .read widths addrB addrL => (g.read s widths addrB addrL).1
  | .writeConfig widths addr value => g.writeConfig s widths addr value
  | .readConfig .. | .badWrite | .badRead | .badWriteConfig | .badReadConfig => s

def markOf (s : σ) : Access → Mark
  | .write widths addrB addrL value => .shift (g.write s widths addrB addrL value).2
  | .read widths addrB addrL => .shift (g.read s widths addrB addrL).2.2
  | .badWrite | .badRead => .shift true
  | .readConfig .. => .look
  | .writeConfig .. | .badWriteConfig | .badReadConfig => .other

def eventOf (error : ℕ) : Access → List Event
  | .write widths addrB addrL value => [.write widths addrB addrL value]
  | .read widths addrB addrL => [.read widths addrB addrL]
  | .writeConfig widths addr value => [.writeConfig widths addr value]
  | .readConfig widths addr => [.readConfig widths addr error]
  | .badWrite | .badRead | .badWriteConfig | .badReadConfig => []

theorem perform_eq (bus : Bus σ) (a : Access) : (perform g bus a).1 =
    ⟨sockAfter g bus.sock a, (markOf g bus.sock a).apply bus.error, bus.trace ++ eventOf bus.error a⟩ := by
  cases a <;> simp [perform, sockAfter, markOf, Mark.apply, eventOf]

def sockAll (s : σ) (as : List Access) : σ := as.foldl (sockAfter g) s

/-- The marks of some accesses, with what the handlers answer. -/
def marks : σ → List Access → List Mark
  | _, [] => []
  | s, a :: as => markOf g s a :: marks (sockAfter g s a) as

def events : σ → ℕ → List Access → List Event
  | _, _, [] => []
  | s, error, a :: as =>
    eventOf error a ++ events (sockAfter g s a) ((markOf g s a).apply error) as

@[simp] theorem sockAll_append (s : σ) (as bs : List Access) :
    sockAll g s (as ++ bs) = sockAll g (sockAll g s as) bs := List.foldl_append

theorem marks_append (s : σ) (as bs : List Access) :
    marks g s (as ++ bs) = marks g s as ++ marks g (sockAll g s as) bs := by
  induction as generalizing s with
  | nil => rfl
  | cons a as ih => simp [marks, ih, sockAll]

theorem performAll_eq (bus : Bus σ) (as : List Access) : (performAll g bus as).1 =
    ⟨sockAll g bus.sock as, register bus.error (marks g bus.sock as),
      bus.trace ++ events g bus.sock bus.error as⟩ := by
  induction as generalizing bus with
  | nil => simp [sockAll, marks, events]
  | cons a as ih => simp [performAll_cons, ih, perform_eq, sockAll, marks, events]

theorem length_events (s : σ) (error error' : ℕ) (as : List Access) :
    (events g s error as).length = (events g s error' as).length := by
  induction as generalizing s error error' with
  | nil => rfl
  | cons a as ih =>
    have ha : (eventOf error a).length = (eventOf error' a).length := by cases a <;> rfl
    rw [events, events, List.length_append, List.length_append, ha, ih]

/-- Two registers show in the calls only where the register is read. -/
theorem events_eq_iff (s : σ) (error error' : ℕ) (as : List Access) :
    events g s error as = events g s error' as ↔
      ∀ before ∈ looks (marks g s as), register error before = register error' before := by
  induction as generalizing s error error' with
  | nil => simp [events, marks, looks]
  | cons a as ih =>
    have ha : (eventOf error a).length = (eventOf error' a).length := by cases a <;> rfl
    have hsplit : events g s error (a :: as) = events g s error' (a :: as) ↔
        eventOf error a = eventOf error' a ∧
          events g (sockAfter g s a) ((markOf g s a).apply error) as =
            events g (sockAfter g s a) ((markOf g s a).apply error') as :=
      ⟨fun h => List.append_inj h ha, fun h => by rw [events, events, h.1, h.2]⟩
    rw [hsplit, ih, marks]
    cases hm : markOf g s a with
    | look =>
      have hev : eventOf error a = eventOf error' a ↔ error = error' := by
        cases a with
        | readConfig widths addr => simp [eventOf]
        | _ => simp [markOf] at hm
      rw [hev]
      simp [looks, Mark.apply]
    | shift fail =>
      have hev : eventOf error a = eventOf error' a := by
        cases a <;> simp [markOf] at hm <;> simp [eventOf]
      simp [looks, hev]
    | other =>
      have hev : eventOf error a = eventOf error' a := by
        cases a <;> simp [markOf] at hm <;> simp [eventOf]
      simp [looks, hev]

/-- The values read depend on the register only where it is read. -/
theorem values_eq {bus bus' : Bus σ} (hs : bus.sock = bus'.sock) (as : List Access)
    (h : ∀ before ∈ looks (marks g bus.sock as), register bus.error before = register bus'.error before) :
    (performAll g bus as).2 = (performAll g bus' as).2 := by
  induction as generalizing bus bus' with
  | nil => rfl
  | cons a as ih =>
    rw [performAll_cons, performAll_cons]
    have hsock : (perform g bus a).1.sock = (perform g bus' a).1.sock := by
      rw [perform_eq, perform_eq, hs]
    have hvalue : (perform g bus a).2 = (perform g bus' a).2 := by
      cases a with
      | readConfig widths addr =>
        have he := h [] (by simp [marks, markOf, looks])
        simp only [register_nil] at he
        simp [perform, he]
      | write widths addrB addrL value => rfl
      | read widths addrB addrL => simp [perform, hs]
      | writeConfig widths addr value => rfl
      | badWrite => rfl
      | badRead => rfl
      | badWriteConfig => rfl
      | badReadConfig => rfl
    have hrest := ih hsock (by
      intro before hb
      rw [perform_eq] at hb ⊢
      rw [perform_eq, ← hs]
      have := h (markOf g bus.sock a :: before) (by
        rw [marks]
        cases hm : markOf g bus.sock a <;> simp [looks] <;> exact hb)
      simpa using this)
    rw [hvalue, hrest]

end Accesses

end WhiteRabbit.Etherbone
