import Mathlib.Data.List.Basic

/-!
# Runs of a partial step function

A step function takes a state and an action; where an action is not defined it gives
nothing. An invariant is shown for one step and holds along every run. Often a step keeps
it only under a condition: then it holds along the runs that obey the condition.
-/

namespace WhiteRabbit.StepRuns

variable {S A : Type*} (step : S → A → Option S)

def run : S → List A → Option S
  | s, [] => some s
  | s, a :: as => (step s a).bind fun t => run t as

@[simp] theorem run_nil (s : S) : run step s [] = some s := rfl

theorem run_cons (s : S) (a : A) (as : List A) :
    run step s (a :: as) = (step s a).bind fun t => run step t as := rfl

theorem run_append (s : S) (as bs : List A) :
    run step s (as ++ bs) = (run step s as).bind fun t => run step t bs := by
  induction as generalizing s with
  | nil => rfl
  | cons a as ih =>
    rw [List.cons_append, run_cons, run_cons]
    cases step s a with
    | none => rfl
    | some t => exact ih t

/-- Every action of a run meets a condition in the state where it is taken. -/
def Obeys (C : S → A → Prop) : S → List A → Prop
  | _, [] => True
  | s, a :: as => C s a ∧ ∀ t, step s a = some t → Obeys C t as

variable {step}

instance Obeys.decidable {C : S → A → Prop} [∀ s a, Decidable (C s a)] :
    ∀ s as, Decidable (Obeys step C s as)
  | _, [] => isTrue trivial
  | s, a :: as =>
    match h : step s a with
    | none => decidable_of_iff (C s a) ⟨fun ha => ⟨ha, fun t ht => by simp [h] at ht⟩, And.left⟩
    | some t =>
      have := Obeys.decidable (C := C) t as
      decidable_of_iff (C s a ∧ Obeys step C t as)
        (and_congr_right fun _ => ⟨fun ht u hu => by rw [h] at hu; cases hu; exact ht, fun hu => hu t h⟩)

theorem Obeys.append {C : S → A → Prop} {s t : S} {as bs : List A} (h : Obeys step C s (as ++ bs))
    (hrun : run step s as = some t) : Obeys step C s as ∧ Obeys step C t bs := by
  induction as generalizing s with
  | nil =>
    cases hrun
    exact ⟨trivial, h⟩
  | cons a as ih =>
    rw [run_cons] at hrun
    cases hs : step s a with
    | none => simp [hs] at hrun
    | some u =>
      simp only [hs, Option.bind_some] at hrun
      obtain ⟨ha, hrest⟩ := h
      obtain ⟨has, hbs⟩ := ih (hrest u hs) hrun
      exact ⟨⟨ha, fun v hv => by rw [hs] at hv; cases hv; exact has⟩, hbs⟩

/-- A condition on the actions themselves is met wherever they are taken. -/
theorem Obeys.and_forall {C : S → A → Prop} {D : A → Prop} {s : S} {as : List A} (h : Obeys step C s as)
    (hD : ∀ a ∈ as, D a) : Obeys step (fun s a => C s a ∧ D a) s as := by
  induction as generalizing s with
  | nil => trivial
  | cons a as ih =>
    obtain ⟨ha, has⟩ := List.forall_mem_cons.mp hD
    exact ⟨⟨h.1, ha⟩, fun t ht => ih (h.2 t ht) has⟩

/-- A condition of a run holds wherever the run goes on. -/
theorem Obeys.before {C : S → A → Prop} {s t : S} {part as : List A} (h : Obeys step C s as)
    (hpart : part <+: as) (hne : part ≠ as) (hrun : run step s part = some t) : ∃ a, C t a := by
  obtain ⟨rest, rfl⟩ := hpart
  cases rest with
  | nil => exact absurd (List.append_nil part).symm hne
  | cons a rest => exact ⟨a, (h.append hrun).2.1⟩

/-- A run obeys a condition when each action meets it where it is taken. -/
theorem obeys_iff {C : S → A → Prop} {s : S} {as : List A} :
    Obeys step C s as ↔ ∀ pre a t, pre ++ [a] <+: as → run step s pre = some t → C t a := by
  constructor
  · intro h pre a t hpre hrun
    obtain ⟨post, rfl⟩ := hpre
    rw [List.append_assoc] at h
    exact (h.append hrun).2.1
  · induction as generalizing s with
    | nil => exact fun _ => trivial
    | cons b as ih =>
      intro h
      refine ⟨h [] b s (by simp) rfl, fun t ht => ih fun pre a u hpre hrun => ?_⟩
      apply h (b :: pre) a u (List.cons_prefix_cons.mpr ⟨rfl, hpre⟩)
      rw [run_cons, ht]
      exact hrun

/-- What a conditional step keeps, an obedient run keeps. -/
theorem run_invariant {C : S → A → Prop} {I : S → Prop}
    (hstep : ∀ {s a t}, I s → C s a → step s a = some t → I t) {s t : S} {as : List A} (hs : I s)
    (hobeys : Obeys step C s as) (hrun : run step s as = some t) : I t := by
  induction as generalizing s with
  | nil =>
    cases hrun
    exact hs
  | cons a as ih =>
    rw [run_cons] at hrun
    cases hu : step s a with
    | none => simp [hu] at hrun
    | some u =>
      simp only [hu, Option.bind_some] at hrun
      exact ih (hstep hs hobeys.1 hu) (hobeys.2 u hu) hrun

/-- Where every step takes something off a count, a run is no longer than what it takes off. -/
theorem run_measure {C : S → A → Prop} {I : S → Prop} {μ : S → ℕ}
    (hstep : ∀ {s a t}, I s → C s a → step s a = some t → I t ∧ μ t < μ s) {s t : S} {as : List A}
    (hs : I s) (hobeys : Obeys step C s as) (hrun : run step s as = some t) : as.length + μ t ≤ μ s := by
  induction as generalizing s with
  | nil =>
    cases hrun
    simp
  | cons a as ih =>
    rw [run_cons] at hrun
    obtain ⟨u, hu, hrun⟩ := Option.bind_eq_some_iff.mp hrun
    obtain ⟨hI, hless⟩ := hstep hs hobeys.1 hu
    have hrest := ih hI (hobeys.2 u hu) hrun
    rw [List.length_cons]
    omega

theorem obeys_true (s : S) (as : List A) : Obeys step (fun _ _ => True) s as := by
  induction as generalizing s with
  | nil => trivial
  | cons a as ih => exact ⟨trivial, fun t _ => ih t⟩

/-- What every step keeps, every run keeps. -/
theorem run_keeps {I : S → Prop} (hstep : ∀ {s a t}, I s → step s a = some t → I t) {s t : S}
    {as : List A} (hs : I s) (hrun : run step s as = some t) : I t :=
  run_invariant (C := fun _ _ => True) (fun hI _ h => hstep hI h) hs (obeys_true s as) hrun

/-- Where a step keeps a property exactly when it meets a condition, the property holds all
along a run exactly when the run obeys the condition. -/
theorem holds_iff_obeys {C : S → A → Prop} {I P : S → Prop}
    (hstep : ∀ {s a t}, I s → P s → step s a = some t → I t ∧ (P t ↔ C s a))
    (hnone : ∀ {s a}, step s a = none → C s a) {s : S} (hI : I s) (hP : P s) (as : List A) :
    (∀ pre t, pre <+: as → run step s pre = some t → P t) ↔ Obeys step C s as := by
  induction as generalizing s with
  | nil =>
    refine ⟨fun _ => trivial, fun _ pre t hpre hrun => ?_⟩
    rw [List.prefix_nil.mp hpre] at hrun
    cases hrun
    exact hP
  | cons a as ih =>
    constructor
    · intro h
      refine ⟨?_, fun t ht => ?_⟩
      · cases hs : step s a with
        | none => exact hnone hs
        | some t =>
          have hPt : P t := h [a] t (by simp) (by rw [run_cons, hs]; rfl)
          exact (hstep hI hP hs).2.mp hPt
      · obtain ⟨hIt, -⟩ := hstep hI hP ht
        have hPt : P t := h [a] t (by simp) (by rw [run_cons, ht]; rfl)
        apply (ih hIt hPt).mp
        intro pre u hpre hrun
        apply h (a :: pre) u (List.cons_prefix_cons.mpr ⟨rfl, hpre⟩)
        rw [run_cons, ht]
        exact hrun
    · intro h pre t hpre hrun
      cases pre with
      | nil =>
        cases hrun
        exact hP
      | cons b pre =>
        obtain ⟨rfl, hprefix⟩ := List.cons_prefix_cons.mp hpre
        rw [run_cons] at hrun
        obtain ⟨u, hu, hrun⟩ := Option.bind_eq_some_iff.mp hrun
        obtain ⟨hIu, hiff⟩ := hstep hI hP hu
        exact (ih hIu (hiff.mpr h.1)).mpr (h.2 u hu) pre t hprefix hrun

/-- Where a step is right exactly when it meets a condition, and leads to a state from where that is so
again, all steps of a run are right exactly when the run obeys the condition. -/
theorem steps_iff_obeys {C : S → A → Prop} {I : S → Prop} {R : S → A → S → Prop}
    (hstep : ∀ {s a t}, I s → step s a = some t → (R s a t ↔ C s a) ∧ (R s a t → I t))
    (hnone : ∀ {s a}, step s a = none → C s a) {s : S} (hI : I s) (as : List A) :
    (∀ pre a t u, pre ++ [a] <+: as → run step s pre = some t → step t a = some u → R t a u) ↔
      Obeys step C s as := by
  induction as generalizing s with
  | nil => exact ⟨fun _ => trivial, fun _ pre a t u hpre => by simp at hpre⟩
  | cons b as ih =>
    constructor
    · intro h
      have hfirst : ∀ t, step s b = some t → R s b t := fun t => h [] b s t (by simp) rfl
      refine ⟨?_, fun t ht => ?_⟩
      · cases hs : step s b with
        | none => exact hnone hs
        | some t => exact (hstep hI hs).1.mp (hfirst t hs)
      · apply (ih ((hstep hI ht).2 (hfirst t ht))).mp
        intro pre a u v hpre hrun
        apply h (b :: pre) a u v (List.cons_prefix_cons.mpr ⟨rfl, hpre⟩)
        rw [run_cons, ht]
        exact hrun
    · intro h pre a t u hpre hrun hu
      cases pre with
      | nil =>
        cases hrun
        obtain rfl : a = b := by simpa using hpre
        exact (hstep hI hu).1.mpr h.1
      | cons c pre =>
        obtain ⟨rfl, hprefix⟩ := List.cons_prefix_cons.mp hpre
        rw [run_cons] at hrun
        obtain ⟨v, hv, hrun⟩ := Option.bind_eq_some_iff.mp hrun
        obtain ⟨hiff, hkeep⟩ := hstep hI hv
        exact (ih (hkeep (hiff.mpr h.1))).mpr (h.2 v hv) pre a t u hprefix hrun hu

/-- Two properties that hold at the start, and after each step from where both hold together or not at all, hold
all along the same runs. -/
theorem holds_together {I P Q : S → Prop}
    (hstep : ∀ {s a t}, I s → P s → Q s → step s a = some t → I t ∧ (P t ↔ Q t)) {s : S} (hI : I s) (hP : P s)
    (hQ : Q s) (as : List A) :
    (∀ pre t, pre <+: as → run step s pre = some t → P t) ↔
    (∀ pre t, pre <+: as → run step s pre = some t → Q t) := by
  induction as generalizing s with
  | nil =>
    constructor
    · intro _ pre t hpre hrun
      rw [List.prefix_nil.mp hpre] at hrun
      cases hrun
      exact hQ
    · intro _ pre t hpre hrun
      rw [List.prefix_nil.mp hpre] at hrun
      cases hrun
      exact hP
  | cons a as ih =>
    have hrest : ∀ {R : S → Prop} {u : S}, step s a = some u →
        (∀ pre t, pre <+: a :: as → run step s pre = some t → R t) → ∀ pre t, pre <+: as →
          run step u pre = some t → R t := by
      intro R u hu h pre t hpre hrun
      apply h (a :: pre) t (List.cons_prefix_cons.mpr ⟨rfl, hpre⟩)
      rw [run_cons, hu]
      exact hrun
    have hfirst : ∀ {R : S → Prop} {u : S}, step s a = some u →
        (∀ pre t, pre <+: a :: as → run step s pre = some t → R t) → R u := by
      intro R u hu h
      exact hrest hu h [] u List.nil_prefix rfl
    constructor
    · intro h pre t hpre hrun
      cases pre with
      | nil =>
        cases hrun
        exact hQ
      | cons b pre =>
        obtain ⟨rfl, hprefix⟩ := List.cons_prefix_cons.mp hpre
        rw [run_cons] at hrun
        obtain ⟨u, hu, hrun⟩ := Option.bind_eq_some_iff.mp hrun
        obtain ⟨hIu, hiff⟩ := hstep hI hP hQ hu
        have hPu := hfirst hu h
        exact (ih hIu hPu (hiff.mp hPu)).mp (hrest hu h) pre t hprefix hrun
    · intro h pre t hpre hrun
      cases pre with
      | nil =>
        cases hrun
        exact hP
      | cons b pre =>
        obtain ⟨rfl, hprefix⟩ := List.cons_prefix_cons.mp hpre
        rw [run_cons] at hrun
        obtain ⟨u, hu, hrun⟩ := Option.bind_eq_some_iff.mp hrun
        obtain ⟨hIu, hiff⟩ := hstep hI hP hQ hu
        have hQu := hfirst hu h
        exact (ih hIu (hiff.mpr hQu) hQu).mpr (hrest hu h) pre t hprefix hrun

end WhiteRabbit.StepRuns
