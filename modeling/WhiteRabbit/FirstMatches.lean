import Mathlib.Data.List.Basic

/-!
# First matches

Two searches of one list, each for the first element that matches a key. When do they find the same element
for all keys?
-/

namespace WhiteRabbit.FirstMatches

variable {α κ : Type*} (xs : List α)

/-- The keys are searched for under another name: then all elements have to keep theirs. -/
theorem find_renamed_iff [DecidableEq κ] (key : α → κ) (rename : κ → κ) :
    (∀ q, xs.find? (fun x => decide (rename (key x) = q)) = xs.find? fun x => decide (key x = q)) ↔
      ∀ x ∈ xs, rename (key x) = key x := by
  constructor
  · intro h x hx
    by_contra hne
    have hsome : (xs.find? fun x => decide (rename (key x) ≠ key x)).isSome := by
      rw [List.find?_isSome]
      exact ⟨x, hx, by simpa using hne⟩
    -- the first element that does not keep its key is the first one with this key
    obtain ⟨y, hy⟩ := Option.isSome_iff_exists.mp hsome
    obtain ⟨hyne, pre, post, hxs, hpre⟩ := List.find?_eq_some_iff_append.mp hy
    have hfirst : xs.find? (fun x => decide (key x = key y)) = some y := by
      refine List.find?_eq_some_iff_append.mpr ⟨by simp, pre, post, hxs, fun z hz => ?_⟩
      have hkeeps : rename (key z) = key z := by simpa using hpre z hz
      simp only [decide_eq_false_iff_not, Bool.not_eq_true']
      intro hzy
      rw [hzy] at hkeeps
      exact absurd hkeeps (by simpa using hyne)
    rw [← h] at hfirst
    exact absurd (by simpa using List.find?_some hfirst) (by simpa using hyne : rename (key y) ≠ key y)
  · intro h q
    have hsame : ∀ x ∈ xs, decide (rename (key x) = q) = decide (key x = q) := fun x hx => by rw [h x hx]
    induction xs with
    | nil => rfl
    | cons x xs ih =>
      rw [List.find?_cons, List.find?_cons, hsame x (by simp), ih (fun y hy => h y (by simp [hy]))
        fun y hy => hsame y (by simp [hy])]

/-- One of the searches also takes elements that do not match: then a match has to stand before each of them. -/
theorem find_loose_iff {found sought : κ → α → Bool} (hsought : ∀ q x, sought q x = true → found q x = true) :
    (∀ q, xs.find? (found q) = xs.find? (sought q)) ↔
      ∀ q pre x post, xs = pre ++ x :: post → found q x = true → sought q x = false →
        ∃ y ∈ pre, sought q y = true := by
  constructor
  · intro h q pre x post hxs hx hnot
    by_contra hpre
    push Not at hpre
    have hfirst : xs.find? (found q) = (pre.find? (found q)).or (some x) := by
      rw [hxs, List.find?_append, List.find?_cons_of_pos hx]
    -- the element that both searches find stands before the loose match, or it is the loose match
    cases hearlier : pre.find? (found q) with
    | some y =>
      rw [hearlier, Option.some_or, h] at hfirst
      exact hpre y (List.mem_of_find?_eq_some hearlier) (List.find?_some hfirst)
    | none =>
      rw [hearlier, Option.none_or, h] at hfirst
      have hx' := List.find?_some hfirst
      rw [hnot] at hx'
      cases hx'
  · intro h q
    cases hfound : xs.find? (found q) with
    | none =>
      rw [List.find?_eq_none] at hfound
      exact (List.find?_eq_none.mpr fun x hx hs => hfound x hx (hsought q x hs)).symm
    | some x =>
      obtain ⟨hx, pre, post, hxs, hpre⟩ := List.find?_eq_some_iff_append.mp hfound
      have hnone : ∀ y ∈ pre, sought q y = false := by
        intro y hy
        have hy' := hpre y hy
        cases hs : sought q y with
        | false => rfl
        | true => simp [hsought q y hs] at hy'
      cases hs : sought q x with
      | true =>
        exact (List.find?_eq_some_iff_append.mpr ⟨hs, pre, post, hxs, fun y hy => by rw [hnone y hy]; rfl⟩).symm
      | false =>
        obtain ⟨y, hy, hs'⟩ := h q pre x post hxs hx hs
        rw [hnone y hy] at hs'
        cases hs'

end WhiteRabbit.FirstMatches
