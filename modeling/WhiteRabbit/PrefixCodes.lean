import Mathlib.Data.List.Basic

/-!
# Records that delimit themselves

Records are written one after the other. Where the code of a record tells where it ends, a stream
that begins with some records is read in only one way.
-/

namespace WhiteRabbit.PrefixCodes

variable {α β : Type*}

/-- Two streams that are the same begin with the same record, and no record is empty. -/
structure PrefixCode (encode : α → List β) : Prop where
  first : ∀ {a b x y}, encode a ++ x = encode b ++ y → a = b
  ne_nil : ∀ a, encode a ≠ []

namespace PrefixCode

variable {encode : α → List β}

/-- Of two readings of one stream, of which the other goes to the end, the first is the beginning. -/
theorem prefix_of_flatMap_append (h : PrefixCode encode) {as bs : List α} {x : List β}
    (heq : as.flatMap encode ++ x = bs.flatMap encode) : as <+: bs := by
  induction as generalizing bs with
  | nil => exact List.nil_prefix
  | cons a as ih =>
    cases bs with
    | nil => simp [h.ne_nil a] at heq
    | cons b bs =>
      rw [List.flatMap_cons, List.flatMap_cons, List.append_assoc] at heq
      obtain rfl := h.first heq
      exact List.cons_prefix_cons.mpr ⟨rfl, ih (List.append_cancel_left heq)⟩

theorem flatMap_injective (h : PrefixCode encode) {as bs : List α}
    (heq : as.flatMap encode = bs.flatMap encode) : as = bs := by
  have hab := h.prefix_of_flatMap_append ((List.append_nil _).trans heq)
  have hba := h.prefix_of_flatMap_append ((List.append_nil _).trans heq.symm)
  exact hab.eq_of_length (Nat.le_antisymm hab.length_le hba.length_le)

end PrefixCode

end WhiteRabbit.PrefixCodes
