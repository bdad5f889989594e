/-! # Ranges of code points

A class of characters is given by its ranges of code points in increasing order.
`Ranges.holds` stops at the first range that begins behind the code point it looks for.
-/

namespace Lineshape
set_option autoImplicit false

/-- Ranges of code points, ends included, in increasing order. -/
abbrev Ranges := List (Nat × Nat)

/-- Whether a code point lies in one of the ranges. -/
def Ranges.holds (code : Nat) : Ranges → Bool
  | [] => false
  | (first, last) :: ranges => first ≤ code && (code ≤ last || Ranges.holds code ranges)

/-- A code point that is held lies in one of the ranges. -/
theorem Ranges.exists_of_holds {code : Nat} {ranges : Ranges} (h : ranges.holds code = true) :
    ∃ r ∈ ranges, r.1 ≤ code ∧ code ≤ r.2 := by
  induction ranges with
  | nil => simp [Ranges.holds] at h
  | cons r ranges ih =>
    simp only [Ranges.holds, Bool.and_eq_true, Bool.or_eq_true, decide_eq_true_eq] at h
    rcases h.2 with hr | hr
    · exact ⟨r, by simp, h.1, hr⟩
    · obtain ⟨r', hm, hr'⟩ := ih hr
      exact ⟨r', by simp [hm], hr'⟩

end Lineshape
