import Lineshape.Expr.Lexeme
import Mathlib.Tactic.ByContra

/-! # Splitting at the loosest operators

The lowest rank is that of an operator, and no operator has a lower one. A row of lexemes without
operators of a rank is not split at that rank, and two rows with such an operator between them are
split one by one. -/

namespace Lineshape.Lexeme
set_option autoImplicit false

theorem loosest?_spec {ls : List Lexeme} {r : Nat} (h : loosest? ls = some r) :
    (∃ op, operator op r ∈ ls) ∧ ∀ op k, operator op k ∈ ls → r ≤ k := by
  induction ls generalizing r with
  | nil => cases h
  | cons l ls ih =>
    cases l with
    | letter c =>
      obtain ⟨⟨op, hop⟩, hle⟩ := ih h
      refine ⟨⟨op, List.mem_cons_of_mem _ hop⟩, ?_⟩
      intro op' k hm
      rcases List.mem_cons.1 hm with hm | hm
      · cases hm
      · exact hle op' k hm
    | operator op k =>
      rw [loosest?, Option.some.injEq] at h
      cases hl : loosest? ls with
      | none =>
        rw [hl] at h
        change k = r at h
        subst h
        refine ⟨⟨op, List.mem_cons_self⟩, ?_⟩
        intro op' k' hm
        rcases List.mem_cons.1 hm with hm | hm
        · cases hm
          exact Nat.le_refl k
        · exact absurd hm (loosest?_eq_none_iff.1 hl _ _)
      | some least =>
        rw [hl] at h
        change min k least = r at h
        obtain ⟨⟨op', hop'⟩, hle⟩ := ih hl
        refine ⟨?_, ?_⟩
        · by_cases hk : k ≤ least
          · have hr : r = k := by omega
            exact ⟨op, hr ▸ List.mem_cons_self⟩
          · have hr : r = least := by omega
            exact ⟨op', List.mem_cons_of_mem _ (hr ▸ hop')⟩
        · intro op'' k'' hm
          rcases List.mem_cons.1 hm with hm | hm
          · cases hm
            omega
          · have := hle op'' k'' hm
            omega

theorem loosest?_eq_some {r : Nat} {ls : List Lexeme} {op : Text} (hm : operator op r ∈ ls)
    (h : ∀ op k, operator op k ∈ ls → r ≤ k) : loosest? ls = some r := by
  cases hl : loosest? ls with
  | none => exact absurd hm (loosest?_eq_none_iff.1 hl _ _)
  | some k =>
    obtain ⟨⟨op', hop'⟩, hle⟩ := loosest?_spec hl
    have hkr := hle op r hm
    have hrk := h op' k hop'
    rw [Nat.le_antisymm hkr hrk]

theorem split_of_ne {r : Nat} {ls : List Lexeme} (h : ∀ op k, operator op k ∈ ls → k ≠ r) :
    split r ls = (text ls, []) := by
  induction ls with
  | nil => rfl
  | cons l ls ih =>
    have hs := ih fun op k hm => h op k (List.mem_cons_of_mem _ hm)
    cases l with
    | letter c =>
      rw [split, hs]
      rfl
    | operator op k =>
      have hk := h op k List.mem_cons_self
      rw [split, hs]
      simp only [hk, if_false]
      rfl

theorem split_append {r : Nat} {front back : List Lexeme} {op : Text} :
    split r (front ++ operator op r :: back) =
      ((split r front).1, (split r front).2 ++ (op, (split r back).1) :: (split r back).2) := by
  induction front with
  | nil =>
    rw [List.nil_append, split]
    simp [split]
  | cons l front ih =>
    cases l with
    | letter c =>
      rw [List.cons_append, split, ih, split]
    | operator op' k =>
      rw [List.cons_append, split, ih, split]
      by_cases hk : k = r
      · simp [hk]
      · simp [hk]

theorem operator_of_mem_split {r : Nat} {ls : List Lexeme} {p : Text × Text}
    (h : p ∈ (split r ls).2) : operator p.1 r ∈ ls := by
  induction ls with
  | nil => cases h
  | cons l ls ih =>
    cases l with
    | letter c => exact List.mem_cons_of_mem _ (ih h)
    | operator op k =>
      rw [split] at h
      by_cases hk : k = r
      · subst hk
        simp only [if_true] at h
        rcases List.mem_cons.1 h with h | h
        · cases h
          exact List.mem_cons_self
        · exact List.mem_cons_of_mem _ (ih h)
      · simp only [hk, if_false] at h
        exact List.mem_cons_of_mem _ (ih h)

theorem split_ne_nil {r : Nat} {ls : List Lexeme} {op : Text} (h : operator op r ∈ ls) :
    (split r ls).2 ≠ [] := by
  obtain ⟨front, back, rfl⟩ := List.append_of_mem h
  rw [split_append]
  simp

end Lineshape.Lexeme
