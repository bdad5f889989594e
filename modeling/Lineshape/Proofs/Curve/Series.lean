import Mathlib.Algebra.BigOperators.Fin
import Mathlib.Tactic.Ring
import Lineshape.Curve.Series

/-! # The value of a Chebyshev series

Over exact numbers the recurrence of `Series.clenshaw` gives the sum of the Chebyshev polynomials
with the coefficients of the series (`Series.clenshaw_eq_sum`). What carries it is that the pair of
values behind any coefficients stands for their part of the sum, at whatever degree that part begins
(`Series.sum_eq_clenshawPair`). -/

namespace Lineshape.Series
set_option autoImplicit false

variable {R : Type} [CommRing R]

/-- The value at `t` of the Chebyshev polynomial of a degree. -/
def chebyshev (t : R) : Nat → R
  | 0 => 1
  | 1 => t
  | k + 2 => 2 * t * chebyshev t (k + 1) - chebyshev t k

/-- The pair of values behind coefficients gives the part of the sum that begins with any degree but
the lowest. -/
theorem sum_eq_clenshawPair (t : R) (coefficients : List R) (degree : Nat) :
    ∑ k : Fin coefficients.length, coefficients[k] * chebyshev t (degree + 1 + k) =
      (clenshawPair t coefficients).1 * chebyshev t (degree + 1) -
        (clenshawPair t coefficients).2 * chebyshev t degree := by
  induction coefficients generalizing degree with
  | nil => simp [clenshawPair]
  | cons a higher ih =>
    have hhigher : ∑ k : Fin higher.length, (a :: higher)[k.succ] * chebyshev t (degree + 1 + k.succ) =
        ∑ k : Fin higher.length, higher[k] * chebyshev t (degree + 1 + 1 + k) := by
      refine Finset.sum_congr rfl fun k _ => ?_
      rw [Fin.val_succ, Nat.add_assoc (degree + 1) 1 k, Nat.add_comm 1 k.val]
      rfl
    have hrecurrence : chebyshev t (degree + 1 + 1) =
        2 * t * chebyshev t (degree + 1) - chebyshev t degree := rfl
    calc ∑ k : Fin (a :: higher).length, (a :: higher)[k] * chebyshev t (degree + 1 + k)
        = a * chebyshev t (degree + 1) +
            ∑ k : Fin higher.length, (a :: higher)[k.succ] * chebyshev t (degree + 1 + k.succ) :=
          Fin.sum_univ_succ _
      _ = a * chebyshev t (degree + 1) +
            ((clenshawPair t higher).1 * chebyshev t (degree + 1 + 1) -
              (clenshawPair t higher).2 * chebyshev t (degree + 1)) := by
          rw [hhigher, ih]
      _ = (a + 2 * t * (clenshawPair t higher).1 - (clenshawPair t higher).2) *
            chebyshev t (degree + 1) - (clenshawPair t higher).1 * chebyshev t degree := by
          rw [hrecurrence]
          ring

/-- The recurrence gives the value of the series: the sum of the Chebyshev polynomials up to the
highest degree, each with its coefficient. -/
theorem clenshaw_eq_sum (t : R) (coefficients : List R) :
    clenshaw t coefficients = ∑ k : Fin coefficients.length, coefficients[k] * chebyshev t k := by
  cases coefficients with
  | nil => rfl
  | cons a0 higher =>
    have hhigher : ∑ k : Fin higher.length, (a0 :: higher)[k.succ] * chebyshev t k.succ =
        (clenshawPair t higher).1 * t - (clenshawPair t higher).2 * 1 := by
      refine Eq.trans ?_ (sum_eq_clenshawPair t higher 0)
      refine Finset.sum_congr rfl fun k _ => ?_
      rw [Fin.val_succ, Nat.zero_add, Nat.add_comm 1 k.val]
      rfl
    calc clenshaw t (a0 :: higher)
        = a0 + t * (clenshawPair t higher).1 - (clenshawPair t higher).2 := rfl
      _ = a0 * chebyshev t 0 + ((clenshawPair t higher).1 * t - (clenshawPair t higher).2 * 1) := by
          rw [chebyshev]
          ring
      _ = a0 * chebyshev t 0 +
            ∑ k : Fin higher.length, (a0 :: higher)[k.succ] * chebyshev t k.succ := by
          rw [hhigher]
      _ = ∑ k : Fin (a0 :: higher).length, (a0 :: higher)[k] * chebyshev t k :=
          (Fin.sum_univ_succ fun k : Fin (a0 :: higher).length => (a0 :: higher)[k] * chebyshev t k).symm

/-- The polynomial of degree two is `2 * t ^ 2 - 1`. -/
example : clenshaw (3 : Int) [1, 2, 5] = 1 + 2 * 3 + 5 * (2 * 3 ^ 2 - 1) := by decide

end Lineshape.Series
