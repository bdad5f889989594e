/-! # Polynomials and Chebyshev series

Both are computed by a recurrence that takes the highest coefficient first. The recurrences are
written for any numbers with the arithmetic they need.

* `Series.horner`: the polynomial with given coefficients, the constant one first.
* `Series.clenshaw`: the sum of Chebyshev polynomials with given coefficients.
-/

namespace Lineshape.Series
set_option autoImplicit false

variable {R : Type} [Add R] [Sub R] [Mul R] [OfNat R 0] [OfNat R 2]

/-- The value at `x` of the polynomial with these coefficients, the constant one first. -/
def horner (x : R) (coefficients : List R) : R :=
  coefficients.foldr (fun a value => value * x + a) 0

/-- The two values that the recurrence carries, after the coefficients from some degree up. -/
def clenshawPair (t : R) : List R → R × R
  | [] => (0, 0)
  | a :: higher =>
    let (b1, b2) := clenshawPair t higher
    (a + 2 * t * b1 - b2, b1)

/-- The value at `t` of the Chebyshev series with these coefficients, the constant one first. -/
def clenshaw (t : R) : List R → R
  | [] => 0
  | a0 :: higher =>
    let (b1, b2) := clenshawPair t higher
    a0 + t * b1 - b2

end Lineshape.Series
