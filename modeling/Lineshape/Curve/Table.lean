/-! # Tables of values

A table gives the value `Y` at each knot `X`, the knots in nondecreasing order. Between two knots
the value is interpolated linearly; outside the table it is zero.

* `Table.search`: the number of leading knots that are not above `u`, found by halving.
* `Table.lookup`: the value of the table at `u`.
* `Table.scaled`: the value of a scaled and shifted table.
-/

namespace Lineshape.Table
set_option autoImplicit false

variable {R : Type}

/-- Halve the range of `size` items from `base` on until one is left, moving up whenever the item
in the middle satisfies the test. -/
def narrow (holds : R → Bool) (items : List R) (base size : Nat) : Nat :=
  if _h : 1 < size then
    let half := size / 2
    let middle := base + half
    narrow holds items (if (items[middle]?).any holds then middle else base) (size - half)
  else base
termination_by size
decreasing_by omega

/-- The number of leading items that satisfy a test which holds of no item behind one that it does
not hold of. -/
def search (holds : R → Bool) (items : List R) : Nat :=
  if items.isEmpty then 0
  else
    let base := narrow holds items 0 items.length
    if (items[base]?).any holds then base + 1 else base

variable [Add R] [Sub R] [Mul R] [Div R] [OfNat R 0] [LT R] [LE R] [DecidableLT R] [DecidableLE R]

/-- The line through two knots. -/
def between (u x0 x1 y0 y1 : R) : R := y0 + (y1 - y0) * (u - x0) / (x1 - x0)

/-- The knots with their values, as far as there are both. -/
def knots (xs ys : List R) : List (R × R) := xs.zip ys

/-- The value of a table at `u`, none if `u` lies outside the knots. -/
def lookup (u : R) (table : List (R × R)) : Option R :=
  match table.head?, table.getLast? with
  | some (first, firstValue), some (last, lastValue) =>
    if u < first ∨ last < u then none
    else
      match search (· ≤ u) (table.map (·.1)) with
      | 0 => some firstValue
      | i + 1 =>
        match table[i]?, table[i + 1]? with
        | some (x0, y0), some (x1, y1) => some (between u x0 x1 y0 y1)
        | _, _ => some lastValue
  | _, _ => none

/-- The value at `x` of a table that is scaled in both directions and shifted. -/
def scaled (scaling shift xScaling : R) (xs ys : List R) (x : R) : R :=
  match lookup (xScaling * (x - shift)) (knots xs ys) with
  | some value => scaling * value
  | none => 0

end Lineshape.Table
