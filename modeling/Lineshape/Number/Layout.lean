import Lineshape.Text.Basic

/-! # Layout of decimal numbers

A positive decimal is given by its digits and the exponent of ten of the last one. A `Layout` says
how such a number is written down:

* `Layout.plain` writes every number in full, with no point in a whole one;
* `Layout.listed` keeps a fraction in every number and turns to an exponent for the very large and
  the very small.
-/

namespace Lineshape
set_option autoImplicit false

/-- The decisions of one way to write numbers. -/
structure Layout where
  /-- Whether a whole number is written with the fraction `.0`. -/
  wholeFraction : Bool
  /-- Whether a number whose first digit stands for this power of ten is written in full. -/
  inFull : Int → Bool

namespace Layout

/-- Every number in full and whole numbers without a point. -/
def plain : Layout where
  wholeFraction := false
  inFull _ := true

/-- Whole numbers with `.0`, and an exponent from `10^16` on and below `10^-4`. -/
def listed : Layout where
  wholeFraction := true
  inFull e := -4 ≤ e && e < 16

/-- The digits with the point put in or zeros filled up. -/
def positional (l : Layout) (digits : Text) (exponent : Int) : Text :=
  match exponent with
  | .ofNat zeros =>
    digits ++ List.replicate zeros '0' ++ (if l.wholeFraction then ".0".toList else [])
  | .negSucc n =>
    let places := n + 1
    if places < digits.length then
      digits.take (digits.length - places) ++ '.' :: digits.drop (digits.length - places)
    else "0.".toList ++ List.replicate (places - digits.length) '0' ++ digits

/-- One digit, the others as a fraction, and the exponent of the first. -/
def scientific (digits : Text) (leading : Int) : Text :=
  match digits with
  | [] => []
  | [d] => d :: 'e' :: Text.ofInt leading
  | d :: more => d :: '.' :: more ++ 'e' :: Text.ofInt leading

/-- The text of a positive decimal without trailing zeros in its digits. -/
def write (l : Layout) (digits : Text) (exponent : Int) : Text :=
  let leading := exponent + digits.length - 1
  if l.inFull leading then l.positional digits exponent else scientific digits leading

example : plain.write "12".toList (-7) = "0.0000012".toList
    ∧ plain.write "12".toList 2 = "1200".toList ∧ plain.write "12".toList (-1) = "1.2".toList := by
  decide

example : listed.write "12".toList (-7) = "1.2e-6".toList
    ∧ listed.write "1".toList 16 = "1e16".toList ∧ listed.write "2".toList 0 = "2.0".toList := by
  decide

end Layout
end Lineshape
