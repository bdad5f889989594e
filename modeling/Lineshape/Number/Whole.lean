import Lineshape.Text.Basic

/-! # Whole numbers in text

* `Whole.value`: what a run of decimal digits stands for.
* `Whole.natural?`: a non-empty run of digits, leading zeros allowed.
* `Whole.index?`: a position, one that fits into 64 bits and may carry a plus sign.
* `Whole.integer?`: a signed number of 64 bits.
-/

namespace Lineshape.Whole
set_option autoImplicit false

/-- The value of a run of decimal digits, most significant first. -/
def value (digits : Text) : Nat :=
  digits.foldl (fun n c => 10 * n + (c.toNat - '0'.toNat)) 0

/-- The number written as digits and nothing else. -/
def natural? (s : Text) : Option Nat :=
  if s ≠ [] ∧ s.all Char.isDigit then some (value s) else none

/-- The number of different words of 64 bits. -/
def wordCount : Nat := Nat.pow 2 64

/-- A position among things that can be counted: a word of 64 bits, with an optional plus sign. -/
def index? (s : Text) : Option Nat :=
  let digits := match s with
    | '+' :: rest => rest
    | _ => s
  (natural? digits).filter (· < wordCount)

/-- A whole number that fits into a signed word of 64 bits, with an optional sign. -/
def integer? (s : Text) : Option Int :=
  let number := match s with
    | '-' :: rest => (natural? rest).map fun n => -(n : Int)
    | '+' :: rest => (natural? rest).map Int.ofNat
    | _ => (natural? s).map Int.ofNat
  number.filter fun n => -wordCount ≤ 2 * n && 2 * n < wordCount

theorem index?_lt {s : Text} {n : Nat} (h : index? s = some n) : n < wordCount := by
  simpa using (Option.filter_eq_some_iff.1 h).2

example : index? "+007".toList = some 7 ∧ index? "-0".toList = none
    ∧ index? "18446744073709551616".toList = none := by decide

example : integer? "-9223372036854775808".toList = some (-9223372036854775808)
    ∧ integer? "9223372036854775808".toList = none ∧ integer? "+".toList = none := by decide

end Lineshape.Whole
