import Lineshape.Number.Literal
import Lineshape.Number.Layout

/-! # The text of a double

A double is written with the fewest digits that read back to it; of two such decimals of equal
length the nearer one is taken, and of two equally near ones the larger.

* `Shortest.candidates`: the two decimals of a given number of digits around an exact value.
* `Shortest.decimal`: the digits chosen. They read back by construction
  (`Shortest.read_of_searched`).
* `Number.text`: the text of a double in a layout; `Number.plain` writes it in full.
-/

namespace Lineshape
set_option autoImplicit false

namespace Shortest

/-- The exact value of a positive double as a fraction. -/
def fraction (significand : Nat) : Int → Nat × Nat
  | .ofNat e => (significand * Nat.pow 2 e, 1)
  | .negSucc e => (significand, Nat.pow 2 (e + 1))

/-- Whether a fraction is below a power of ten. -/
def isBelow (numerator denominator : Nat) : Int → Bool
  | .ofNat e => numerator < denominator * Nat.pow 10 e
  | .negSucc e => numerator * Nat.pow 10 (e + 1) < denominator

/-- The exponent of the smallest power of ten above a positive fraction. The digit counts of the
two parts leave two choices. -/
def magnitude (numerator denominator : Nat) : Int :=
  let estimate : Int := (Text.ofNat numerator).length - (Text.ofNat denominator).length
  if isBelow numerator denominator estimate then estimate else estimate + 1

/-- The two neighbours of a fraction on the grid of multiples of `10 ^ exponent`, the nearer one
first and the larger one first if both are equally near. -/
def candidates (numerator denominator : Nat) (exponent : Int) : List Nat :=
  let (n, d) := match exponent with
    | .ofNat e => (numerator, denominator * Nat.pow 10 e)
    | .negSucc e => (numerator * Nat.pow 10 (e + 1), denominator)
  let below := n / d
  if 2 * (n % d) < d then [below, below + 1] else [below + 1, below]

/-- A decimal with the zeros at its end moved into the exponent. -/
def stripZeros : Nat → Nat → Int → Nat × Int
  | 0, significand, exponent => (significand, exponent)
  | steps + 1, significand, exponent =>
    if significand % 10 = 0 then stripZeros steps (significand / 10) (exponent + 1)
    else (significand, exponent)

/-- The text written in full of a decimal. -/
def inFull (decimal : Nat × Int) : Text :=
  Layout.plain.write (Text.ofNat decimal.1) decimal.2

/-- Whether a decimal, written in full, reads back as the double. -/
def readsBack (x : Float) (decimal : Nat × Int) : Bool :=
  Number.read? (inFull decimal) = some x

/-- The first decimal that reads back, with `digits`, `digits + 1`, ... digits. -/
def search (x : Float) (numerator denominator : Nat) (top : Int) : Nat → Nat → Option (Nat × Int)
  | 0, _ => none
  | steps + 1, digits =>
    let exponent := top - digits
    let found := (candidates numerator denominator exponent).map (stripZeros 20 · exponent)
      |>.find? (readsBack x)
    match found with
    | some decimal => some decimal
    | none => search x numerator denominator top steps (digits + 1)

/-- The shortest decimal of a positive double that is `significand * 2 ^ exponent`. Seventeen
digits always suffice; the exact value stands behind them. -/
def decimal (x : Float) (significand : Nat) (exponent : Int) : Nat × Int :=
  let (numerator, denominator) := fraction significand exponent
  match search x numerator denominator (magnitude numerator denominator) 17 1 with
  | some found => found
  | none => match exponent with
    | .ofNat e => (significand * Nat.pow 2 e, 0)
    | .negSucc e => (significand * Nat.pow 5 (e + 1), -(e + 1 : Int))

/-- What the search finds reads back. -/
theorem read_of_searched {x : Float} {numerator denominator : Nat} {top : Int}
    {steps digits : Nat} {found : Nat × Int}
    (h : search x numerator denominator top steps digits = some found) :
    Number.read? (inFull found) = some x := by
  induction steps generalizing digits with
  | zero => simp [search] at h
  | succ steps ih =>
    simp only [search] at h
    split at h
    · rename_i decimal hf
      cases h
      simpa [readsBack] using List.find?_some hf
    · exact ih h

end Shortest

namespace Number

/-- The text of a positive double or of one that is no number. -/
def magnitudeText (l : Layout) (x : Float) : Text :=
  match x.toModel.unpack with
  | .notANumber => "NaN".toList
  | .infinity _ => "inf".toList
  | .zero _ => l.write ['0'] 0
  | .finite _ significand exponent _ =>
    let (digits, e) := Shortest.decimal x.abs significand exponent
    l.write (Text.ofNat digits) e

/-- Whether a double is written with a minus sign. -/
def isNegative (x : Float) : Bool := !x.isNaN && x.toBits ≥ 0x8000000000000000

/-- The text of a double in a layout. -/
def text (l : Layout) (x : Float) : Text :=
  if isNegative x then '-' :: magnitudeText l x else magnitudeText l x

/-- The text of a double written in full. -/
def plain (x : Float) : Text := text .plain x

/-- A list of doubles between square brackets. -/
def listed (xs : List Float) : Text :=
  '[' :: List.intercalate ", ".toList (xs.map (text .listed)) ++ [']']

end Number
end Lineshape
