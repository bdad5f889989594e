import Lineshape.Number.Whole

/-! # Numbers in text

A number is written as decimal digits with an optional point, at least one digit on one side of
it, and an optional exponent of at least one digit; or as one of the words `inf`, `infinity` and
`nan` in any letter case. A sign may stand in front. Nothing else is a number, so a text is read
whole or not at all.

* `Literal.decimal?`: significand and exponent of ten of an unsigned decimal.
* `Literal.scale`: the double nearest to a significand times a power of ten.
* `Number.read?`: the double that a text stands for.
-/

namespace Lineshape
set_option autoImplicit false

namespace Literal

/-- The exponent of a decimal: nothing, or a letter, an optional sign and at least one digit. -/
def exponent? : Text → Option Int
  | [] => some 0
  | mark :: rest =>
    if mark = 'e' ∨ mark = 'E' then
      match rest with
      | '-' :: digits => (Whole.natural? digits).map fun n => -(n : Int)
      | '+' :: digits => (Whole.natural? digits).map Int.ofNat
      | digits => (Whole.natural? digits).map Int.ofNat
    else none

/-- Significand and exponent of ten of an unsigned decimal. -/
def decimal? (s : Text) : Option (Nat × Int) :=
  let whole := s.takeWhile Char.isDigit
  let afterWhole := s.dropWhile Char.isDigit
  let (fraction, rest) := match afterWhole with
    | '.' :: digits => (digits.takeWhile Char.isDigit, digits.dropWhile Char.isDigit)
    | _ => ([], afterWhole)
  if whole = [] ∧ fraction = [] then none
  else (exponent? rest).map fun e => (Whole.value (whole ++ fraction), e - fraction.length)

/-- The double nearest to `significand * 10 ^ exponent`, a tie going to the even neighbour. -/
def scale (significand : Nat) : Int → Float
  | .ofNat e => Float.ofScientific significand false e
  | .negSucc e => Float.ofScientific significand true (e + 1)

/-- The double that stands for no number. -/
def notANumber : Float := Float.ofBits 0x7ff8000000000000

/-- Positive infinity. -/
def infinite : Float := Float.ofBits 0x7ff0000000000000

/-- An unsigned number: a decimal or one of the three words. -/
def magnitude? (s : Text) : Option Float :=
  match decimal? s with
  | some (significand, exponent) => some (scale significand exponent)
  | none =>
    let word := s.map Char.toLower
    if word = "inf".toList ∨ word = "infinity".toList then some infinite
    else if word = "nan".toList then some notANumber
    else none

end Literal

/-- The double that a text stands for, if it is a number. -/
def Number.read? : Text → Option Float
  | '-' :: rest => (Literal.magnitude? rest).map Float.neg
  | '+' :: rest => Literal.magnitude? rest
  | s => Literal.magnitude? s

example : Literal.decimal? "12.50e-3".toList = some (1250, -5)
    ∧ Literal.decimal? ".5".toList = some (5, -1) ∧ Literal.decimal? "1.".toList = some (1, 0)
    ∧ Literal.decimal? ".".toList = none ∧ Literal.decimal? "1e".toList = none
    ∧ Literal.decimal? "1 ".toList = none := by decide

end Lineshape
