import Lineshape.Text.Basic

/-! # Elementary functions

The functions that a formula can call. `Elementary.apply` gives no value outside the domain of a
function, nor for another number of arguments than `Elementary.arity`.
-/

namespace Lineshape
set_option autoImplicit false

/-- A function that a formula can call. -/
inductive Elementary where
  | sin | cos | tan | exp | log | sqrt | abs | min | max
deriving DecidableEq

namespace Elementary

/-- All functions. -/
def all : List Elementary := [sin, cos, tan, exp, log, sqrt, abs, min, max]

/-- The name in a formula. -/
def name : Elementary → Text
  | sin => "sin".toList
  | cos => "cos".toList
  | tan => "tan".toList
  | exp => "exp".toList
  | log => "log".toList
  | sqrt => "sqrt".toList
  | abs => "abs".toList
  | min => "min".toList
  | max => "max".toList

/-- The number of arguments. -/
def arity : Elementary → Nat
  | min | max => 2
  | _ => 1

/-- The function of a name. -/
def named? (s : Text) : Option Elementary := all.find? (·.name = s)

/-- The smaller of two numbers, the second one if they are equal. A value that is no number gives
way to the other. -/
def smaller (x y : Float) : Float := if x.isNaN || y ≤ x then y else x

/-- The larger of two numbers, the second one if they are equal. A value that is no number gives way
to the other. -/
def larger (x y : Float) : Float := if x.isNaN || x ≤ y then y else x

/-- The value at a list of arguments, if there is one. -/
def apply : Elementary → List Float → Option Float
  | sin, [x] => some x.sin
  | cos, [x] => some x.cos
  | tan, [x] => some x.tan
  | exp, [x] => some x.exp
  | log, [x] => if 0 < x then some x.log else none
  | sqrt, [x] => if 0 ≤ x then some x.sqrt else none
  | abs, [x] => some x.abs
  | min, [x, y] => some (smaller x y)
  | max, [x, y] => some (larger x y)
  | _, _ => none

theorem named?_name (f : Elementary) : named? f.name = some f := by cases f <;> decide

end Elementary
end Lineshape
