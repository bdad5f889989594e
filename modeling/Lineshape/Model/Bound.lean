import Lineshape.Expr.Printer
import Lineshape.Model.Error

/-! # Bounds

A bound keeps a parameter above a number, below one, or both. A value outside costs a factor times
the square of its distance.

* `Bound.ofChain`: the bound that a comparison chain such as `0<p<10` or `10>p` states.
* `Bound.check`: the cost of a value.
* `Bound.text`: the bound as a comparison chain, the lower number first.
* `Bound.put`: a list of bounds with one added, in place of the bound on the same parameter.
-/

namespace Lineshape
set_option autoImplicit false

/-- The factor of a bound unless a model sets one. -/
def defaultFactor : Float := 1000

/-- Limits on one parameter. -/
structure Bound where
  /-- The parameter. -/
  parameter : Text
  /-- The number it may not be below. -/
  lower? : Option Float
  /-- The number it may not be above. -/
  upper? : Option Float
  /-- The cost of a unit of squared distance. -/
  factor : Float := defaultFactor
  /-- Whether the function brought the bound itself, so that it is not part of the model text. -/
  isDefault : Bool := false

namespace Bound

/-! ## Reading -/

/-- A number in a comparison chain, with the comparison between it and its neighbour on the side of
the parameter. -/
structure Limit where
  /-- The number. -/
  value : Float
  /-- The comparison. -/
  op : Text
  /-- Whether the number stands before the parameter. -/
  before : Bool

/-- The places and the values of the numbers among some terms, and the place and the text of the
one term that is no number. -/
def sortTerms (t : OperatorTable) (found : Option (Nat × Text)) :
    Nat → List Expr → Except BoundFault (Option (Nat × Text) × List (Nat × Float))
  | _, [] => .ok (found, [])
  | place, term :: more =>
    let text := term.render t
    match Number.read? text with
    | some value => do
      let (found, values) ← sortTerms t found (place + 1) more
      .ok (found, (place, value) :: values)
    | none =>
      if found.isSome then .error .nonNumericBound
      else sortTerms t (some (place, text)) (place + 1) more

/-- The limit at a place of a chain whose parameter is at another place. -/
def limitAt (terms : List Expr) (parameterPlace : Nat) (place : Nat) (value : Float) : Limit :=
  let opAt (i : Nat) : Text := (terms[i]?.map (·.op)).getD []
  if place < parameterPlace then ⟨value, opAt (place + 1), true⟩ else ⟨value, opAt place, false⟩

/-- Whether a limit is a lower one, if its comparison says so. -/
def Limit.isLower? (limit : Limit) : Option Bool :=
  if limit.op = "<".toList ∨ limit.op = "<=".toList then some limit.before
  else if limit.op = ">".toList ∨ limit.op = ">=".toList then some !limit.before
  else none

/-- Take limits into what is known of the lower and the upper one. -/
def takeLimits (lower? upper? : Option Float) :
    List Limit → Except BoundFault (Option Float × Option Float)
  | [] => .ok (lower?, upper?)
  | limit :: more =>
    match limit.isLower? with
    | none => .error (.unsupportedComparison limit.op)
    | some true =>
      if lower?.isSome then .error .sameSide else takeLimits (some limit.value) upper? more
    | some false =>
      if upper?.isSome then .error .sameSide else takeLimits lower? (some limit.value) more

/-- Whether two limits contradict each other. -/
def isContrary (lower? upper? : Option Float) : Bool :=
  match lower?, upper? with
  | some lower, some upper => upper < lower
  | _, _ => false

/-- The bound that a comparison chain states for a parameter of a function. -/
def ofChain (t : OperatorTable) (owner : Text) (isParameter : Text → Bool) (chain : Expr)
    (isDefault : Bool) : Except ModelError Bound := do
  let invalid (fault : BoundFault) : ModelError := .invalidConstraint (chain.render t) fault
  let terms := chain.terms
  if terms.length < 2 then .error (invalid .tooFewTerms)
  else if 3 < terms.length then .error (invalid .tooManyTerms)
  else
    match sortTerms t none 0 terms with
    | .error fault => .error (invalid fault)
    | .ok (none, _) => .error (invalid .noParameter)
    | .ok (some (place, parameter), values) =>
      if isParameter parameter then
        let limits := values.map fun (i, value) => limitAt terms place i value
        match takeLimits none none limits with
        | .error fault => .error (invalid fault)
        | .ok (lower?, upper?) =>
          if isContrary lower? upper? then .error (invalid .lowerAboveUpper)
          else .ok { parameter, lower?, upper?, isDefault }
      else .error (.unknownParameter owner parameter)

/-! ## Cost and text -/

/-- How far a value is outside the limits. -/
def distance? (b : Bound) (x : Float) : Option Float :=
  if b.lower?.any (x < ·) then b.lower?.map (· - x)
  else if b.upper?.any (· < x) then b.upper?.map (x - ·)
  else none

/-- The cost of a value, zero within the limits. -/
def check (b : Bound) (x : Float) : Float :=
  match b.distance? x with
  | some d => b.factor * d * d
  | none => 0

/-- The bound as a comparison chain. -/
def text (b : Bound) : Text :=
  match b.lower?, b.upper? with
  | some lower, some upper =>
    Number.plain lower ++ '<' :: b.parameter ++ '<' :: Number.plain upper
  | some lower, none => Number.plain lower ++ '<' :: b.parameter
  | none, some upper => b.parameter ++ '<' :: Number.plain upper
  | none, none => b.parameter

/-- The items of a model text that state the bound: the chain, and its factor if that is not the
usual one. -/
def items (b : Bound) : List Text :=
  if b.factor != defaultFactor then [b.text, "penalty=".toList ++ Number.plain b.factor]
  else [b.text]

/-- The bounds with one more, in the place of an earlier one on the same parameter. -/
def put (b : Bound) : List Bound → List Bound
  | [] => [b]
  | other :: more =>
    if other.parameter = b.parameter then b :: more else other :: put b more

/-- Adding a bound on a parameter that has none puts it at the end. -/
theorem put_eq_append {b : Bound} {bounds : List Bound}
    (h : ∀ other ∈ bounds, other.parameter ≠ b.parameter) : put b bounds = bounds ++ [b] := by
  induction bounds with
  | nil => rfl
  | cons other more ih =>
    have := h other (by simp)
    simp [put, this, ih fun o ho => h o (by simp [ho])]

end Bound
end Lineshape
