import Lineshape.Curve.Shape
import Lineshape.Curve.Series
import Lineshape.Curve.Table
import Lineshape.Model.Slot
import Lineshape.Model.Tie
import Lineshape.Model.Bound

/-! # Curves

A curve is a function of a built-in shape with its parameters, attributes, ties and bounds.

* `Curve.ofShape`: a new curve of a shape.
* `Curve.setAttribute`: change an attribute. Where the parameters depend on it they are declared
  anew: `n` of a polynomial or a Chebyshev series, `Formula` of a user function.
* `Curve.declare`: other parameters; those that stay keep their values, and ties and bounds on the
  others go with them.
* `Curve.value`: the value at a point.
-/

namespace Lineshape
set_option autoImplicit false

/-- A function of a built-in shape. -/
structure Curve where
  /-- The shape. -/
  shape : Shape
  /-- The parameters with their values. -/
  parameters : Named Float
  /-- The attributes with their values. -/
  attributes : Slots
  /-- The formula of a user function, unless it is blank. -/
  formula? : Option Expr := none
  /-- The ties, in the order in which they are applied. -/
  ties : List Tie := []
  /-- The bounds on parameters. -/
  bounds : List Bound := []

namespace Curve

/-- A new curve of a shape. -/
def ofShape (shape : Shape) : Curve where
  shape := shape
  parameters := shape.parameters
  attributes := shape.attributes

/-! ## Attributes -/

/-- The highest degree of polynomials and series. -/
def maxDegree : Int := 1000

/-- The curve with other parameters. Parameters that it had keep their values and new ones are
zero; ties and bounds on parameters that it no longer has are dropped. -/
def declare (names : List Text) (c : Curve) : Curve :=
  { c with
    parameters := names.map fun name => (name, (Named.get? name c.parameters).getD 0)
    ties := c.ties.filter fun tie => names.contains tie.parameter
    bounds := c.bounds.filter fun b => names.contains b.parameter }

/-- The names of the coefficients up to a degree. -/
def coefficientNames (degree : Nat) : List Text :=
  (List.range (degree + 1)).map fun i => 'A' :: Text.ofNat i

/-- Declare the coefficients that the degree asks for. -/
def declareCoefficients (c : Curve) : Except ModelError Curve :=
  let n := match Named.get? "n".toList c.attributes with
    | some (.int n) => n
    | _ => 0
  if 0 ≤ n ∧ n ≤ maxDegree then .ok (c.declare (coefficientNames n.toNat))
  else .error (.invalidValue "n".toList .int (Text.ofInt n))

/-- The parameters of a formula: its variables besides `x`. -/
def formulaParameters (formula : Expr) : List Text := formula.variableNames.filter (· ≠ ['x'])

/-- Read the formula and declare its parameters. A blank formula has none. -/
def compile (c : Curve) : Except ModelError Curve :=
  let text := match Named.get? "Formula".toList c.attributes with
    | some (.string s) => s
    | _ => []
  if Text.isAllBlank text then .ok { c.declare [] with formula? := none }
  else match Expr.ofText text with
    | .error _ => .error (.invalidValue "Formula".toList .string text)
    | .ok formula => .ok { c.declare (formulaParameters formula) with formula? := some formula }

/-- Bring the parameters into line with an attribute that has changed. -/
def attributeChanged (name : Text) (c : Curve) : Except ModelError Curve :=
  match c.shape with
  | .polynomial | .chebyshev => if name = "n".toList then c.declareCoefficients else .ok c
  | .userFunction => if name = "Formula".toList then c.compile else .ok c
  | _ => .ok c

/-- The curve with another value of an attribute. -/
def setAttribute (name : Text) (value : Attribute) (c : Curve) : Except ModelError Curve := do
  let attributes ← c.attributes.replace c.shape.name name value
  { c with attributes }.attributeChanged name

/-! ## Values -/

/-- The value of the parameter at a place. -/
def valueAt (c : Curve) (i : Nat) : Float := (c.parameters[i]?.map (·.2)).getD Literal.notANumber

/-- The values of all parameters. -/
def values (c : Curve) : List Float := c.parameters.map (·.2)

/-- The number in an attribute. -/
def double (c : Curve) (name : Text) (default : Float) : Float :=
  match Named.get? name c.attributes with
  | some (.double x) => x
  | _ => default

/-- The list in an attribute. -/
def vector (c : Curve) (name : Text) : List Float :=
  match Named.get? name c.attributes with
  | some (.vector xs) => xs
  | _ => []

/-- Half the length of the unit circle. -/
def pi : Float := 3.141592653589793

/-- The value of a normal peak. -/
def gaussian (height centre sigma x : Float) : Float :=
  let z := (x - centre) / sigma
  height * Float.exp (-0.5 * z * z)

/-- The value of a Cauchy peak with a given area and full width at half maximum. -/
def lorentzian (amplitude centre fwhm x : Float) : Float :=
  let half := fwhm / 2
  let dx := x - centre
  amplitude / pi * half / (dx * dx + half * half)

/-- The value of a Chebyshev series on an interval. -/
def chebyshev (start stop : Float) (coefficients : List Float) (x : Float) : Float :=
  if stop ≤ start then Literal.notANumber
  else Series.clenshaw ((2 * x - (start + stop)) / (stop - start)) coefficients

/-- The value of a formula at `x` and the parameters. -/
def userValue (c : Curve) (x : Float) : Float :=
  match c.formula? with
  | none => 0
  | some formula =>
    let lookup (name : Text) := if name = ['x'] then some x else Named.get? name c.parameters
    match Formula.evaluate lookup formula with
    | .ok value => value
    | .error _ => Literal.notANumber

/-- The value of the curve at a point. -/
def value (c : Curve) (x : Float) : Float :=
  match c.shape with
  | .gaussian => gaussian (c.valueAt 0) (c.valueAt 1) (c.valueAt 2) x
  | .lorentzian => lorentzian (c.valueAt 0) (c.valueAt 1) (c.valueAt 2) x
  | .linearBackground => c.valueAt 0 + c.valueAt 1 * x
  | .flatBackground => c.valueAt 0
  | .polynomial => Series.horner x c.values
  | .chebyshev => chebyshev (c.double "StartX".toList (-1)) (c.double "EndX".toList 1) c.values x
  | .userFunction => c.userValue x
  | .tabulated =>
    Table.scaled (c.valueAt 0) (c.valueAt 1) (c.valueAt 2) (c.vector "X".toList)
      (c.vector "Y".toList) x

/-! ## What declaring keeps -/

@[simp] theorem names_declare (names : List Text) (c : Curve) :
    Named.names (c.declare names).parameters = names := by
  simp [declare, Named.names, Function.comp_def]

/-- A parameter that stays keeps its value. -/
theorem get?_declare {names : List Text} {c : Curve} {name : Text} (h : name ∈ names) :
    Named.get? name (c.declare names).parameters =
      some ((Named.get? name c.parameters).getD 0) := by
  simp only [declare]
  induction names with
  | nil => simp at h
  | cons n names ih =>
    simp only [List.map_cons, Named.get?]
    split
    · rename_i he; rw [he]
    · rename_i hne
      refine ih ?_
      rcases List.mem_cons.1 h with h | h
      · exact absurd h.symm hne
      · exact h

end Curve
end Lineshape
