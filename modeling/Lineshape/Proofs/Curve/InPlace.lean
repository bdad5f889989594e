import Lineshape.Proofs.Curve.InStep

/-! # Attributes write by write

What happens to a curve while one of its attributes is given a value. The value is stored. Then the
parameters follow it: the formula is stored, parameters are declared, the ties on parameters that are
gone are dropped, and then the bounds on them. If the parameters cannot follow, the old value is put
back into the curve as it is by then. In the end the curve is what `Curve.setAttribute` says, or it is
as it was (`Curve.writeAttribute_eq`). -/

namespace Lineshape
set_option autoImplicit false

/-- What a change that is made whole or not at all leaves of a state, and the error if it failed. -/
def Result.settle {σ ε : Type} (s : σ) : Except ε σ → σ × Option ε
  | .ok s' => (s', none)
  | .error error => (s, some error)

namespace Curve

/-- Declare parameters, drop the ties on those that are gone, and then the bounds on them. -/
def redeclare (names : List Text) (c : Curve) : Curve :=
  let c := { c with
    parameters := names.map fun name => (name, (Named.get? name c.parameters).getD 0) }
  let c := { c with ties := c.ties.filter fun tie => Named.has tie.parameter c.parameters }
  { c with bounds := c.bounds.filter fun b => Named.has b.parameter c.parameters }

/-- Declare the coefficients that the degree asks for, after a look at it. -/
def followDegree (c : Curve) : Curve × Option ModelError :=
  if 0 ≤ c.degree ∧ c.degree ≤ maxDegree then (c.redeclare (coefficientNames c.degree.toNat), none)
  else (c, some (.invalidValue "n".toList .int (Text.ofInt c.degree)))

/-- Read the formula, and if it can be read, store it and declare its parameters. -/
def followFormula (c : Curve) : Curve × Option ModelError :=
  if Text.isAllBlank c.formulaText then
    let c := { c with formula? := none }
    (c.redeclare [], none)
  else match Expr.ofText c.formulaText with
    | .error _ => (c, some (.invalidValue "Formula".toList .string c.formulaText))
    | .ok formula =>
      let c := { c with formula? := some formula }
      (c.redeclare (formulaParameters formula), none)

/-- Bring the parameters into line with an attribute that has changed. -/
def follow (name : Text) (c : Curve) : Curve × Option ModelError :=
  match c.shape with
  | .polynomial | .chebyshev => if name = "n".toList then c.followDegree else (c, none)
  | .userFunction => if name = "Formula".toList then c.followFormula else (c, none)
  | _ => (c, none)

/-- Store a value in an attribute and let the parameters follow it. If they cannot, the old value is
put back, and all else stays as it was left. -/
def writeAttribute (name : Text) (value : Attribute) (c : Curve) : Curve × Option ModelError :=
  match c.attributes.replace c.shape.name name value with
  | .error error => (c, some error)
  | .ok attributes =>
    match { c with attributes }.follow name with
    | (c', none) => (c', none)
    | (c', some error) =>
      ({ c' with attributes := storeAttribute.putBack name c c'.attributes }, some error)

variable {c : Curve}

theorem redeclare_eq (names : List Text) (c : Curve) : c.redeclare names = c.declare names := by
  have hhas : ∀ name, Named.has name (c.declare names).parameters = names.contains name := by
    intro name
    rw [Bool.eq_iff_iff, Named.has_iff_mem_names, names_declare, List.contains_iff_mem]
  have hties : c.ties.filter (fun tie => Named.has tie.parameter (c.declare names).parameters) =
      (c.declare names).ties := by simp only [hhas]; rfl
  have hbounds : c.bounds.filter (fun b => Named.has b.parameter (c.declare names).parameters) =
      (c.declare names).bounds := by simp only [hhas]; rfl
  change ({ c.declare names with
    ties := c.ties.filter fun tie => Named.has tie.parameter (c.declare names).parameters
    bounds := c.bounds.filter fun b => Named.has b.parameter (c.declare names).parameters } : Curve) = _
  rw [hties, hbounds]

theorem followDegree_eq (c : Curve) : c.followDegree = Result.settle c c.declareCoefficients := by
  have hdef : c.declareCoefficients =
      if 0 ≤ c.degree ∧ c.degree ≤ maxDegree then .ok (c.declare (coefficientNames c.degree.toNat))
      else .error (.invalidValue "n".toList .int (Text.ofInt c.degree)) := rfl
  rw [followDegree, hdef, redeclare_eq]
  split <;> rfl

theorem followFormula_eq (c : Curve) : c.followFormula = Result.settle c c.compile := by
  have hdef : c.compile =
      if Text.isAllBlank c.formulaText then .ok { c.declare [] with formula? := none }
      else match Expr.ofText c.formulaText with
        | .error _ => .error (.invalidValue "Formula".toList .string c.formulaText)
        | .ok formula =>
          .ok { c.declare (formulaParameters formula) with formula? := some formula } := rfl
  rw [followFormula, hdef]
  simp only [redeclare_eq]
  split
  · rfl
  · split <;> rfl

theorem follow_eq (name : Text) (c : Curve) :
    c.follow name = Result.settle c (c.attributeChanged name) := by
  rw [follow, attributeChanged, followDegree_eq, followFormula_eq]
  cases c.shape with
  | polynomial | chebyshev | userFunction =>
    dsimp only
    split <;> rfl
  | _ => rfl

/-- Nothing of a value that is refused is left behind. -/
theorem writeAttribute_eq (name : Text) (value : Attribute) (c : Curve) :
    c.writeAttribute name value = Result.settle c (c.setAttribute name value) := by
  have hstore : c.writeAttribute name value = c.storeAttribute name value := by
    rw [writeAttribute, storeAttribute]
    cases c.attributes.replace c.shape.name name value with
    | error error => rfl
    | ok attributes =>
      dsimp only
      rw [follow_eq]
      cases ({ c with attributes } : Curve).attributeChanged name <;> rfl
  rw [hstore, storeAttribute_eq]
  cases c.setAttribute name value <;> rfl

end Curve
end Lineshape
