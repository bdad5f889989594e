import Lineshape.Model.Parameters

/-! # Ties and bounds of models

* `Model.attachTie`, `Model.attachBound`: put a tie or a bound on a parameter of the model.
* `Model.applyTies`: set the tied parameters to the values of their formulas, the members first.
  The run ends at the first tie without a value, and what was set before stays set.
* `Model.penalty`: the cost of all bounds at the present values.
* `Model.value`: the value at a point.
-/

namespace Lineshape.Model
set_option autoImplicit false

/-! ## Attaching -/

/-- Put a tie on a parameter, in place of the one that it has; with the tie. -/
def attachTie (parameter formula : Text) (m : Model) : Except ModelError (Model × Tie) := do
  let tie ← Tie.create m.name m.hasParameter parameter formula
  return (m.withTies (tie.put m.ties), tie)

/-- Put a bound on a parameter, in place of the one that it has. -/
def attachBound (b : Bound) (m : Model) : Except ModelError Model :=
  if m.hasParameter b.parameter then .ok (m.withBounds (b.put m.bounds))
  else .error (.unknownParameter m.name b.parameter)

theorem attachTie_eq_ok {parameter formula : Text} {m m' : Model} {tie : Tie} :
    m.attachTie parameter formula = .ok (m', tie) ↔
      Tie.create m.name m.hasParameter parameter formula = .ok tie ∧
        m' = m.withTies (tie.put m.ties) := by
  rw [attachTie]
  cases Tie.create m.name m.hasParameter parameter formula with
  | error error =>
    constructor
    · intro h
      cases h
    · rintro ⟨h, -⟩
      cases h
  | ok created =>
    constructor
    · intro h
      cases h
      exact ⟨rfl, rfl⟩
    · rintro ⟨h, rfl⟩
      cases h
      rfl

theorem attachBound_eq_ok {b : Bound} {m m' : Model} :
    m.attachBound b = .ok m' ↔
      m.hasParameter b.parameter = true ∧ m' = m.withBounds (b.put m.bounds) := by
  rw [attachBound]
  split
  · rename_i hhas
    rw [Except.ok.injEq, eq_comm]
    exact ⟨fun h => ⟨hhas, h⟩, fun h => h.2⟩
  · rename_i hnot
    constructor
    · intro h
      cases h
    · exact fun h => absurd h.1 hnot

/-! ## Applying ties -/

/-- Apply ties in order; the model reached and the error that ended the run, if one did. -/
def applyInOrder (m : Model) : List Tie → Model × Option ModelError
  | [] => (m, none)
  | tie :: more =>
    match tie.value (m.parameter? ·) with
    | .error error => (m, some error)
    | .ok value =>
      match m.setParameter tie.parameter value with
      | .error error => (m, some error)
      | .ok m => applyInOrder m more

mutual
/-- Apply the ties of the members and then those of the model. -/
def applyTies : Model → Model × Option ModelError
  | curve c => applyInOrder (curve c) c.ties
  | composite c members =>
    match applyTiesOf members with
    | (members, some error) => (composite c members, some error)
    | (members, none) => applyInOrder (composite c members) c.ties
/-- Apply the ties of several members in order. -/
def applyTiesOf : List (Member Model) → List (Member Model) × Option ModelError
  | [] => ([], none)
  | ⟨locals, m⟩ :: more =>
    match m.applyTies with
    | (m, some error) => (⟨locals, m⟩ :: more, some error)
    | (m, none) =>
      let (more, error?) := applyTiesOf more
      (⟨locals, m⟩ :: more, error?)
end

/-! ## Sums -/

/-- The sum from left to right. It begins with the zero that is neutral in every sum, so the sum of
nothing is negative zero. -/
def total (xs : List Float) : Float := xs.foldl (· + ·) (-0.0)

/-- The cost of the bounds of the model itself. -/
def ownPenalty (m : Model) : Float :=
  total (m.bounds.filterMap fun b => (m.parameter? b.parameter).map b.check)

mutual
/-- The cost of all bounds at the present values. -/
def penalty : Model → Float
  | curve c => (curve c).ownPenalty
  | composite c members => (composite c members).ownPenalty + total (penaltiesOf members)
/-- The costs of several members. -/
def penaltiesOf : List (Member Model) → List Float
  | [] => []
  | ⟨_, m⟩ :: more => m.penalty :: penaltiesOf more
end

mutual
/-- The value at a point, for a composite the sum of the values of its members. -/
def value (x : Float) : Model → Float
  | curve c => c.value x
  | composite _ members => total (valuesOf x members)
/-- The values of several members. -/
def valuesOf (x : Float) : List (Member Model) → List Float
  | [] => []
  | ⟨_, m⟩ :: more => m.value x :: valuesOf x more
end

end Lineshape.Model
