import Lineshape.Expr.Parser
import Lineshape.Expr.Printer
import Lineshape.Model.Error

/-! # Ties

A tie fixes a parameter to a formula of other parameters of the same function.

* `Tie.create`: a tie after its formula has been checked; the formula refers to parameters of the
  owner only (`Tie.variableNames_of_create`), and not to the tied one.
* `Tie.value`: what the formula comes to at given parameter values.
* `Tie.put`: a list of ties with one added, in place of the tie on the same parameter if there is
  one.
-/

namespace Lineshape
set_option autoImplicit false

/-- A parameter fixed to a formula. -/
structure Tie where
  /-- The parameter that is fixed. -/
  parameter : Text
  /-- What it is fixed to. -/
  formula : Expr

namespace Tie

/-- The formula as text. -/
def formulaText (tie : Tie) : Text := tie.formula.text

/-- The tie as it is written in a model text. -/
def text (tie : Tie) : Text := tie.parameter ++ '=' :: tie.formulaText

/-- Why the first name that may not stand in the formula may not. -/
def nameFault? (isParameter : Text → Bool) (parameter : Text) : List Text → Option TieFault
  | [] => none
  | name :: names =>
    if name = parameter then some .tiedToItself
    else if isParameter name then nameFault? isParameter parameter names
    else some (.unknownName name)

/-- Tie a parameter of a function with these parameters to the formula of a text. -/
def create (owner : Text) (isParameter : Text → Bool) (parameter formula : Text) :
    Except ModelError Tie :=
  if isParameter parameter then
    match Expr.ofText formula with
    | .error error => .error (.invalidTie parameter formula (.unreadable error.fault))
    | .ok tree =>
      if tree.isEmptyMarker then .error (.invalidTie parameter formula .emptyFormula)
      else match nameFault? isParameter parameter tree.variableNames with
        | some fault => .error (.invalidTie parameter formula fault)
        | none => .ok ⟨parameter, tree⟩
  else .error (.unknownParameter owner parameter)

/-- The value of the formula, the parameters looked up. -/
def value (lookup : Text → Option Float) (tie : Tie) : Except ModelError Float :=
  (Formula.evaluate lookup tie.formula).mapError (.tieEvaluation tie.parameter tie.formulaText)

/-- The ties with one more, in the place of an earlier one on the same parameter. -/
def put (tie : Tie) : List Tie → List Tie
  | [] => [tie]
  | other :: more =>
    if other.parameter = tie.parameter then tie :: more else other :: put tie more

theorem nameFault?_eq_none_iff {isParameter : Text → Bool} {parameter : Text}
    {names : List Text} :
    nameFault? isParameter parameter names = none ↔
      ∀ name ∈ names, name ≠ parameter ∧ isParameter name = true := by
  induction names with
  | nil => simp [nameFault?]
  | cons name names ih =>
    simp only [nameFault?, List.mem_cons, forall_eq_or_imp]
    split
    · simp_all
    · split <;> simp_all

/-- A tie that was created refers to parameters of its owner, and not to its own. -/
theorem variableNames_of_create {owner parameter formula : Text} {isParameter : Text → Bool}
    {tie : Tie} (h : create owner isParameter parameter formula = .ok tie) :
    tie.parameter = parameter ∧ isParameter parameter = true ∧
      ∀ name ∈ tie.formula.variableNames, name ≠ parameter ∧ isParameter name = true := by
  simp only [create] at h
  split at h
  · rename_i hp
    split at h
    · simp at h
    · split at h
      · simp at h
      · split at h
        · simp at h
        · rename_i hn
          cases h
          exact ⟨rfl, hp, nameFault?_eq_none_iff.1 hn⟩
  · simp at h

/-- Adding a tie on a parameter that has none puts it at the end. -/
theorem put_eq_append {tie : Tie} {ties : List Tie}
    (h : ∀ other ∈ ties, other.parameter ≠ tie.parameter) : put tie ties = ties ++ [tie] := by
  induction ties with
  | nil => rfl
  | cons other more ih =>
    have := h other (by simp)
    simp [put, this, ih fun o ho => h o (by simp [ho])]

end Tie
end Lineshape
