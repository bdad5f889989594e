import Lineshape.Reading.Model

/-! # Edits

An edit is one change of a model that is there already. It acts on the model itself or on a member
at an address, may fail, and leaves events.

* `Edit`: the changes.
* `Edit.act`: what a change does.
* `Model.edit`: the model after a change of a member, the events, and the error if it failed.
* `Model.edits`: the model after a list of changes, successful or not.
-/

namespace Lineshape
set_option autoImplicit false

/-- A change of a model. -/
inductive Edit where
  /-- Give a parameter a value. -/
  | setParameter (name : Text) (value : Float)
  /-- Give an attribute a value. -/
  | setAttribute (name : Text) (value : Attribute)
  /-- Give an attribute the value that a text stands for. -/
  | setAttributeText (name text : Text)
  /-- Give an attribute kept for a member the value that a text stands for. -/
  | setLocal (place : Nat) (name text : Text)
  /-- Add a member. -/
  | addMember (new : Model)
  /-- Tie a parameter to a formula. -/
  | tie (parameter formula : Text)
  /-- Put a bound on a parameter. -/
  | bound (b : Bound)
  /-- Apply all ties. -/
  | applyTies
  /-- Attach the ties of a list. -/
  | addTies (e : Expr)
  /-- Attach one tie. -/
  | addTie (e : Expr)
  /-- Attach the constraints of a list. -/
  | addConstraints (e : Expr)
  /-- Attach one constraint, with a factor. -/
  | addConstraint (e : Expr) (factor? : Option Expr)

/-- What a change does. -/
def Edit.act (r : Reader) : Edit → Act Model Unit
  | setParameter name value => single (·.setParameter name value)
  | setAttribute name value => single (·.setAttribute name value)
  | setAttributeText name text => single (·.setAttributeText name text)
  | setLocal place name text => single (·.setLocal place name text)
  | addMember new => Act.addMember new
  | tie parameter formula => Act.tie parameter formula
  | bound b => Act.bound b
  | applyTies => Act.applyTies
  | addTies e => r.addTies e
  | addTie e => r.addTie e
  | addConstraints e => r.addConstraints e
  | addConstraint e factor? => r.addConstraint e factor?
where
  /-- A change that is made whole or not at all. -/
  single (f : Model → Except ModelError Model) : Act Model Unit := do
    Act.put (← Act.ofModel (f (← Act.state)))

namespace Model

/-- A change of the member at an address: the model after it, the events, and the error if the
change failed. Without such a member nothing happens. -/
def edit (r : Reader) (path : List Nat) (e : Edit) (m : Model) :
    Model × List Event × Option ReadError :=
  match m.memberAt? path with
  | none => (m, [], none)
  | some member =>
    let (result, work) := (e.act r).perform member
    (m.updateAt (fun _ => work.state) path, work.journal,
      match result with
      | .ok _ => none
      | .error error => some error)

/-- The model after changes of members in order, whether they succeed or fail. -/
def edits (r : Reader) (m : Model) (changes : List (List Nat × Edit)) : Model :=
  changes.foldl (fun m change => (m.edit r change.1 change.2).1) m

end Model
end Lineshape
