import Lineshape.Curve.Basic

/-! # Models

A model is a curve, or a composite: the sum of its members, which are models again. A composite has
attributes, ties and bounds of its own, and keeps some attributes for each of its members.

* `Model`: curves and composites, with an induction principle.
* `Composite.new`: a composite type with its attributes.
* `Model.member`: the member at a place.
* `Model.memberAt?`, `Model.updateAt`: the member at an address, a list of places from the top.
-/

namespace Lineshape
set_option autoImplicit false

/-- What a composite has besides its members. -/
structure Composite where
  /-- The name of the composite type. -/
  name : Text
  /-- The attributes. -/
  attributes : Slots
  /-- The attributes of a new composite of this type. -/
  defaults : Slots
  /-- The attributes kept for each member, as a new member has them. -/
  localDefaults : Slots
  /-- The ties, in the order in which they are applied. -/
  ties : List Tie := []
  /-- The bounds on parameters of members. -/
  bounds : List Bound := []

/-- A composite of a type with these attributes and these attributes of members. -/
def Composite.new (name : Text) (attributes locals : Slots) : Composite where
  name := name
  attributes := attributes
  defaults := attributes
  localDefaults := locals

/-- The plain sum of functions. -/
def Composite.plain : Composite :=
  .new "CompositeFunction".toList [("NumDeriv".toList, .bool false)] []

/-- The sum of functions that belong to data sets of their own. -/
def Composite.multiDomain : Composite :=
  .new "MultiDomainFunction".toList [("NumDeriv".toList, .bool false)]
    [("domains".toList, .string "All".toList)]

/-- A member of a composite, with the attributes that the composite keeps for it. -/
structure Member (α : Type) where
  /-- The attributes kept for the member. -/
  locals : Slots
  /-- The member. -/
  model : α

/-- A function of one variable with parameters. -/
inductive Model where
  /-- A function of a built-in shape. -/
  | curve (c : Curve)
  /-- The sum of members. -/
  | composite (c : Composite) (members : List (Member Model))

namespace Model

/-- A property that curves have, and that goes from the members of a composite to the composite,
holds of all models. -/
@[induction_eliminator]
theorem induct {motive : Model → Prop} (curve : ∀ c, motive (.curve c))
    (composite : ∀ c members, (∀ m ∈ members, motive m.model) → motive (.composite c members))
    (m : Model) : motive m :=
  Model.rec (motive_1 := motive) (motive_2 := fun ms => ∀ m ∈ ms, motive m.model)
    (motive_3 := fun m => motive m.model) curve composite (by simp)
    (fun _ _ h hs => by simpa using ⟨h, hs⟩) (fun _ _ h => h) m

/-- A new model of a built-in shape. -/
def ofShape (shape : Shape) : Model := .curve (.ofShape shape)

/-- The name of the function type. -/
def name : Model → Text
  | curve c => c.shape.name
  | composite c _ => c.name

/-- Whether a model can have members. -/
def isComposite : Model → Bool
  | curve _ => false
  | composite .. => true

/-- The members of a composite. -/
def members : Model → List (Member Model)
  | curve _ => []
  | composite _ members => members

/-- The ties of the model itself, not those of its members. -/
def ties : Model → List Tie
  | curve c => c.ties
  | composite c _ => c.ties

/-- The bounds of the model itself, not those of its members. -/
def bounds : Model → List Bound
  | curve c => c.bounds
  | composite c _ => c.bounds

/-- The tie on a parameter. -/
def tie? (parameter : Text) (m : Model) : Option Tie := m.ties.find? (·.parameter = parameter)

/-- The bound on a parameter. -/
def bound? (parameter : Text) (m : Model) : Option Bound :=
  m.bounds.find? (·.parameter = parameter)

/-- The model with other ties. -/
def withTies (ties : List Tie) : Model → Model
  | curve c => curve { c with ties }
  | composite c members => composite { c with ties } members

/-- The model with other bounds. -/
def withBounds (bounds : List Bound) : Model → Model
  | curve c => curve { c with bounds }
  | composite c members => composite { c with bounds } members

/-- The member at a place, or an error that tells how many there are. -/
def member (i : Nat) (m : Model) : Except ModelError Model :=
  (m.members[i]?.map (·.model)).elim (.error (.memberOutOfRange i m.members.length)) .ok

/-- The member at an address, a list of places from the top. -/
def memberAt? : List Nat → Model → Option Model
  | [], m => some m
  | i :: path, m => m.members[i]?.bind fun member => memberAt? path member.model

/-- The model with the member at an address changed; unchanged if there is no such member. -/
def updateAt (f : Model → Model) : List Nat → Model → Model
  | [], m => f m
  | _ :: _, curve c => curve c
  | i :: path, composite c members =>
    composite c (members.modify i fun member =>
      { member with model := updateAt f path member.model })

end Model
end Lineshape
