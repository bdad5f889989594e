import Lineshape.Model.Basic

/-! # Attributes of models

* `Model.attributes`: the attributes of a curve or of a composite.
* `Model.setAttribute`, `Model.setAttributeText`: change one, to a value or to what a text stands
  for.
* `Model.getAttribute`, `Model.hasAttribute`: look one up.
* `Model.localAttribute`, `Model.setLocal`: the attributes that a composite keeps for a member.
-/

namespace Lineshape.Model
set_option autoImplicit false

/-- The attributes in order. -/
def attributes : Model → Slots
  | curve c => c.attributes
  | composite c _ => c.attributes

/-- Whether there is an attribute of a name. -/
def hasAttribute (name : Text) (m : Model) : Bool := Named.has name m.attributes

/-- The value of an attribute. -/
def getAttribute (name : Text) (m : Model) : Except ModelError Attribute :=
  m.attributes.get m.name name

/-- The model with another value of an attribute. -/
def setAttribute (name : Text) (value : Attribute) : Model → Except ModelError Model
  | curve c => (c.setAttribute name value).map curve
  | composite c members => do
    let attributes ← c.attributes.replace c.name name value
    return composite { c with attributes } members

/-- The model with the value of an attribute that a text stands for. -/
def setAttributeText (name s : Text) (m : Model) : Except ModelError Model := do
  let old ← m.getAttribute name
  let value ← old.reread name s
  m.setAttribute name value

/-! ## Attributes of members -/

/-- The attributes that a composite keeps for each member, as a new member has them. -/
def localDefaults : Model → Slots
  | curve _ => []
  | composite c _ => c.localDefaults

/-- Whether a composite keeps an attribute of this name for its members. -/
def hasLocal (name : Text) (m : Model) : Bool := Named.has name m.localDefaults

/-- The attribute kept for the member at a place. -/
def localAttribute (i : Nat) (name : Text) (m : Model) : Except ModelError Attribute :=
  match m.members[i]? with
  | none => .error (.memberOutOfRange i m.members.length)
  | some member => member.locals.get m.name name

/-- The composite with the attribute kept for a member set to what a text stands for. -/
def setLocal (i : Nat) (name s : Text) : Model → Except ModelError Model
  | curve _ => .error (.memberOutOfRange i 0)
  | composite c members => do
    let old ← localAttribute i name (composite c members)
    let value ← old.reread name s
    match members[i]? with
    | none => .error (.memberOutOfRange i members.length)
    | some member => do
      let locals ← member.locals.replace c.name name value
      return composite c (members.set i { member with locals })

/-- The composite with one member more, which has the attributes of a new member. -/
def addMember (m new : Model) : Model :=
  match m with
  | curve c => curve c
  | composite c members => composite c (members ++ [⟨c.localDefaults, new⟩])

end Lineshape.Model
