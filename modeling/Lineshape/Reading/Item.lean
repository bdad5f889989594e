import Lineshape.Expr.Printer

/-! # Items of model texts

An item of a model text gives a value to a key. `Key` tells what the key of an item is; a member of
a composite may be a composite in brackets, with items behind it that its parent keeps for it.

* `Item.assignment?`: key and value of an item.
* `Key.ofText`: what a key means.
* `Item.firstKey?`: the key that decides what a list of items is.
* `Item.unquote`: a text without one pair of double quotes around it.
-/

namespace Lineshape
set_option autoImplicit false

/-- What the key of an item is. -/
inductive Key where
  /-- The type of a function. -/
  | name
  /-- The type of a composite. -/
  | composite
  /-- A list of ties. -/
  | ties
  /-- A list of constraints. -/
  | constraints
  /-- An attribute that the enclosing composite keeps for the function. -/
  | parent (attr : Text)
  /-- An attribute or a parameter of the function. -/
  | other (key : Text)
deriving DecidableEq

/-- What a key means. Every key that begins with `constraint` is a list of constraints. -/
def Key.ofText (key : Text) : Key :=
  if key = "name".toList then .name
  else if key = "composite".toList then .composite
  else if key = "ties".toList then .ties
  else if "constraint".toList.isPrefixOf key then .constraints
  else match key with
    | '$' :: attr => .parent attr
    | _ => .other key

namespace Item

/-- Key and value of an item, which has exactly one of each. -/
def assignment? (e : Expr) : Option (Text × Expr) :=
  match e.form, e.terms with
  | .assign, [key, value] => some (key.name, value)
  | _, _ => none

/-- The key of the first item of a list, or of a single item. -/
def firstKey? (e : Expr) : Option Key :=
  match e.toList [','] with
  | [] => none
  | first :: _ => (assignment? first).map fun (key, _) => .ofText key

/-- Whether an expression is a sequence of members, perhaps with items behind it. -/
def isNested (e : Expr) : Bool :=
  match e.form, e.terms with
  | .sequence, _ => true
  | .list, head :: _ => head.bracketsRemoved.form = .sequence
  | _, _ => false

/-- A text without one pair of double quotes around it. -/
def unquote (s : Text) : Text :=
  match s with
  | '"' :: inner => if inner.getLast? = some '"' then inner.dropLast else s
  | _ => s

example : unquote "\"a,b\"".toList = "a,b".toList ∧ unquote ['"'] = ['"'] := by decide

end Item
end Lineshape
