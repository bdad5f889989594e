import Lineshape.Reading.Conditions

/-! # Reading functions

A function is a list of items. The first names its type; each other one sets an attribute or a
parameter, gives ties or constraints, or sets an attribute that the enclosing composite keeps for
the function. The ties are applied when all items are read.

* `Parents`: attributes on their way up to the enclosing composite.
* `Reader.readItem`: what one item does to a function.
* `Reader.readFunction`: the function that a tree describes.
-/

namespace Lineshape
set_option autoImplicit false

/-- Attributes on their way up to the enclosing composite. -/
abbrev Parents := Named Text

namespace Reader

/-- The text of a value without quotes around it. -/
def unquoted (r : Reader) (value : Expr) : Text := Item.unquote (r.render value)

/-- Send an attribute up to the enclosing composite. -/
def sendUp (r : Reader) (attr : Text) (value : Expr) : Act Parents Unit := do
  Act.put ((← Act.state).put attr (r.unquoted value))

/-- What an item with this key and value does to a function. An attribute of the function comes
before every other meaning of the key. -/
def readAssignment (r : Reader) (m : Model) (key : Text) (value : Expr) : Act Parents Model :=
  if m.hasAttribute key then Act.ofModel (m.setAttributeText key (r.unquoted value))
  else match Key.ofText key with
    | .constraints => Act.change m (r.addConstraints value.bracketsRemoved)
    | .ties => Act.change m (r.addTies value.bracketsRemoved)
    | .parent attr => do
      r.sendUp attr value
      return m
    | _ =>
      let text := r.render value
      match Number.read? text with
      | none => throw (.invalidNumber key text)
      | some number => Act.ofModel (m.setParameter key number)

/-- What one item does to a function. -/
def readItem (r : Reader) (m : Model) (item : Expr) : Act Parents Model :=
  match Item.assignment? item with
  | none => throw (.invalidInput (r.render item))
  | some (key, value) => r.readAssignment m key value

/-- What items do to a function, in order. -/
def readItems (r : Reader) (m : Model) : List Expr → Act Parents Model
  | [] => pure m
  | item :: more => do readItems r (← r.readItem m item) more

/-- The name of the function type, from the first item. -/
def typeName? (r : Reader) (head : Expr) : Option Text :=
  match Item.assignment? head with
  | some (key, value) =>
    match Key.ofText key with
    | .name | .composite => some (r.render value)
    | _ => none
  | none => none

/-- The items of a function. -/
def functionItems (e : Expr) : List Expr :=
  match e.form with
  | .assign => [e]
  | .list => e.terms
  | _ => []

/-- The function that a tree describes. -/
def readFunction (r : Reader) (e : Expr) : Act Parents Model := do
  let e := e.bracketsRemoved
  match functionItems e with
  | [] => throw (.invalidInput (r.render e))
  | head :: items =>
    match r.typeName? head with
    | none => throw .nameNotFirst
    | some type =>
      let m ← Act.ofModel (r.types.create type)
      Act.note (.creating type)
      let m ← r.readItems m items
      Act.change m Act.applyTies

end Reader
end Lineshape
