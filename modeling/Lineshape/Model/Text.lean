import Lineshape.Model.Attributes
import Lineshape.Model.Parameters

/-! # Model texts

`Model.text` writes a model so that reading the text builds it again.

* A curve is a list of items: its name, its attributes, its parameters, and what ties and bounds it
  has.
* A composite is its members separated by semicolons, composites among them in brackets. What a
  composite keeps for a member follows the member behind a dollar sign, where it is not what a new
  member has.
* A header names the composite type. It is left out for a plain sum of at least two members with
  the attributes of a new one, since such a text reads as a plain sum.
-/

namespace Lineshape.Model
set_option autoImplicit false

/-- An item of a model text. -/
def item (key value : Text) : Text := key ++ '=' :: value

/-- The sections for ties and bounds, each behind a separator. Bounds that the function brought
itself are not written. -/
def sections (separator : Char) (ties : List Tie) (bounds : List Bound) : Text :=
  let ties := ties.map Tie.text
  let bounds := (bounds.filter (!·.isDefault)).flatMap Bound.items
  let part (key : Text) (items : List Text) :=
    if items.isEmpty then []
    else separator :: item key ('(' :: List.intercalate [','] items ++ [')'])
  part "ties".toList ties ++ part "constraints".toList bounds

/-- Attributes as items, each behind a comma and perhaps a mark. -/
def slotItems (mark : Text) (slots : Slots) : Text :=
  slots.flatMap fun (name, value) => ',' :: mark ++ item name value.modelText

/-- The text of a curve. -/
def curveText (c : Curve) : Text :=
  item "name".toList c.shape.name ++ slotItems [] c.attributes ++
    c.parameters.flatMap (fun (name, value) => ',' :: item name (Number.plain value)) ++
    sections ',' c.ties c.bounds

/-- The header of a composite, if it needs one. -/
def header (c : Composite) (size : Nat) : Text :=
  let changed := c.attributes.filter (!Slots.unchanged c.defaults ·)
  if c.name ≠ Composite.plain.name ∨ !changed.isEmpty ∨ size < 2 then
    item "composite".toList c.name ++ slotItems [] changed ++ [';']
  else []

mutual
/-- The text of a model. -/
def text : Model → Text
  | curve c => curveText c
  | composite c members =>
    header c members.length ++ List.intercalate [';'] (memberTexts c.localDefaults members) ++
      sections ';' c.ties c.bounds
/-- The texts of several members, with what the composite keeps for each. -/
def memberTexts (defaults : Slots) : List (Member Model) → List Text
  | [] => []
  | ⟨locals, m⟩ :: more =>
    ((if m.isComposite then '(' :: m.text ++ [')'] else m.text) ++
      slotItems ['$'] (locals.filter (!Slots.unchanged defaults ·))) :: memberTexts defaults more
end

end Lineshape.Model
