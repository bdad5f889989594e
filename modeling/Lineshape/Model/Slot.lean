import Lineshape.Model.Error
import Lineshape.Model.Named

/-! # Attribute slots

The attributes of a function are slots: each has a name and keeps its type.

* `Slots.get`, `Slots.replace`: read a slot, and put another value of the same type into it.
* `Attribute.reread`: the value that a text stands for in the place of another value.
-/

namespace Lineshape
set_option autoImplicit false

/-- The attributes of a function, in the order of its model text. -/
abbrev Slots := Named Attribute

namespace Slots

/-- The value of a slot of the function `owner`. -/
def get (owner name : Text) (slots : Slots) : Except ModelError Attribute :=
  (Named.get? name slots).elim (.error (.unknownAttribute owner name)) .ok

/-- The slots with another value in one of them, which has to be of the same type. -/
def replace (owner name : Text) (value : Attribute) (slots : Slots) : Except ModelError Slots := do
  let old ← get owner name slots
  if old.type = value.type then .ok (Named.set name value slots)
  else .error (.invalidValue name old.type value.modelText)

/-- Whether a slot has the value that it has in other slots. -/
def unchanged (defaults : Slots) (slot : Text × Attribute) : Bool :=
  defaults.any fun other => other.1 = slot.1 && other.2.same slot.2

theorem get_eq_ok {owner name : Text} {slots : Slots} {value : Attribute} :
    get owner name slots = .ok value ↔ Named.get? name slots = some value := by
  rw [get]
  cases Named.get? name slots <;> simp [Option.elim]

theorem replace_of_get {owner name : Text} {old value : Attribute} {slots : Slots}
    (h : Named.get? name slots = some old) (ht : old.type = value.type) :
    replace owner name value slots = .ok (Named.set name value slots) := by
  rw [replace, get_eq_ok.2 h]
  exact if_pos ht

theorem replace_eq_ok {owner name : Text} {value : Attribute} {slots slots' : Slots}
    (h : replace owner name value slots = .ok slots') :
    (∃ old, Named.get? name slots = some old ∧ old.type = value.type) ∧
      slots' = Named.set name value slots := by
  simp only [replace, get] at h
  cases hg : Named.get? name slots with
  | none => rw [hg] at h; simp [Option.elim, bind, Except.bind] at h
  | some old =>
    rw [hg] at h
    simp only [Option.elim, bind, Except.bind] at h
    split at h
    · rename_i ht
      cases h
      exact ⟨⟨old, rfl, ht⟩, rfl⟩
    · simp at h

end Slots

/-- The value that a text stands for in a slot with another value. -/
def Attribute.reread (name s : Text) (old : Attribute) : Except ModelError Attribute :=
  let s := Text.trim s
  (Attribute.read? old.type s).elim (.error (.invalidValue name old.type s)) .ok

end Lineshape
