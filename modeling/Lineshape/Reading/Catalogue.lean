import Lineshape.Model.Basic

/-! # Catalogues

A catalogue holds function types by name. A new function of a type is a copy of what the catalogue
holds under its name.

* `Catalogue.builtin`: all shapes and the two built-in composites.
* `Catalogue.create`, `Catalogue.createComposite`: a new function of a type.
* `boundKinds`: the kinds of constraints in a model text, by name or by the label of a comparison.
-/

namespace Lineshape
set_option autoImplicit false

/-- What a catalogue holds under a name. -/
inductive TypeEntry where
  /-- A type whose functions are used as they are. -/
  | simple (model : Model)
  /-- A type of composites, which take members. -/
  | composite (c : Composite)

/-- Function types by name. -/
abbrev Catalogue := Named TypeEntry

namespace Catalogue

/-- The built-in types. -/
def builtin : Catalogue :=
  Shape.all.map (fun shape => (shape.name, .simple (.ofShape shape))) ++
    [(Composite.plain.name, .composite .plain), (Composite.multiDomain.name, .composite .multiDomain)]

/-- Whether a name stands for a type of composites. -/
def isComposite (name : Text) (types : Catalogue) : Bool :=
  match Named.get? name types with
  | some (.composite _) => true
  | _ => false

/-- A new function of a type. -/
def create (name : Text) (types : Catalogue) : Except ModelError Model :=
  match Named.get? name types with
  | some (.simple model) => .ok model
  | some (.composite c) => .ok (.composite c [])
  | none => .error (.unknownFunction name)

/-- A new composite of a type. -/
def createComposite (name : Text) (types : Catalogue) : Except ModelError Model :=
  match Named.get? name types with
  | some (.simple _) => .error (.notComposite name)
  | some (.composite c) => .ok (.composite c [])
  | none => .error (.unknownFunction name)

end Catalogue

/-- The name of the kind of constraint that bounds are. -/
def boundKind : Text := "BoundaryConstraint".toList

/-- The built-in kinds of constraints, all of them bounds: the name and the labels of comparisons. -/
def boundKinds : List Text := [boundKind, "<".toList, ">".toList]

end Lineshape
