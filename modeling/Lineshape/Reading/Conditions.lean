import Lineshape.Reading.Act
import Lineshape.Reading.Catalogue
import Lineshape.Reading.Item

/-! # Lists of ties and constraints

* `Reader`: what model texts are read with.
* `Reader.addTies`, `Reader.addTie`: attach the ties of a list. `a=b=formula` ties both `a` and
  `b`, the last one first.
* `Clause.ofItems`: what a list of constraints asks for. A factor `penalty=x` belongs to the
  constraint right before it; any other factor is stray.
* `Reader.addConstraints`, `Reader.addConstraint`: attach the constraints of a list.

Each list is worked off in order, and what was attached before an error stays attached.
-/

namespace Lineshape
set_option autoImplicit false

/-- What model texts are read with. -/
structure Reader where
  /-- The function types. -/
  types : Catalogue := .builtin
  /-- The kinds of constraints. -/
  kinds : List Text := boundKinds
  /-- The operators of the trees that are read. -/
  operators : OperatorTable := .standard
  /-- The limit on nesting. -/
  depth : Nat := defaultDepth

namespace Reader

/-- The text of a tree. -/
def render (r : Reader) (e : Expr) : Text := e.render r.operators

/-! ## Ties -/

/-- Tie parameters to one formula in order. -/
def tieAll (formula : Text) : List Text → Act Model Unit
  | [] => pure ()
  | parameter :: more => do
    Act.tie parameter formula
    tieAll formula more

/-- Attach one tie; every parameter on the left is tied to the last term, the last one first. -/
def addTie (r : Reader) (e : Expr) : Act Model Unit :=
  match e.form, e.terms.reverse with
  | .assign, formula :: target :: targets =>
    tieAll (r.render formula) ((target :: targets).map r.render)
  | _, _ => throw (.invalidInput (r.render e))

/-- The items of a list of ties that are not blank. -/
def tieItems (e : Expr) : List Expr :=
  ((e.toList [',']).map (·.bracketsRemoved)).filter (!·.isEmptyMarker)

/-- Attach ties in order. -/
def addEachTie (r : Reader) : List Expr → Act Model Unit
  | [] => pure ()
  | item :: more => do
    r.addTie item
    addEachTie r more

/-- Attach the ties of a list. -/
def addTies (r : Reader) (e : Expr) : Act Model Unit := r.addEachTie (tieItems e)

end Reader

/-! ## Constraints -/

/-- What an item of a list of constraints asks for. -/
inductive Clause where
  /-- A constraint, with the factor behind it. -/
  | constraint (chain : Expr) (factor? : Option Expr)
  /-- A factor with no constraint right before it. -/
  | stray (item : Expr)

namespace Clause

/-- The factor that an item gives. -/
def factor? (item : Expr) : Option Expr :=
  match Item.assignment? item with
  | some (key, value) => if key = "penalty".toList then some value else none
  | none => none

/-- What the items of a list ask for. -/
def ofItems : List Expr → List Clause
  | [] => []
  | item :: more =>
    if item.bracketsRemoved.isEmptyMarker then ofItems more
    else if (factor? item).isSome then stray item :: ofItems more
    else match more with
      | [] => [constraint item.bracketsRemoved none]
      | next :: rest =>
        match factor? next with
        | some value => constraint item.bracketsRemoved (some value) :: ofItems rest
        | none => constraint item.bracketsRemoved none :: ofItems (next :: rest)

end Clause

namespace Reader

/-- A bound of a kind on a parameter of a model. -/
def createBound (r : Reader) (kind : Text) (m : Model) (chain : Expr) (isDefault : Bool) :
    Except ModelError Bound :=
  if r.kinds.contains kind then Bound.ofChain r.operators m.name m.hasParameter chain isDefault
  else .error (.unknownConstraint kind)

/-- The kind of constraint that a chain is. A chain is labelled by the first comparison of its
group, whichever comparisons it has; that label stands for bounds. -/
def kindOf (chain : Expr) : Text :=
  if chain.name = "==".toList then boundKind else chain.name

/-- The number in a factor. -/
def factorValue (r : Reader) (value : Expr) : Except ReadError Float :=
  let text := r.render value
  (Number.read? text).elim (.error (.invalidNumber "penalty".toList text)) .ok

/-- Attach one constraint, with the factor behind it. -/
def addConstraint (r : Reader) (chain : Expr) (factor? : Option Expr) : Act Model Unit := do
  let m ← Act.state
  let b ← Act.ofModel (r.createBound (kindOf chain) m chain false)
  let b ← match factor? with
    | none => pure b
    | some value => do
      let factor ← liftExcept (r.factorValue value)
      pure { b with factor }
  Act.note (.boundRead m.name b)
  Act.bound b
where
  /-- What may fail with a reading error. -/
  liftExcept {α : Type} (result : Except ReadError α) : Act Model α :=
    match result with
    | .ok a => pure a
    | .error error => throw error

/-- Do what clauses ask for in order. -/
def addClauses (r : Reader) : List Clause → Act Model Unit
  | [] => pure ()
  | .constraint chain factor? :: more => do
    r.addConstraint chain factor?
    addClauses r more
  | .stray item :: more => do
    Act.note (.strayFactor (← Act.state).name (r.render item))
    addClauses r more

/-- Attach the constraints of a list. -/
def addConstraints (r : Reader) (e : Expr) : Act Model Unit :=
  r.addClauses (Clause.ofItems (e.toList [',']))

end Reader
end Lineshape
