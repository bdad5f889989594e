import Lineshape.Model.Attributes
import Lineshape.Model.Conditions
import Lineshape.Model.Event

/-! # Acts

An act works on a state, notes events in a journal, and may end with an error. State and journal
are there also after an error, as far as the act came.

* `Act.note`, `Act.ofModel`: note an event, and do what may fail with a `ModelError`.
* `Act.on`: an act on a state of its own; its events are noted, its error ends the outer act.
* `Act.tie`, `Act.bound`, `Act.applyTies`: the changes of a model that leave events or a state
  behind.
-/

namespace Lineshape
set_option autoImplicit false

/-- A state and the events so far. -/
structure Work (σ : Type) where
  /-- The state. -/
  state : σ
  /-- The events so far. -/
  journal : List Event := []

/-- A computation on a state with a journal, which may end with an error. -/
abbrev Act (σ : Type) := ExceptT ReadError (StateM (Work σ))

namespace Act

variable {σ τ α : Type}

/-- The state. -/
def state : Act σ σ := return (← get).state

/-- Put another state in place. -/
def put (s : σ) : Act σ Unit := modify fun w => { w with state := s }

/-- Note an event. -/
def note (e : Event) : Act σ Unit := modify fun w => { w with journal := w.journal ++ [e] }

/-- What may fail with a model error. -/
def ofModel (result : Except ModelError α) : Act σ α :=
  match result with
  | .ok a => pure a
  | .error error => throw (.model error)

/-- An act on a state of its own, with the state that it leaves. -/
def on (s : τ) (act : Act τ α) : Act σ (α × τ) := ExceptT.mk fun w =>
  let (result, inner) := act.run.run { state := s, journal := w.journal }
  (result.map (·, inner.state), { w with journal := inner.journal })

/-- Change a model by an act that gives no value. -/
def change (m : Model) (act : Act Model Unit) : Act σ Model := return (← on m act).2

/-- Run an act on a state with an empty journal. -/
def perform (s : σ) (act : Act σ α) : Except ReadError α × Work σ :=
  act.run.run { state := s }

/-! ## Changes of a model -/

/-- Tie a parameter to a formula. -/
def tie (parameter formula : Text) : Act Model Unit := do
  let m ← state
  let (m', tie) ← ofModel (m.attachTie parameter formula)
  note (.tied m.name tie)
  put m'

/-- Put a bound on a parameter. -/
def bound (b : Bound) : Act Model Unit := do
  let m ← state
  let m' ← ofModel (m.attachBound b)
  note (.bounded m.name b)
  put m'

/-- Apply all ties. -/
def applyTies : Act Model Unit := do
  let (m, error?) := (← state).applyTies
  put m
  match error? with
  | some error => throw (.model error)
  | none => pure ()

/-- Add a member to a composite. -/
def addMember (new : Model) : Act Model Unit := do
  let m ← state
  note (.memberAdded m.name m.members.length new.name)
  put (m.addMember new)

end Act
end Lineshape
