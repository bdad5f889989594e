import Lineshape.Model.Tie
import Lineshape.Model.Bound
import Lineshape.Text.Quoted

/-! # Events

What happens while a model is built or changed is told by events, each of a level of severity.
`Event.message` words an event; `Event.select` keeps the events that are at least as severe as a
level.
-/

namespace Lineshape
set_option autoImplicit false

/-- How severe an event is, the most severe first. -/
inductive Level where
  | warn | debug | trace
deriving DecidableEq

/-- The rank of a level, lower for the more severe. -/
def Level.rank : Level → Nat
  | .warn => 0
  | .debug => 1
  | .trace => 2

/-- The name of a level. -/
def Level.name : Level → Text
  | .warn => "WARN".toList
  | .debug => "DEBUG".toList
  | .trace => "TRACE".toList

/-- Something that happened while a model was built or changed. -/
inductive Event where
  /-- A model text was parsed. -/
  | parsed (tree : Expr)
  /-- A function of this type is about to be filled. -/
  | creating (type : Text)
  /-- A model is complete. -/
  | created (function : Text)
  /-- A composite is complete. -/
  | createdComposite (function : Text) (members : Nat)
  /-- A composite has a new member. -/
  | memberAdded (composite : Text) (place : Nat) (member : Text)
  /-- A parameter was tied. -/
  | tied (function : Text) (tie : Tie)
  /-- A bound was read. -/
  | boundRead (function : Text) (bound : Bound)
  /-- A parameter was bounded. -/
  | bounded (function : Text) (bound : Bound)
  /-- A factor follows no bound and was skipped; with its text. -/
  | strayFactor (function item : Text)
  /-- Attributes were meant for a composite that is not there. -/
  | noEnclosing (names : List Text)

namespace Event

/-- The level of an event. -/
def level : Event → Level
  | parsed _ => .trace
  | strayFactor .. | noEnclosing _ => .warn
  | _ => .debug

/-- The wording of an event. -/
def message : Event → Text
  | parsed tree => "model tree:\n".toList ++ tree.outline
  | creating type => "creating ".toList ++ type
  | created function => "created ".toList ++ function
  | createdComposite function members =>
    "created ".toList ++ function ++ " with ".toList ++ Text.ofNat members ++ " members".toList
  | memberAdded composite place member =>
    composite ++ ": member f".toList ++ Text.ofNat place ++ " = ".toList ++ member
  | tied function tie => function ++ ": tie ".toList ++ tie.text
  | boundRead function bound =>
    function ++ ": ".toList ++ bound.text ++ " with penalty ".toList ++ Number.plain bound.factor
  | bounded function bound => function ++ ": constraint ".toList ++ bound.text
  | strayFactor function item =>
    function ++ ": ignoring ".toList ++ item ++ " with no constraint before it".toList
  | noEnclosing names => "no enclosing composite for attributes ".toList ++ Quoted.names names

/-- The events that are at least as severe as a level. -/
def select (level : Level) (events : List Event) : List Event :=
  events.filter fun e => e.level.rank ≤ level.rank

end Event
end Lineshape
