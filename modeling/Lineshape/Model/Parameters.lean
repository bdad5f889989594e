import Lineshape.Model.Basic

/-! # Parameters

A curve has its parameters under their own names. A composite has the parameters of its members:
parameter `p` of member `i` is `f<i>.p`, and for a composite within a composite the names stack, as
in `f1.f0.A0`.

* `Model.parameterNames`, `Model.parameterCount`: all parameters in order, and how many there are.
* `Model.index?`, `Model.parameter?`: place and value of a parameter.
* `Model.set?`: the model with another value of a parameter.
* `Qualified.split?`: the place of the member and the rest of a name.
-/

namespace Lineshape
set_option autoImplicit false

namespace Qualified

/-- The name in a composite of a parameter of the member at a place. -/
def join (i : Nat) (name : Text) : Text := 'f' :: Text.ofNat i ++ '.' :: name

/-- The place of a member and the name of its parameter. -/
def split? : Text → Option (Nat × Text)
  | 'f' :: rest =>
    match rest.dropWhile (· ≠ '.') with
    | '.' :: name => (Whole.index? (rest.takeWhile (· ≠ '.'))).map (·, name)
    | _ => none
  | _ => none

example : split? "f1.f0.A0".toList = some (1, "f0.A0".toList) ∧ split? "f.A0".toList = none := by
  decide

end Qualified

namespace Model

/-! ## All parameters -/

mutual
/-- The names of all parameters in order. -/
def parameterNames : Model → List Text
  | curve c => Named.names c.parameters
  | composite _ members => parameterNamesFrom 0 members
/-- The names of all parameters of members that are numbered from `i` on. -/
def parameterNamesFrom (i : Nat) : List (Member Model) → List Text
  | [] => []
  | ⟨_, m⟩ :: more => m.parameterNames.map (Qualified.join i) ++ parameterNamesFrom (i + 1) more
end

mutual
/-- The number of parameters. -/
def parameterCount : Model → Nat
  | curve c => c.parameters.length
  | composite _ members => parameterCountOf members
/-- The number of parameters of several members. -/
def parameterCountOf : List (Member Model) → Nat
  | [] => 0
  | ⟨_, m⟩ :: more => m.parameterCount + parameterCountOf more
end

/-! ## One parameter -/

mutual
/-- The place of a parameter among all parameters. -/
def index? (name : Text) : Model → Option Nat
  | curve c => Named.index? name c.parameters
  | composite _ members =>
    match Qualified.split? name with
    | some (i, inner) => indexIn? i inner members
    | none => none
/-- The place of a parameter of the `i`-th of several members. -/
def indexIn? (i : Nat) (name : Text) : List (Member Model) → Option Nat
  | [] => none
  | ⟨_, m⟩ :: more =>
    match i with
    | 0 => m.index? name
    | i + 1 => (indexIn? i name more).map (m.parameterCount + ·)
end

mutual
/-- The value of a parameter. -/
def parameter? (name : Text) : Model → Option Float
  | curve c => Named.get? name c.parameters
  | composite _ members =>
    match Qualified.split? name with
    | some (i, inner) => parameterIn? i inner members
    | none => none
/-- The value of a parameter of the `i`-th of several members. -/
def parameterIn? (i : Nat) (name : Text) : List (Member Model) → Option Float
  | [] => none
  | ⟨_, m⟩ :: more =>
    match i with
    | 0 => m.parameter? name
    | i + 1 => parameterIn? i name more
end

mutual
/-- The model with another value of a parameter, if it has the parameter. -/
def set? (name : Text) (value : Float) : Model → Option Model
  | curve c =>
    if Named.has name c.parameters then
      some (curve { c with parameters := Named.set name value c.parameters })
    else none
  | composite c members =>
    match Qualified.split? name with
    | some (i, inner) => (setIn? i inner value members).map (composite c)
    | none => none
/-- The members with another value of a parameter of the `i`-th. -/
def setIn? (i : Nat) (name : Text) (value : Float) :
    List (Member Model) → Option (List (Member Model))
  | [] => none
  | ⟨locals, m⟩ :: more =>
    match i with
    | 0 => (m.set? name value).map fun m => ⟨locals, m⟩ :: more
    | i + 1 => (setIn? i name value more).map (⟨locals, m⟩ :: ·)
end

/-- Whether the model has a parameter. -/
def hasParameter (m : Model) (name : Text) : Bool := (m.index? name).isSome

/-- The value of a parameter, or an error that names it. -/
def getParameter (name : Text) (m : Model) : Except ModelError Float :=
  (m.parameter? name).elim (.error (.unknownParameter m.name name)) .ok

/-- The model with another value of a parameter, or an error that names it. -/
def setParameter (name : Text) (value : Float) (m : Model) : Except ModelError Model :=
  (m.set? name value).elim (.error (.unknownParameter m.name name)) .ok

/-- The parameters with their values. -/
def parameters (m : Model) : Named Float :=
  m.parameterNames.map fun name => (name, (m.parameter? name).getD Literal.notANumber)

end Model
end Lineshape
