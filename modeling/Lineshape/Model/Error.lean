import Lineshape.Expr.Lexeme
import Lineshape.Formula.Value
import Lineshape.Model.Attribute

/-! # Errors of models

Each error names its cause; `message` words it.

* `BoundFault`, `TieFault`: why a comparison is no bound and a formula no tie.
* `ModelError`: what an operation on a model can fail with.
* `ReadError`: what reading a model text can fail with.
-/

namespace Lineshape
set_option autoImplicit false

/-- Why a comparison chain is no bound on a parameter. -/
inductive BoundFault where
  | tooFewTerms
  | tooManyTerms
  | nonNumericBound
  | noParameter
  | unsupportedComparison (op : Text)
  | sameSide
  | lowerAboveUpper

/-- The wording of each reason. -/
def BoundFault.message : BoundFault → Text
  | .tooFewTerms => "expected a parameter and at least one bound".toList
  | .tooManyTerms => "too many terms".toList
  | .nonNumericBound => "Non-numeric value for a bound".toList
  | .noParameter => "no parameter to constrain".toList
  | .unsupportedComparison op => "unsupported comparison '".toList ++ op ++ "'".toList
  | .sameSide => "both bounds are on the same side".toList
  | .lowerAboveUpper => "Lower bound is greater than upper bound".toList

/-- Why a formula cannot tie a parameter. -/
inductive TieFault where
  /-- The formula is no expression. -/
  | unreadable (fault : Fault)
  /-- The formula is blank. -/
  | emptyFormula
  /-- The formula refers to the parameter that it is to determine. -/
  | tiedToItself
  /-- The formula refers to something that is no parameter. -/
  | unknownName (name : Text)

/-- The wording of each reason. -/
def TieFault.message : TieFault → Text
  | .unreadable fault => fault.message
  | .emptyFormula => "empty formula".toList
  | .tiedToItself => "a parameter cannot be tied to itself".toList
  | .unknownName name => "unknown parameter ".toList ++ name

/-- What an operation on a model can fail with. -/
inductive ModelError where
  /-- There is no function type of this name. -/
  | unknownFunction (name : Text)
  /-- The function type cannot hold members. -/
  | notComposite (name : Text)
  /-- There is no kind of constraint of this name. -/
  | unknownConstraint (kind : Text)
  /-- The function has no parameter of this name. -/
  | unknownParameter (function parameter : Text)
  /-- The function has no attribute of this name. -/
  | unknownAttribute (function name : Text)
  /-- The value does not fit the attribute. -/
  | invalidValue (name : Text) (type : AttributeType) (value : Text)
  /-- The expression is no constraint. -/
  | invalidConstraint (expression : Text) (reason : BoundFault)
  /-- The formula cannot tie the parameter. -/
  | invalidTie (parameter formula : Text) (reason : TieFault)
  /-- The formula of a tie has no value. -/
  | tieEvaluation (parameter formula : Text) (reason : EvalFault)
  /-- The composite has no member at this place. -/
  | memberOutOfRange (index size : Nat)

/-- The wording of each error. -/
def ModelError.message : ModelError → Text
  | .unknownFunction name => "unknown function type: ".toList ++ name
  | .notComposite name =>
    "function type ".toList ++ name ++ " is not a composite function".toList
  | .unknownConstraint kind => "unknown constraint type: ".toList ++ kind
  | .unknownParameter function parameter =>
    "parameter ".toList ++ parameter ++ " not found in function ".toList ++ function
  | .unknownAttribute function name =>
    "attribute ".toList ++ name ++ " not found in function ".toList ++ function
  | .invalidValue name type value =>
    "cannot set attribute ".toList ++ name ++ " of type ".toList ++ type.name ++
      " from '".toList ++ value ++ "'".toList
  | .invalidConstraint expression reason =>
    "invalid constraint '".toList ++ expression ++ "': ".toList ++ reason.message
  | .invalidTie parameter formula reason =>
    "invalid tie ".toList ++ parameter ++ '=' :: formula ++ ": ".toList ++ reason.message
  | .tieEvaluation parameter formula reason =>
    "cannot evaluate tie ".toList ++ parameter ++ '=' :: formula ++ ": ".toList ++
      reason.message
  | .memberOutOfRange index size =>
    "member function index ".toList ++ Text.ofNat index ++ " out of range (composite has ".toList
      ++ Text.ofNat size ++ " members)".toList

/-- What reading a model text can fail with. -/
inductive ReadError where
  /-- The text is no expression. -/
  | unreadable (input : Text) (error : ParseError)
  /-- A part of the text has the wrong form. -/
  | invalidInput (part : Text)
  /-- The items of a function do not begin with its name. -/
  | nameNotFirst
  /-- A value is no number. -/
  | invalidNumber (name value : Text)
  /-- The text is blank. -/
  | noFunction
  /-- The model described does not exist. -/
  | model (error : ModelError)

/-- The wording of each error. -/
def ReadError.message : ReadError → Text
  | .unreadable input error =>
    "Error in input string to FunctionFactory\n".toList ++ input ++ "\n    ".toList ++
      error.diagnostic.render
  | .invalidInput part => "Error in input string to FunctionFactory\n".toList ++ part
  | .nameNotFirst => "Function name must be defined before its parameters".toList
  | .invalidNumber name value =>
    "Error in value of parameter ".toList ++ name ++ ".\n".toList ++ value ++
      " cannot be interpreted as a floating point value.".toList
  | .noFunction => "Error in input string to FunctionFactory: no function provided".toList
  | .model error => error.message

end Lineshape
