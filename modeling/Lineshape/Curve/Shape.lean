import Lineshape.Model.Named
import Lineshape.Model.Attribute

/-! # Shapes

The built-in functions of one variable. A shape has a name, and the parameters and attributes that
a new function of the shape begins with.
-/

namespace Lineshape
set_option autoImplicit false

/-- A built-in function of one variable. -/
inductive Shape where
  /-- A normal peak. -/
  | gaussian
  /-- A Cauchy peak. -/
  | lorentzian
  /-- A straight line. -/
  | linearBackground
  /-- A constant. -/
  | flatBackground
  /-- A polynomial of degree `n`. -/
  | polynomial
  /-- A Chebyshev series of degree `n` on an interval. -/
  | chebyshev
  /-- A formula in `x` whose other names are the parameters. -/
  | userFunction
  /-- Linear interpolation in a table. -/
  | tabulated
deriving DecidableEq

namespace Shape

/-- All shapes. -/
def all : List Shape :=
  [gaussian, lorentzian, linearBackground, flatBackground, polynomial, chebyshev, userFunction,
    tabulated]

/-- The name of the function type. -/
def name : Shape → Text
  | gaussian => "Gaussian".toList
  | lorentzian => "Lorentzian".toList
  | linearBackground => "LinearBackground".toList
  | flatBackground => "FlatBackground".toList
  | polynomial => "Polynomial".toList
  | chebyshev => "Chebyshev".toList
  | userFunction => "UserFunction".toList
  | tabulated => "TabulatedFunction".toList

/-- The parameters of a new function. -/
def parameters : Shape → Named Float
  | gaussian => [("Height".toList, 0), ("PeakCentre".toList, 0), ("Sigma".toList, 1)]
  | lorentzian => [("Amplitude".toList, 1), ("PeakCentre".toList, 0), ("FWHM".toList, 1)]
  | linearBackground => [("A0".toList, 0), ("A1".toList, 0)]
  | flatBackground | polynomial | chebyshev => [("A0".toList, 0)]
  | userFunction => []
  | tabulated => [("Scaling".toList, 1), ("Shift".toList, 0), ("XScaling".toList, 1)]

/-- The attributes of a new function, in the order of a model text. -/
def attributes : Shape → Named Attribute
  | polynomial => [("n".toList, .int 0)]
  | chebyshev => [("n".toList, .int 0), ("StartX".toList, .double (-1)), ("EndX".toList, .double 1)]
  | userFunction => [("Formula".toList, .string [])]
  | tabulated => [("X".toList, .vector []), ("Y".toList, .vector [])]
  | _ => []

end Shape
end Lineshape
