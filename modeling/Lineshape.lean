import Lineshape.Reading.Edit
import Lineshape.Proofs.Expr.Nesting
import Lineshape.Proofs.Expr.Symbols
import Lineshape.Proofs.Expr.ScanSteps
import Lineshape.Proofs.Expr.Scan
import Lineshape.Proofs.Expr.Words
import Lineshape.Proofs.Expr.Phrase
import Lineshape.Proofs.Expr.Reading
import Lineshape.Proofs.Expr.Shape
import Lineshape.Proofs.Expr.Canonical
import Lineshape.Proofs.Reading.Act
import Lineshape.Proofs.Formula.Leaves
import Lineshape.Proofs.Model.Address
import Lineshape.Proofs.Model.Ties
import Lineshape.Proofs.Reading.Ties
import Lineshape.Proofs.Curve.Declare
import Lineshape.Proofs.Model.Kept
import Lineshape.Proofs.Reading.Sent
import Lineshape.Proofs.Reading.Routing
import Lineshape.Proofs.Expr.Groups
import Lineshape.Proofs.Expr.Numbers
import Lineshape.Proofs.Formula.Arithmetic
import Lineshape.Proofs.Expr.Pieces
import Lineshape.Proofs.Formula.Depth
import Lineshape.Proofs.Curve.Configured
import Lineshape.Proofs.Reading.Invariant
import Lineshape.Proofs.Model.Attached
import Lineshape.Proofs.Model.Sound
import Lineshape.Proofs.Formula.Reread
import Lineshape.Proofs.Formula.Guarded
import Lineshape.Proofs.Reading.Edits
import Lineshape.Proofs.Model.Names
import Lineshape.Proofs.Reading.Reached
import Lineshape.Proofs.Reading.Resolved
import Lineshape.Proofs.Expr.Glyphs
import Lineshape.Proofs.Expr.Rows
import Lineshape.Proofs.Expr.Written
import Lineshape.Proofs.Curve.Keys
import Lineshape.Proofs.Expr.Items
import Lineshape.Proofs.Model.Description
import Lineshape.Proofs.Model.Values
import Lineshape.Proofs.Number.Equality
import Lineshape.Proofs.Number.RoundTrip
import Lineshape.Proofs.Reading.Gives
import Lineshape.Proofs.Reading.Lists
import Lineshape.Proofs.Reading.Rearranged
import Lineshape.Proofs.Reading.Numbered
import Lineshape.Proofs.Expr.Faults
import Lineshape.Proofs.Expr.Regular
import Lineshape.Proofs.Expr.Formed
import Lineshape.Proofs.Expr.Apart
import Lineshape.Proofs.Curve.Rebuilt
import Lineshape.Proofs.Reading.Curves
import Lineshape.Proofs.Reading.Composites
import Lineshape.Proofs.Expr.Identifiers
import Lineshape.Proofs.Expr.Sealed
import Lineshape.Proofs.Model.Pieces
import Lineshape.Proofs.Reading.Headers
import Lineshape.Proofs.Reading.Outline
import Lineshape.Proofs.Reading.Bare
import Lineshape.Proofs.Curve.InStep
import Lineshape.Proofs.Expr.Limit
import Lineshape.Proofs.Reading.Dangling
import Lineshape.Proofs.Expr.Outer
import Lineshape.Proofs.Expr.Flat
import Lineshape.Proofs.Curve.InPlace
import Lineshape.Proofs.Reading.InPlace
import Lineshape.Proofs.Reading.Partly
import Lineshape.Proofs.Expr.Calculation
import Lineshape.Proofs.Expr.Partners
import Lineshape.Proofs.Expr.Trailing
import Lineshape.Proofs.Expr.Supplied
import Lineshape.Proofs.Expr.Located
import Lineshape.Proofs.Model.Chains
import Lineshape.Proofs.Reading.Factors
import Lineshape.Proofs.Reading.Constraints
import Lineshape.Proofs.Model.Lookup
import Lineshape.Proofs.Reading.Reordered
import Lineshape.Proofs.Expr.Joined
import Lineshape.Proofs.Reading.Assigned
import Lineshape.Proofs.Reading.Quoted
import Lineshape.Proofs.Reading.Vectors
import Lineshape.Proofs.Curve.Series
import Lineshape.Proofs.Curve.Table
import Lineshape.Proofs.Diagnostic
import Lineshape.Proofs.Reading.Bracketed
