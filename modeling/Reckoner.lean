import Reckoner.CommandLine
import Reckoner.Main
import Reckoner.Proofs.Outcome
import Reckoner.Proofs.Scoping.Basic
import Reckoner.Proofs.Scoping.Builtins
import Reckoner.Proofs.Scoping.Eval
import Reckoner.Proofs.Scoping.Run
import Reckoner.Proofs.Scoping.Folding
import Reckoner.Proofs.Scoping.Expression
import Reckoner.Proofs.Scoping.Statement
import Reckoner.Proofs.Host
import Reckoner.Proofs.Scoping.Session
import Reckoner.Proofs.Scoping.Reachable
import Reckoner.Proofs.Scoping.DefiniteAssignment
import Reckoner.Proofs.Joining
import Reckoner.Proofs.Brackets
import Reckoner.Proofs.Sections
import Reckoner.Proofs.Accepted
import Reckoner.Proofs.FirstWord
import Reckoner.Proofs.Precedence
import Reckoner.Proofs.Relocation.Block
import Reckoner.Proofs.Rendering.Framed
import Reckoner.Proofs.Rendering.Sight
import Reckoner.Proofs.Rendering.Steady
import Reckoner.Proofs.Rendering.Reading
import Reckoner.Proofs.Rendering.Misread
import Reckoner.Proofs.Rendering.Tidy
import Reckoner.Proofs.Rendering.Closing
import Reckoner.Proofs.Rendering.Recovery
import Reckoner.Proofs.Rendering.Blocks
import Reckoner.Proofs.Rendering.Registered
import Reckoner.Proofs.Rendering.Heading
import Reckoner.Proofs.Rendering.Restoring
import Reckoner.Proofs.Rendering.Operands
import Reckoner.Proofs.Rendering.Rereading
import Reckoner.Proofs.Rendering.Arrow
import Reckoner.Proofs.Rendering.Visible
import Reckoner.Proofs.Rendering.Faithful
import Reckoner.Proofs.Rendering.RoundTrip
import Reckoner.Proofs.Registry.History
import Reckoner.Proofs.Registry.Failure
import Reckoner.Proofs.Comments
import Reckoner.Proofs.Registry.Slots
import Reckoner.Proofs.Composition
import Reckoner.Proofs.Cutting.Boundary
import Reckoner.Proofs.Cutting.Sections
import Reckoner.Proofs.Cutting.Matched
import Reckoner.Proofs.Cutting.Tiling
import Reckoner.Proofs.Cutting.Lexemes
import Reckoner.Proofs.Cutting.Splitting
import Reckoner.Proofs.Cutting.Statements
import Reckoner.Proofs.Cutting.Parser
import Reckoner.Proofs.LoopLimit
import Reckoner.Proofs.Closures.Distinct
import Reckoner.Proofs.Closures.Layout
import Reckoner.Proofs.Closures.Lexical
import Reckoner.Proofs.Registry.WellFormed
import Reckoner.Proofs.Positions
import Reckoner.Proofs.Lines
import Reckoner.Proofs.Digits
import Reckoner.Proofs.Bignum.Reading
import Reckoner.Proofs.Bignum.Text
import Reckoner.Proofs.Bignum.Display
import Reckoner.Proofs.Binary64
import Reckoner.Proofs.Binary64.Rational
import Reckoner.Proofs.Binary64.Scaling
import Reckoner.Proofs.Binary64.Order
import Reckoner.Proofs.Extremum
import Reckoner.Proofs.Bignum.Conversion
import Reckoner.Proofs.Dimension
import Reckoner.Proofs.Dimension.Text
import Reckoner.Proofs.Dimension.Word
import Reckoner.Proofs.Dimension.Group
import Reckoner.Proofs.Bignum.Integers
import Reckoner.Proofs.Bignum.Rounding
import Reckoner.Proofs.Bignum.Division
import Reckoner.Proofs.Bignum.Power
import Reckoner.Proofs.Differentiation.Constant
import Reckoner.Proofs.Differentiation.Derivative
import Reckoner.Proofs.Relocation.Statement
import Reckoner.Proofs.Braces.Cut
import Reckoner.Proofs.Braces.Reading
import Reckoner.Proofs.Braces.Passing
import Reckoner.Proofs.Braces.Returned
import Reckoner.Proofs.Braces.Clear
import Reckoner.Proofs.Braces.Sole
import Reckoner.Proofs.Braces.Bare
import Reckoner.Proofs.Braces.Bodies
import Reckoner.Proofs.Braces.Blocks
import Reckoner.Proofs.LateBinding
import Reckoner.Proofs.FrameUses
import Reckoner.Proofs.Matrix.Cells
import Reckoner.Proofs.Matrix.Combination
import Reckoner.Proofs.Matrix.Indexing
import Reckoner.Proofs.Matrix.Elimination
import Reckoner.Proofs.Matrix.Determinant
import Reckoner.Proofs.Matrix.Shapes
import Reckoner.Proofs.Matrix.Evaluation
import Reckoner.Proofs.Matrix.Transposition
import Reckoner.Proofs.Literals.Spelling
import Reckoner.Proofs.Literals.Value
import Reckoner.Proofs.Literals.Agreement
