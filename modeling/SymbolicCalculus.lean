import SymbolicCalculus.Evaluation.Evaluate
import SymbolicCalculus.Event
import SymbolicCalculus.Expr.Record
import SymbolicCalculus.Scalar.Binary64
import SymbolicCalculus.Scalar.Pattern
import SymbolicCalculus.Proofs.Scalar.Laws
import SymbolicCalculus.Proofs.Scalar.Binary64
import SymbolicCalculus.Proofs.Scalar.Literals
import SymbolicCalculus.Proofs.Scalar.Numerals
import SymbolicCalculus.Proofs.Scalar.Plain
import SymbolicCalculus.Proofs.Expr.Alike
import SymbolicCalculus.Proofs.Expr.Nodes
import SymbolicCalculus.Proofs.Expr.Depth
import SymbolicCalculus.Proofs.Expr.Scope
import SymbolicCalculus.Proofs.Expr.Written
import SymbolicCalculus.Proofs.Expr.Unsigned
import SymbolicCalculus.Proofs.Expr.WellFormed
import SymbolicCalculus.Proofs.Expr.Numbers
import SymbolicCalculus.Proofs.Expr.Congruence
import SymbolicCalculus.Proofs.Scalar.Codes
import SymbolicCalculus.Proofs.Scalar.Folding
import SymbolicCalculus.Proofs.Expr.Marks
import SymbolicCalculus.Proofs.Expr.Record
import SymbolicCalculus.Proofs.Reals.Scalar
import SymbolicCalculus.Proofs.Reals.Value
import SymbolicCalculus.Proofs.Reals.Rules
import SymbolicCalculus.Proofs.Reals.Fractions
import SymbolicCalculus.Proofs.Reals.Exponents
import SymbolicCalculus.Proofs.Reals.Simplify
import SymbolicCalculus.Proofs.Reals.Table
import SymbolicCalculus.Proofs.Reals.Derivative
import SymbolicCalculus.Proofs.Reals.Exact
import SymbolicCalculus.Proofs.Reals.Extended
import SymbolicCalculus.Proofs.Evaluation.Failure
import SymbolicCalculus.Proofs.Evaluation.Expansion
import SymbolicCalculus.Proofs.Evaluation.Transformations
import SymbolicCalculus.Proofs.Derivative.Variables
import SymbolicCalculus.Proofs.Derivative.Depth
import SymbolicCalculus.Proofs.Grammar.Reading
import SymbolicCalculus.Proofs.Grammar.Folding
import SymbolicCalculus.Proofs.Grammar.Chain
import SymbolicCalculus.Proofs.Grammar.Depth
import SymbolicCalculus.Proofs.Decimal.Numeral
import SymbolicCalculus.Proofs.Grammar.Grouping
import SymbolicCalculus.Proofs.Grammar.Links
import SymbolicCalculus.Proofs.Grammar.Phrases
import SymbolicCalculus.Proofs.Grammar.Printing
import SymbolicCalculus.Proofs.Grammar.Signless
import SymbolicCalculus.Proofs.Grammar.RoundTrip
import SymbolicCalculus.Proofs.Grammar.Building
import SymbolicCalculus.Proofs.Grammar.Flat
import SymbolicCalculus.Proofs.Grammar.DepthLimit
import SymbolicCalculus.Proofs.Grammar.Placement
import SymbolicCalculus.Proofs.Grammar.Relocation
import SymbolicCalculus.Proofs.Grammar.WhiteSpace
import SymbolicCalculus.Proofs.Grammar.Composition
import SymbolicCalculus.Proofs.Grammar.Blocks
import SymbolicCalculus.Proofs.Grammar.Tracing
import SymbolicCalculus.Proofs.Grammar.ErrorPlaces
import SymbolicCalculus.Proofs.Grammar.WellFormed
import SymbolicCalculus.Proofs.Simplify.Weight
import SymbolicCalculus.Proofs.Simplify.Gathering
import SymbolicCalculus.Proofs.Simplify.Cancelling
import SymbolicCalculus.Proofs.Simplify.Bases
import SymbolicCalculus.Proofs.Simplify.Reduction
import SymbolicCalculus.Proofs.Simplify.Merging
import SymbolicCalculus.Proofs.Simplify.Lightening
import SymbolicCalculus.Proofs.Simplify.Loop
import SymbolicCalculus.Proofs.Simplify.Convergence
import SymbolicCalculus.Proofs.Simplify.FixedPoint
import SymbolicCalculus.Proofs.Simplify.Account
import SymbolicCalculus.Proofs.Simplify.Reduced
import SymbolicCalculus.Proofs.Simplify.Congruence
import SymbolicCalculus.Proofs.Simplify.Variables
import SymbolicCalculus.Proofs.Simplify.Stages
import SymbolicCalculus.Proofs.Simplify.Arithmetic
import SymbolicCalculus.Proofs.Evaluation.Powers
import SymbolicCalculus.Proofs.Grammar.Balance
import SymbolicCalculus.Proofs.Evaluation.Normal
import SymbolicCalculus.Proofs.Grammar.Operators
import SymbolicCalculus.Proofs.Grammar.Unreachable
import SymbolicCalculus.Proofs.Expr.Cursor
import SymbolicCalculus.Proofs.Derivative.Failure
import SymbolicCalculus.Proofs.Derivative.Repeated
import SymbolicCalculus.Proofs.Simplify.Truncation
import SymbolicCalculus.Proofs.Evaluation.Shadowing
import SymbolicCalculus.Proofs.Text.EditDistance
import SymbolicCalculus.Proofs.Evaluation.Suggestions
import SymbolicCalculus.Proofs.Grammar.Tiling
import SymbolicCalculus.Proofs.Decimal.Longest
import SymbolicCalculus.Proofs.Grammar.Splitting
import SymbolicCalculus.Proofs.Grammar.WrittenProducts
