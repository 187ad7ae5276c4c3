import SymbolicCalculus.Expr.Normal
import SymbolicCalculus.Grammar.Fragment

/-!
# Reading formulas

A formula is written with the operators `+ - * / ^`, parentheses, decimal numerals, the names of
constants, functions in front of a group, and variables. A multiplication need not be written:
`3x`, `2sin(x)` and `(x-1)(x-2)` are products. White space means nothing.

`parse` reads a source text in four stages: tokens, segments grouped by parentheses, one operand,
and its normal form. The operator `^` groups to the left, so `2^3^2` is `(2^3)^2`.
-/

namespace SymbolicCalculus

/-- How deeply a formula may be nested. -/
structure ParseLimits where
  /-- The greatest number of parentheses that are open at a time. -/
  nesting : Nat := 128
  /-- The greatest number of levels of the tree before it is normalized. -/
  depth : Nat := 256

variable {K : Type} [Scalar K] [Literal K]

/-- Reads a source text as an operand, which is not normalized yet. -/
def parseOperand (limits : ParseLimits) (source : String) :
    Except (Located ParseError) (Operand K) := do
  let tokens := Token.significant source
  let segments ← Segment.ofTokens limits.nesting tokens
  -- grouping has nothing against an empty list of tokens, so an empty source gets here
  match tokens.head?, tokens.getLast? with
  | some first, some last => Segment.toOperand limits.depth (first.span.through last.span) segments
  | _, _ => .error (.nowhere .emptyInput)

/-- Reads a source text as a normalized expression. -/
def parse (limits : ParseLimits) (source : String) : Except (Located ParseError) (Expr K) := do
  let x ← parseOperand limits source
  return x.expr.normalize

end SymbolicCalculus
