import SymbolicCalculus.Expr.Basic
import SymbolicCalculus.Grammar.ParseError
import SymbolicCalculus.Token

/-!
# Operands

An operand is an expression that was read from a known part of the source. It carries the number
of levels of its tree along, so that a tree that is too deep is refused as soon as it is built.

`Operator.node` builds the plain node of an operator. `Operand.apply` extends the list of a left
operand that is a sum or a product already, so a long chain of additions stays one level deep.
-/

namespace SymbolicCalculus

/-- The plain node of an operator: a sum or product of two entries, a quotient, or a power. -/
def Operator.node {K : Type} (op : Operator) (a b : Expr K) : Expr K :=
  match op with
  | .add => .sum [.plus a, .plus b]
  | .sub => .sum [.plus a, .minus b]
  | .mul => .product [a, b]
  | .div => .quotient a b
  | .pow => .power a b

/-- An expression that was read from the source. -/
structure Operand (K : Type) where
  expr : Expr K
  span : Span
  /-- The number of levels of the expression. -/
  depth : Nat

namespace Operand

variable {K : Type}

/-- An expression of one level. -/
def atom (expr : Expr K) (span : Span) : Operand K := ⟨expr, span, 1⟩

/-- The operand below one more node, which adds a level. -/
def below (node : Expr K → Expr K) (span : Span) (x : Operand K) : Operand K :=
  ⟨node x.expr, span, x.depth + 1⟩

/-- Applies an operator to two operands. A sum on the left is extended by what is added to it or
subtracted from it, and a product on the left by what it is multiplied by. -/
def apply (op : Operator) (x y : Operand K) : Operand K :=
  let span := x.span.through y.span
  match op, x.expr with
  | .add, .sum addends => ⟨.sum (addends ++ [.plus y.expr]), span, max x.depth (y.depth + 1)⟩
  | .sub, .sum addends => ⟨.sum (addends ++ [.minus y.expr]), span, max x.depth (y.depth + 1)⟩
  | .mul, .product factors => ⟨.product (factors ++ [y.expr]), span, max x.depth (y.depth + 1)⟩
  -- there is no list on the left, or not one of the kind of the operator
  | op, e => ⟨op.node e y.expr, span, max x.depth y.depth + 1⟩

/-- Refuses an operand with more than `maxDepth` levels. -/
def limit (maxDepth : Nat) (x : Operand K) : Except (Located ParseError) (Operand K) :=
  if x.depth > maxDepth then .error (.atSpan (.expressionTooDeep maxDepth) x.span) else .ok x

end Operand

end SymbolicCalculus
