import SymbolicCalculus.Expr.Equality
import SymbolicCalculus.Expr.Normal

/-!
# Rules

A rule looks at the root of a tree, whose children are simplified already, and either puts another
tree in its place or does not apply. Each rule belongs to one step, and the steps are taken in the
order in which `Step` lists them.

Many rules compute a candidate and apply when it differs structurally from what they were given;
`Rule.ifChanged` says so in one place.
-/

namespace SymbolicCalculus

/-- The steps of a simplification pass. -/
inductive Step where
  /-- `(a + b) + c = a + b + c` and `(a * b) * c = a * b * c`. -/
  | flatten
  /-- `a + 0 = a`, `a * 1 = a` and `a / 1 = a`, and the numbers of a sum or product are gathered
  into one at its end. -/
  | identity
  /-- `a * 0 = 0` and `0 / a = 0`. -/
  | absorb
  /-- `a ^ 0 = 1`, `a ^ 1 = a`, `0 ^ a = 0`, `1 ^ a = 1` and `e ^ (ln a * b) = a ^ b`. -/
  | power
  /-- Equal factors of a dividend and a divisor are cancelled, and their numbers gathered. -/
  | cancel
  /-- `a * a ^ b = a ^ (1 + b)` and `a ^ b / a ^ c = a ^ (b - c)`. -/
  | merge
  /-- An operator applied to numbers is replaced by its value. -/
  | fold
  deriving DecidableEq

/-- A rule for the root of a tree. -/
structure Rule (K : Type) where
  step : Step
  /-- The tree that takes the place of the given one, if the rule applies. -/
  replace? : Expr K → Option (Expr K)

namespace Rule

variable {K : Type}

/-- Of several rules the first one that applies, as one rule. -/
def firstOf (step : Step) (rules : List (Rule K)) : Rule K where
  step := step
  replace? e := rules.findSome? fun r => r.replace? e

/-- The candidate, if it differs structurally from the tree it is to replace. -/
def ifChanged [Scalar K] (e candidate : Expr K) : Option (Expr K) :=
  if candidate == e then none else some candidate

/-- Merges the lists directly below a list of the same kind into it, and with them any further down.
The rule looks no further than the direct entries to see whether it applies. -/
def flatten : Rule K where
  step := .flatten
  replace?
    | .sum addends =>
      if addends.any fun a => a.expr.isSum then some (Expr.sum addends).normalize else none
    | .product factors =>
      if factors.any Expr.isProduct then some (Expr.product factors).normalize else none
    | _ => none

end Rule

end SymbolicCalculus
