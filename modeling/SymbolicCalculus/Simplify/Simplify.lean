import SymbolicCalculus.Expr.Traversal
import SymbolicCalculus.Simplify.Pass

/-!
# Simplification

Passes are made until one leaves the tree structurally unchanged. Two limits may end that earlier:
a greatest number of passes, and a greatest number of nodes, for trees that grow before they shrink.
The tree that was reached is then returned as it is.

`simplifyReport` also returns the changes and says how the simplification ended.
-/

namespace SymbolicCalculus

/-- How long a simplification may go on. -/
structure SimplifyLimits where
  /-- The greatest number of passes. -/
  passes : Nat := 10000
  /-- The greatest number of nodes of a tree that is still worked on, if there is a limit. -/
  nodes : Option Nat := none
  deriving DecidableEq

/-- How a simplification ended. -/
inductive SimplifyOutcome where
  /-- A pass changed nothing; it is counted in `passes`. -/
  | fixedPoint (passes : Nat)
  /-- After so many passes the tree had more than `max` nodes. -/
  | tooManyNodes (passes nodes max : Nat)
  /-- All passes were made, and the last one still changed something. -/
  | outOfPasses (max : Nat)
  deriving DecidableEq

/-- The result of a simplification and how it came about. -/
structure SimplifyReport (K : Type) where
  result : Expr K
  changes : List (Change K)
  outcome : SimplifyOutcome

/-- The steps that were taken, one for each change. -/
def SimplifyReport.steps {K : Type} (report : SimplifyReport K) : List Step :=
  report.changes.map Change.step

variable {K : Type} [Scalar K]

/-- The number of nodes of a tree, if there are more of them than allowed. -/
def excessNodes? (limit : Option Nat) (e : Expr K) : Option (Nat × Nat) :=
  match limit with
  | none => none
  | some max => if e.nodeCount > max then some (e.nodeCount, max) else none

/-- Goes on with a simplification after `done` passes, when at most `left` more may be made. -/
def simplifyFrom (limits : SimplifyLimits) :
    (left done : Nat) → Expr K → SimplifyReport K
  | 0, _, e => ⟨e, [], .outOfPasses limits.passes⟩
  | left + 1, done, e =>
    let (next, changes) := e.pass
    -- structural equality does not tell the two zeros apart
    if next == e then ⟨next, changes, .fixedPoint (done + 1)⟩
    else
      -- the size only matters after a pass that changed something
      match excessNodes? limits.nodes next with
      | some (nodes, max) => ⟨next, changes, .tooManyNodes (done + 1) nodes max⟩
      | none =>
        let report := simplifyFrom limits left (done + 1) next
        ⟨report.result, changes ++ report.changes, report.outcome⟩

/-- Simplifies an expression and reports how. -/
def simplifyReport (limits : SimplifyLimits) (e : Expr K) : SimplifyReport K :=
  simplifyFrom limits limits.passes 0 e

/-- Simplifies an expression. -/
def simplify (limits : SimplifyLimits) (e : Expr K) : Expr K :=
  (simplifyReport limits e).result

end SymbolicCalculus
