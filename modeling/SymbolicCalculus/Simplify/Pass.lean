import SymbolicCalculus.Simplify.Fold
import SymbolicCalculus.Simplify.Fraction
import SymbolicCalculus.Simplify.Power

/-!
# Simplification passes

A pass goes through a tree once, from the leaves up, and takes every node through the seven stages
in order. A rule may change the kind of a node, so each stage looks at what the one before it left.
The pass keeps account of every change it makes.
-/

namespace SymbolicCalculus

/-- One change of a node by a rule. -/
structure Change (K : Type) where
  step : Step
  before : Expr K
  after : Expr K

variable {K : Type} [Scalar K]

/-- The stages that every node goes through. -/
def stages : List (Rule K) :=
  [.flatten, .identity, .absorb, .power, .cancelFactors, .mergePowers, .fold]

/-- Takes a node through the given stages, with the changes that are made. -/
def applyStages : List (Rule K) → Expr K → Expr K × List (Change K)
  | [], e => (e, [])
  | rule :: rules, e =>
    match rule.replace? e with
    | none => applyStages rules e
    -- the stages that are left see the new tree, and the change is recorded before theirs
    | some next =>
      let (result, changes) := applyStages rules next
      (result, ⟨rule.step, e, next⟩ :: changes)

/-- Takes a node through all stages, after the given changes below it. -/
def finishNode (childChanges : List (Change K)) (e : Expr K) : Expr K × List (Change K) :=
  let (result, changes) := applyStages stages e
  (result, childChanges ++ changes)

namespace Expr

mutual

/-- Simplifies the children of a node and then the node itself, with the changes in the order in
which they are made. -/
def pass : Expr K → Expr K × List (Change K)
  | number value => finishNode [] (number value)
  | constant c => finishNode [] (constant c)
  | var name => finishNode [] (var name)
  | sum addends =>
    let (addends, changes) := passAddends addends
    finishNode changes (sum addends)
  | product factors =>
    let (factors, changes) := passFactors factors
    finishNode changes (product factors)
  | quotient a b =>
    let (a, changesA) := pass a
    let (b, changesB) := pass b
    finishNode (changesA ++ changesB) (quotient a b)
  | power a b =>
    let (a, changesA) := pass a
    let (b, changesB) := pass b
    finishNode (changesA ++ changesB) (power a b)
  | call f a =>
    let (a, changes) := pass a
    finishNode changes (call f a)

/-- Simplifies the entries of a sum, left to right. -/
def passAddends : List (Addend (Expr K)) → List (Addend (Expr K)) × List (Change K)
  | [] => ([], [])
  | ⟨e, s⟩ :: as =>
    let (e, changes) := pass e
    let (as, rest) := passAddends as
    (⟨e, s⟩ :: as, changes ++ rest)

/-- Simplifies the factors of a product, left to right. -/
def passFactors : List (Expr K) → List (Expr K) × List (Change K)
  | [] => ([], [])
  | e :: es =>
    let (e, changes) := pass e
    let (es, rest) := passFactors es
    (e :: es, changes ++ rest)

end

end Expr

end SymbolicCalculus
