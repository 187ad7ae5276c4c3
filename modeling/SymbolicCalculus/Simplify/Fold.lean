import SymbolicCalculus.Simplify.Rule

/-!
# Folding operators on numbers

An operator whose operands are all numbers is replaced by its value. A quotient by zero and a power
whose value is infinite or undefined stay as they are written, and functions are never evaluated,
since the value would hide what was asked for.
-/

namespace SymbolicCalculus

namespace Expr

variable {K : Type} [Scalar K]

/-- The value of an operator applied to numbers. -/
def foldedValue? : Expr K → Option K
  | sum addends => do
    let values ← addends.mapM fun a => a.expr.asNumber?.map fun v => (⟨v, a.subtract⟩ : Addend K)
    return Addend.total values
  | product factors => do
    let values ← factors.mapM asNumber?
    return Scalar.product values
  | quotient a b => do
    let a ← a.asNumber?
    let b ← b.asNumber?
    if b == 0 then none else some (a / b)
  | power a b => do
    let a ← a.asNumber?
    let b ← b.asNumber?
    let value := Scalar.pow a b
    if Scalar.isFinite value then some value else none
  | _ => none

end Expr

/-- `2 + 3 = 5`, `2 * 3 = 6`, `6 / 3 = 2`, `2 ^ 3 = 8`. -/
def Rule.fold {K : Type} [Scalar K] : Rule K where
  step := .fold
  replace? e := e.foldedValue?.map .number

end SymbolicCalculus
