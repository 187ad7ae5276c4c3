import SymbolicCalculus.Simplify.Rule

/-!
# Rules for powers

The base or the exponent is zero or one, or the power is `e` to a logarithm. The rules are tried in
the order below, so `0 ^ 0` is one.
-/

namespace SymbolicCalculus

namespace Expr

variable {K : Type}

/-- The argument of a logarithm. -/
def lnArg? : Expr K → Option (Expr K)
  | call .ln u => some u
  | _ => none

/-- The argument of the first logarithm among the factors, with the factors without it. -/
def extractLn? : List (Expr K) → Option (Expr K × List (Expr K))
  | [] => none
  | e :: es =>
    match e.lnArg? with
    | some u => some (u, es)
    | none => (extractLn? es).map fun (u, rest) => (u, e :: rest)

/-- What `e` to the given exponent is, if the exponent is a logarithm or a product with one: the
argument of the logarithm, raised to the product of the other factors. -/
def powerOfLn? [Scalar K] : Expr K → Option (Expr K)
  | call .ln u => some u
  | product factors =>
    (extractLn? factors).map fun (u, rest) =>
      let exponent := (product rest).collapse
      if exponent.isNumberEq 1 then u else power u exponent
  | _ => none

end Expr

namespace Rule

variable {K : Type} [Scalar K]

/-- `a ^ 0 = 1`. -/
def exponentZero : Rule K where
  step := .power
  replace?
    | .power _ b => if b.isNumberEq 0 then some (.number 1) else none
    | _ => none

/-- `a ^ 1 = a`. -/
def exponentOne : Rule K where
  step := .power
  replace?
    | .power a b => if b.isNumberEq 1 then some a else none
    | _ => none

/-- `0 ^ a = 0`. -/
def baseZero : Rule K where
  step := .power
  replace?
    | .power a _ => if a.isNumberEq 0 then some (.number 0) else none
    | _ => none

/-- `1 ^ a = 1`. -/
def baseOne : Rule K where
  step := .power
  replace?
    | .power a _ => if a.isNumberEq 1 then some (.number 1) else none
    | _ => none

/-- `e ^ ln a = a`, `e ^ (ln a * b) = a ^ b`. This undoes what differentiation makes of powers. -/
def expOfLn : Rule K where
  step := .power
  replace?
    | .power (.constant .e) b => b.powerOfLn?
    | _ => none

/-- The rules for powers. -/
def power : Rule K :=
  firstOf .power [exponentZero, exponentOne, baseZero, baseOne, expOfLn]

end Rule

end SymbolicCalculus
