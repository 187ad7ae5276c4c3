import SymbolicCalculus.Simplify.Gather

/-!
# Rules for fractions

A product of quotients such as `a * (b / c) / d` is seen as one fraction, with the factors `a`, `b`
above the bar and `c`, `d` below. Two rules work on the two lists of factors.

* `Fraction.cancel` takes equal factors out of both lists, and `Fraction.gather` brings the
  numbers of both lists into one factor above the bar.
* `Powers.merge` sees every factor as a power and adds the exponents of equal bases up, those below
  the bar being subtracted.
-/

namespace SymbolicCalculus

/-- A fraction: the factors above the bar and the factors below it. -/
structure Fraction (K : Type) where
  /-- The factors above the bar. -/
  num : List (Expr K)
  /-- The factors below the bar. -/
  den : List (Expr K)

namespace Fraction

variable {K : Type}

/-- The product of two fractions. -/
def mul (a b : Fraction K) : Fraction K := ⟨a.num ++ b.num, a.den ++ b.den⟩

/-- A fraction turned upside down. -/
def inverse (a : Fraction K) : Fraction K := ⟨a.den, a.num⟩

mutual

/-- The fraction that a tree of products and quotients stands for. -/
def ofExpr : Expr K → Fraction K
  | .product factors => ofFactors factors
  | .quotient a b => (ofExpr a).mul (ofExpr b).inverse
  | e => ⟨[e], []⟩

/-- The fraction that a list of factors stands for. -/
def ofFactors : List (Expr K) → Fraction K
  | [] => ⟨[], []⟩
  | e :: es => (ofExpr e).mul (ofFactors es)

end

/-- The fraction that a quotient, or a product with a quotient among its factors, stands for. -/
def ofExpr? (e : Expr K) : Option (Fraction K) :=
  match e with
  | .quotient _ _ => some (ofExpr e)
  | .product factors => if factors.any Expr.isQuotient then some (ofExpr e) else none
  | _ => none

variable [Scalar K]

/-- The product of a list of factors, in its simplest form. -/
def productOf (factors : List (Expr K)) : Expr K := (Expr.product factors).collapse

/-- The fraction as an expression: a quotient, or just a product if nothing is below the bar. -/
def toExpr (a : Fraction K) : Expr K :=
  if a.den.isEmpty then productOf a.num else .quotient (productOf a.num) (productOf a.den)

/-! ### Reducing -/

/-- The list without its first element that is structurally equal to `e`, if it has one. -/
def eraseFirst? (e : Expr K) : List (Expr K) → Option (List (Expr K))
  | [] => none
  | f :: fs => if f == e then some fs else (eraseFirst? e fs).map (f :: ·)

/-- Takes each factor above the bar out together with an equal one below it, if there is one.
Numbers stay, since cancelling zeros would change the value. -/
def cancelFrom : (num den : List (Expr K)) → Fraction K
  | [], den => ⟨[], den⟩
  | e :: num, den =>
    match if e.isNumber then none else eraseFirst? e den with
    -- later factors are compared with what is left below the bar
    | some den => cancelFrom num den
    | none =>
      let rest := cancelFrom num den
      ⟨e :: rest.num, rest.den⟩

/-- Takes factors that are both above and below the bar out of the fraction. -/
def cancel (a : Fraction K) : Fraction K := cancelFrom a.num a.den

/-- The number that a factor below the bar may be divided by. -/
def divisor? (e : Expr K) : Option K :=
  match e.asNumber? with
  | some value => if value == 0 then none else some value
  | none => none

/-- Gathers the numbers of the fraction into one at the end of the factors above the bar. A zero
below the bar stays where it is. -/
def gather (a : Fraction K) : Fraction K :=
  let above := Scalar.product (a.num.filterMap Expr.asNumber?)
  -- one division after the other, each of which is rounded
  let value := (a.den.filterMap divisor?).foldl (· / ·) above
  let num := a.num.filter fun e => !e.isNumber
  let den := a.den.filter fun e => (divisor? e).isNone
  ⟨if value == 1 then num else num ++ [.number value], den⟩

end Fraction

/-! ### Merging exponents -/

/-- Factors as powers: pairs of a base and an exponent. -/
abbrev Powers (K : Type) := List (Expr K × Expr K)

namespace Powers

variable {K : Type} [Scalar K]

/-- A factor as a power. A factor that is none has the exponent one. -/
def ofFactor : Expr K → Expr K × Expr K
  | .power base exponent => (base, exponent)
  | e => (e, .number 1)

/-- The power of a base, in its simplest form. -/
def toFactor (base exponent : Expr K) : Expr K :=
  if exponent.isNumberEq 0 then .number 1
  else if exponent.isNumberEq 1 then base
  else .power base exponent

/-- The sum of two exponents, or their difference if `subtract` holds, with the numbers gathered. -/
def addExponents (a b : Expr K) (subtract : Bool) : Expr K :=
  match (Expr.sum [.plus a, ⟨b, subtract⟩]).normalize with
  -- exponents that are sums themselves are merged into this one
  | .sum addends => Expr.gatherSum addends
  | e => e

/-- Adds an exponent to that of the first power with the given base, or subtracts it from there, if
there is such a power. -/
def raise? (base exponent : Expr K) (subtract : Bool) : Powers K → Option (Powers K)
  | [] => none
  | (b, x) :: powers =>
    if b == base then some ((b, addExponents x exponent subtract) :: powers)
    else (raise? base exponent subtract powers).map ((b, x) :: ·)

/-- Multiplies by one more power. -/
def insert (powers : Powers K) (p : Expr K × Expr K) : Powers K :=
  (raise? p.1 p.2 false powers).getD (powers ++ [p])

/-- The powers of a product, with one exponent for each base, in the order of their first
occurrences. -/
def ofFactors (factors : List (Expr K)) : Powers K :=
  (factors.map ofFactor).foldl insert []

/-- Divides the powers `num` by those of `den`. A base of both takes the difference of its
exponents, and the powers of `den` with another base are left below. -/
def divide : (num den : Powers K) → Powers K × Powers K
  | num, [] => (num, [])
  | num, p :: den =>
    match raise? p.1 p.2 true num with
    -- the exponent was subtracted above, so nothing is left of the power below
    | some num => divide num den
    | none =>
      let rest := divide num den
      (rest.1, p :: rest.2)

/-- The powers above and below the bar of a fraction, with one exponent for each base. -/
def merge (a : Fraction K) : Powers K × Powers K :=
  divide (ofFactors a.num) (ofFactors a.den)

/-- The factors that powers stand for. -/
def toFactors (powers : Powers K) : List (Expr K) :=
  powers.map fun p => toFactor p.1 p.2

/-- The fraction with the exponents of each base merged. Factors of one are dropped above the
bar. -/
def mergedFraction (a : Fraction K) : Fraction K :=
  let (num, den) := merge a
  ⟨(toFactors num).filter fun e => !e.isNumberEq 1, toFactors den⟩

end Powers

namespace Rule

variable {K : Type} [Scalar K]

/-- `(a * b) / (b * c) = a / c`, `(2 * a) / (4 * b) = (a * 0.5) / b`. -/
def cancelFactors : Rule K where
  step := .cancel
  replace? e := do
    let fraction ← Fraction.ofExpr? e
    ifChanged e fraction.cancel.gather.toExpr

/-- The fraction whose exponents are merged. A product without a quotient among its factors is taken
as it is, with nothing below the bar. -/
def fractionToMerge? (e : Expr K) : Option (Fraction K) :=
  match e with
  | .product factors =>
    if factors.any Expr.isQuotient then Fraction.ofExpr? e else some ⟨factors, []⟩
  | _ => Fraction.ofExpr? e

/-- `a * a ^ b = a ^ (1 + b)`, `a ^ b / a ^ c = a ^ (b - c)`. -/
def mergePowers : Rule K where
  step := .merge
  replace? e := do
    let fraction ← fractionToMerge? e
    ifChanged e (Powers.mergedFraction fraction).toExpr

end Rule

end SymbolicCalculus
