import SymbolicCalculus.Scalar

/-!
# Expressions

An expression is a tree over numbers, named constants and variables. Sums and products are lists:
`x + (y - z)` is one sum of the three addends `x`, `y` and `z`, of which the last is marked as
subtracted. Lists of no element or of one are allowed, and so are lists directly inside lists of
the same kind; `Expr.normalize` removes the latter and `Expr.collapse` the former.

The operators `+`, `-`, `*`, `/`, unary `-` and `^` on trees build one node. They splice operands
that are lists of the kind being built, and do no further simplification.
-/

namespace SymbolicCalculus

/-- One entry of a sum: what is summed, and whether it is subtracted instead of added. -/
structure Addend (α : Type) where
  /-- The value that is added or subtracted. -/
  expr : α
  /-- The value is subtracted. -/
  subtract : Bool
  deriving DecidableEq

namespace Addend

variable {α β : Type}

/-- An addend that is added. -/
def plus (expr : α) : Addend α := ⟨expr, false⟩

/-- An addend that is subtracted. -/
def minus (expr : α) : Addend α := ⟨expr, true⟩

/-- The addend with its sign flipped. -/
def negate (a : Addend α) : Addend α := ⟨a.expr, !a.subtract⟩

/-- Flips the sign if `negative` holds. -/
def negateIf (negative : Bool) (a : Addend α) : Addend α := if negative then a.negate else a

/-- Changes what is summed and keeps the sign. -/
def map (f : α → β) (a : Addend α) : Addend β := ⟨f a.expr, a.subtract⟩

/-- Adds the addends up from zero, left to right. -/
def total {K : Type} [Scalar K] (addends : List (Addend K)) : K :=
  addends.foldl (fun sum a => if a.subtract then sum - a.expr else sum + a.expr) 0

end Addend

/-- Multiplies the factors up from one, left to right. -/
def Scalar.product {K : Type} [Scalar K] (factors : List K) : K :=
  factors.foldl (· * ·) 1

/-- An expression over the numbers `K`. -/
inductive Expr (K : Type) where
  | number (value : K)
  | constant (c : Constant)
  | var (name : String)
  | sum (addends : List (Addend (Expr K)))
  | product (factors : List (Expr K))
  | quotient (dividend divisor : Expr K)
  | power (base exponent : Expr K)
  | call (f : Fn) (arg : Expr K)

namespace Expr

variable {K : Type}

/-! ### Parts of an expression -/

/-- The value of a number. -/
def asNumber? : Expr K → Option K
  | number value => some value
  | _ => none

/-- The name of a variable. -/
def asVar? : Expr K → Option String
  | var name => some name
  | _ => none

/-- The expression is a number. -/
def isNumber : Expr K → Bool
  | number _ => true
  | _ => false

/-- The expression is a sum. -/
def isSum : Expr K → Bool
  | sum _ => true
  | _ => false

/-- The expression is a product. -/
def isProduct : Expr K → Bool
  | product _ => true
  | _ => false

/-- The expression is a quotient. -/
def isQuotient : Expr K → Bool
  | quotient _ _ => true
  | _ => false

/-- The expression is a number that is numerically equal to `value`. -/
def isNumberEq [Scalar K] (value : K) : Expr K → Bool
  | number v => v == value
  | _ => false

/-- The expression as entries of a sum: the addends of a sum, or the expression itself as the only
one. Subtracting a sum subtracts each of its addends, so the signs flip if `negative` holds. -/
def asAddends (negative : Bool) : Expr K → List (Addend (Expr K))
  | sum addends => addends.map (Addend.negateIf negative)
  | e => [⟨e, negative⟩]

/-- The expression as factors of a product: the factors of a product, or the expression itself as
the only one. -/
def asFactors : Expr K → List (Expr K)
  | product factors => factors
  | e => [e]

/-- Replaces a sum or product of fewer than two entries by what it stands for: an empty sum by
zero, an empty product by one, and a single entry by itself. A single subtracted addend has no
simpler form and is left alone. -/
def collapse [Scalar K] : Expr K → Expr K
  | sum [] => number 0
  | sum [⟨e, false⟩] => e
  | product [] => number 1
  | product [e] => e
  | e => e

/-! ### Building expressions -/

/-- The variable with the given name, which has to be one that a formula can write. -/
def ofName? (name : String) : Except InvalidName (Expr K) :=
  if isVariableName name then .ok (var name) else .error ⟨name⟩

instance : Add (Expr K) where
  add a b := sum (a.asAddends false ++ b.asAddends false)

instance : Sub (Expr K) where
  sub a b := sum (a.asAddends false ++ b.asAddends true)

instance : Mul (Expr K) where
  mul a b := product (a.asFactors ++ b.asFactors)

instance : Div (Expr K) where
  div := quotient

instance : HPow (Expr K) (Expr K) (Expr K) where
  hPow := power

/-- Negation is multiplication by minus one. -/
instance [Scalar K] : Neg (Expr K) where
  neg e := number Scalar.minusOne * e

end Expr

end SymbolicCalculus
