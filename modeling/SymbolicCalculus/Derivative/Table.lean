import SymbolicCalculus.Expr.Basic
import SymbolicCalculus.Source.Diagnostic

/-!
# Derivatives of the functions

`Fn.derivative?` is the table of the derivatives of the functions. Thirteen have an entry; the
cosecant, the secant and the three roundings have none.
-/

namespace SymbolicCalculus

/-- A function has no entry in the table of derivatives. -/
structure UnsupportedDerivative where
  function : Fn
  deriving DecidableEq

namespace UnsupportedDerivative

/-- What is said about the error. -/
def diagnostic (err : UnsupportedDerivative) : Diagnostic where
  message := "cannot symbolically differentiate `" ++ err.function.name ++ "`"
  label := some "this function"
  help := some ("approximate the derivative numerically instead, for example with " ++
    "(f(x + h) - f(x - h)) / 2h")

end UnsupportedDerivative

variable {K : Type} [Scalar K]

/-- The square of an expression. -/
def Expr.squared (e : Expr K) : Expr K := .power e (.number Scalar.two)

/-- The derivative of a function at the point `u`, with respect to `u`. -/
def Fn.derivative? (f : Fn) (u : Expr K) : Except UnsupportedDerivative (Expr K) :=
  let minusOne : Expr K := .number Scalar.minusOne
  match f with
  | .sin => .ok (.call .cos u)
  | .cos => .ok (.product [minusOne, .call .sin u])
  | .tan => .ok (.sum [.plus (Expr.squared (.call .tan u)), .plus (.number 1)])
  | .sinh => .ok (.call .cosh u)
  | .cosh => .ok (.call .sinh u)
  | .tanh => .ok (Expr.squared (.call .sech u))
  | .sech => .ok (.product [minusOne, .call .sech u, .call .tanh u])
  | .csch => .ok (.product [minusOne, .call .coth u, .call .csch u])
  | .cot => .ok (.product [minusOne, Expr.squared (.call .csc u)])
  | .coth => .ok (.product [minusOne, Expr.squared (.call .csch u)])
  | .ln => .ok (.quotient (.number 1) u)
  | .sqrt => .ok (.quotient (.number 1) (.product [.number Scalar.two, .call .sqrt u]))
  | .abs => .ok (.quotient u (.call .abs u))
  | .csc => .error ⟨.csc⟩
  | .sec => .error ⟨.sec⟩
  | .round => .error ⟨.round⟩
  | .ceil => .error ⟨.ceil⟩
  | .floor => .error ⟨.floor⟩

end SymbolicCalculus
