import SymbolicCalculus.Evaluation.Context
import SymbolicCalculus.Source.Diagnostic

/-!
# Evaluation

An expression is evaluated under a context. A variable has the value of the expression it is bound
to, which is evaluated under the same context each time it is looked up. Bindings may refer to each
other in a circle, so the nesting of lookups is bounded by `maxLookups`.

`Expr.valueWith` evaluates a tree when the values of its variables are given; `Context.valueOf`
gives them. A failure inside an expression is the failure of the expression, and of two failures
the leftmost counts.
-/

namespace SymbolicCalculus

/-- The reasons why an expression has no value. -/
inductive EvalError where
  /-- A variable has no binding. `suggestions` are similar names that have one. -/
  | unknownVariable (name : String) (suggestions : List String)
  /-- Lookups are nested deeper than `max`. -/
  | recursionLimit (max : Nat)
  deriving DecidableEq

namespace EvalError

/-- A text as it is quoted in messages. -/
def quoted (text : String) : String := "`" ++ text ++ "`"

/-- What went wrong. -/
def message : EvalError → String
  | unknownVariable name _ => quoted name ++ " is not defined"
  | recursionLimit _ => "maximum recursion depth reached"

/-- What is wrong with the place that is pointed at. -/
def label : EvalError → String
  | unknownVariable _ _ => "this variable"
  | recursionLimit _ => "while evaluating this variable"

/-- What to do about it. -/
def help : EvalError → String
  | unknownVariable name [] => "bind " ++ quoted name ++ " to a value before evaluating"
  | unknownVariable _ [suggestion] => "did you mean " ++ quoted suggestion ++ "?"
  | unknownVariable _ suggestions =>
    "did you mean one of these variables? " ++ ", ".intercalate (suggestions.map quoted)
  | recursionLimit max =>
    "the maximum depth is " ++ toString max ++
      "; check that no binding refers to itself, like `x = x + 1`"

/-- What is said about the error. -/
def diagnostic (err : EvalError) : Diagnostic := ⟨err.message, some err.label, some err.help⟩

end EvalError

namespace Expr

variable {K : Type} [Scalar K]

mutual

/-- The value of an expression whose variables have the values that `lookup` gives. -/
def valueWith (lookup : String → Except EvalError K) : Expr K → Except EvalError K
  | number value => .ok value
  | constant c => .ok (Scalar.constant c)
  | var name => lookup name
  | sum addends => do
    let values ← addendValues lookup addends
    return Addend.total values
  | product factors => do
    let values ← factorValues lookup factors
    return Scalar.product values
  | quotient a b => do
    let a ← valueWith lookup a
    let b ← valueWith lookup b
    return a / b
  | power a b => do
    let a ← valueWith lookup a
    let b ← valueWith lookup b
    return Scalar.pow a b
  | call f a => do
    let a ← valueWith lookup a
    return Scalar.apply f a

/-- The values of the entries of a sum, with their signs. -/
def addendValues (lookup : String → Except EvalError K) :
    List (Addend (Expr K)) → Except EvalError (List (Addend K))
  | [] => .ok []
  | ⟨e, s⟩ :: as => do
    let value ← valueWith lookup e
    let values ← addendValues lookup as
    return ⟨value, s⟩ :: values

/-- The values of the factors of a product. -/
def factorValues (lookup : String → Except EvalError K) :
    List (Expr K) → Except EvalError (List K)
  | [] => .ok []
  | e :: es => do
    let value ← valueWith lookup e
    let values ← factorValues lookup es
    return value :: values

end

end Expr

/-- The greatest number of lookups that may be under way at a time. -/
def maxLookups : Nat := 256

namespace Context

variable {K : Type} [Scalar K]

/-- The value of a variable when `lookups` more lookups may be nested. A name without a binding is
reported as such even when no more may be. -/
def valueOf (context : Context K) : (lookups : Nat) → (name : String) → Except EvalError K
  | lookups, name =>
    match context.get? name with
    | none => .error (.unknownVariable name (context.similar name))
    | some e =>
      match lookups with
      | 0 => .error (.recursionLimit maxLookups)
      -- the variables of the bound expression are looked up in the whole context again
      | lookups + 1 => e.valueWith (context.valueOf lookups)

end Context

/-- The value of an expression under a context. -/
def evaluate {K : Type} [Scalar K] (context : Context K) (e : Expr K) : Except EvalError K :=
  e.valueWith (context.valueOf maxLookups)

end SymbolicCalculus
