import SymbolicCalculus.Derivative.Differentiate
import SymbolicCalculus.Expr.Printer
import SymbolicCalculus.Grammar.Parse
import SymbolicCalculus.Simplify.Simplify

/-!
# Events

What happened during an operation, for those who want to follow it. Events are read off the results
of the operations: a text that was parsed, each change of a simplification and its end, and a
function that could not be differentiated.
-/

namespace SymbolicCalculus

/-- How much an event matters, the least first. -/
inductive Level where
  | trace
  | debug
  | warn
  deriving DecidableEq

namespace Level

/-- The name of a level. -/
def name : Level → String
  | trace => "TRACE"
  | debug => "DEBUG"
  | warn => "WARN"

/-- The rank of a level. -/
def rank : Level → Nat
  | trace => 0
  | debug => 1
  | warn => 2

end Level

/-- Something that happened. -/
inductive Event (K : Type) where
  | parsed (source : String) (e : Expr K)
  | changed (before after : Expr K)
  | simplified (outcome : SimplifyOutcome)
  /-- A function has no derivative. -/
  | noDerivative (f : Fn)

namespace Event

variable {K : Type}

/-- How much the event matters. It is worth a warning when a simplification was cut short. -/
def level : Event K → Level
  | parsed _ _ => .trace
  | changed _ _ => .trace
  | simplified (.fixedPoint _) => .debug
  | simplified (.tooManyNodes _ _ _) => .warn
  | simplified (.outOfPasses _) => .warn
  | noDerivative _ => .debug

/-- The event in words. -/
def message [Scalar K] [Literal K] : Event K → String
  | parsed source e => "parsed `" ++ source ++ "` into " ++ e.toText
  | changed before after => "rewrote " ++ before.toText ++ " to " ++ after.toText
  | simplified (.fixedPoint passes) =>
    "simplification reached a fixed point after " ++ toString passes ++ " passes"
  | simplified (.tooManyNodes passes nodes max) =>
    "stopping simplification after " ++ toString passes ++ " passes: " ++ toString nodes ++
      " nodes exceeds the maximum of " ++ toString max
  | simplified (.outOfPasses max) =>
    "simplification did not reach a fixed point within " ++ toString max ++ " passes"
  | noDerivative f => "no derivative rule for `" ++ f.name ++ "`"

/-- The events of parsing a source text. A failure is told by its error alone. -/
def ofParse {ε : Type} (source : String) : Except ε (Expr K) → List (Event K)
  | .ok e => [parsed source e]
  | .error _ => []

/-- The events of differentiating an expression. -/
def ofDifferentiate {α : Type} : Except UnsupportedDerivative α → List (Event K)
  | .ok _ => []
  | .error err => [noDerivative err.function]

/-- The events of simplifying an expression. -/
def ofSimplify (report : SimplifyReport K) : List (Event K) :=
  report.changes.map (fun c => changed c.before c.after) ++ [simplified report.outcome]

end Event

end SymbolicCalculus
