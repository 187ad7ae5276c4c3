/-!
# Names: functions, constants and variables

A formula speaks of three kinds of names. The eighteen elementary functions and the two constants
form closed tables, each with one spelling; every other run of letters and underscores is a
variable.

`Fn.ofName?` and `Constant.ofName?` invert `name`, and a name is looked up by its whole spelling:
`sinh` is not `sin` followed by `h`, and `Sin` names nothing.
-/

namespace SymbolicCalculus

/-- The elementary functions of one argument. -/
inductive Fn where
  | sin | cos | tan
  | sinh | cosh | tanh
  | sech | csch | cot | coth | csc | sec
  | ln | abs | sqrt
  | round | ceil | floor
  deriving DecidableEq

namespace Fn

/-- Every function, in the order of the table. -/
def all : List Fn :=
  [sin, cos, tan, sinh, cosh, tanh, sech, csch, cot, coth, csc, sec, ln, abs, sqrt, round, ceil,
    floor]

/-- The name a function is called by. -/
def name : Fn → String
  | sin => "sin"
  | cos => "cos"
  | tan => "tan"
  | sinh => "sinh"
  | cosh => "cosh"
  | tanh => "tanh"
  | sech => "sech"
  | csch => "csch"
  | cot => "cot"
  | coth => "coth"
  | csc => "csc"
  | sec => "sec"
  | ln => "ln"
  | abs => "abs"
  | sqrt => "sqrt"
  | round => "round"
  | ceil => "ceil"
  | floor => "floor"

/-- The function with exactly the given name. -/
def ofName? (name : String) : Option Fn :=
  all.find? fun f => f.name == name

theorem mem_all (f : Fn) : f ∈ all := by cases f <;> decide

/-- No two functions share a name, so looking a function's name up finds that function. -/
theorem ofName?_name (f : Fn) : ofName? f.name = some f := by cases f <;> decide

end Fn

/-- The named constants. -/
inductive Constant where
  /-- The ratio of a circle's circumference to its diameter. -/
  | pi
  /-- The base of the natural logarithm. -/
  | e
  deriving DecidableEq

namespace Constant

/-- Every constant, in the order of the table. -/
def all : List Constant := [pi, e]

/-- The name a constant is written by. -/
def name : Constant → String
  | pi => "pi"
  | e => "e"

/-- The constant with exactly the given name. -/
def ofName? (name : String) : Option Constant :=
  all.find? fun c => c.name == name

theorem mem_all (c : Constant) : c ∈ all := by cases c <;> decide

/-- The two names differ, so looking a constant's name up finds that constant. -/
theorem ofName?_name (c : Constant) : ofName? c.name = some c := by cases c <;> decide

end Constant

/-- The characters a variable may be made of: the ASCII letters and the underscore. -/
def isNameChar (c : Char) : Bool := c.isAlpha || c == '_'

/-- A variable's name is one or more letters or underscores; digits are left to numbers. -/
def isVariableName (name : String) : Bool :=
  !name.isEmpty && name.toList.all isNameChar

/-- A name was given for a variable that no formula could write. -/
structure InvalidName where
  name : String
  deriving DecidableEq

/-- What is said of a name that no formula could write. -/
def InvalidName.message (err : InvalidName) : String :=
  "invalid variable name: `" ++ err.name ++ "`"

end SymbolicCalculus
