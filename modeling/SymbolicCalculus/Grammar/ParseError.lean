import SymbolicCalculus.Source.Diagnostic

/-!
# Why a text is no formula
-/

namespace SymbolicCalculus

/-- The reasons why a text cannot be read as a formula. -/
inductive ParseError where
  /-- There is nothing to read. -/
  | emptyInput
  /-- A parenthesis lacks its partner. It is an opening one if `opening` holds. -/
  | unclosedParenthesis (opening : Bool)
  /-- Nothing stands between two parentheses. -/
  | emptyParenthesis
  /-- Parentheses are nested deeper than `max`. -/
  | nestingTooDeep (max : Nat)
  /-- The tree has more than `max` levels. -/
  | expressionTooDeep (max : Nat)
  /-- A run of text is neither a number nor a name. -/
  | invalidToken (token : String)
  /-- Two operators follow one another. -/
  | adjacentOperators
  /-- An operator lacks an operand. It is the one before it if `leading` holds. -/
  | missingOperand (leading : Bool)
  /-- The text does not come down to one expression. -/
  | invalidSyntax
  deriving DecidableEq

namespace ParseError

/-- What went wrong. -/
def message : ParseError → String
  | emptyInput => "no expression to parse"
  | unclosedParenthesis _ => "unclosed parenthesis"
  | emptyParenthesis => "missing expression inside parenthesis"
  | nestingTooDeep _ => "parentheses are nested too deeply"
  | expressionTooDeep _ => "expression is nested too deeply"
  | invalidToken token => "invalid token `" ++ token ++ "`"
  | adjacentOperators => "two operators in a row"
  | missingOperand _ => "missing operand"
  | invalidSyntax => "invalid syntax"

/-- What is wrong with the place that is pointed at. -/
def label : ParseError → Option String
  | emptyInput => none
  | unclosedParenthesis _ => some "this parenthesis is not closed"
  | emptyParenthesis => some "add an expression here"
  | nestingTooDeep max => some ("this parenthesis exceeds the maximum depth of " ++ toString max)
  | expressionTooDeep max => some ("this expression exceeds the maximum depth of " ++ toString max)
  | invalidToken _ => some "I could not understand this"
  | adjacentOperators => some "add an expression between these operators"
  | missingOperand true => some "this operator needs an expression before it"
  | missingOperand false => some "this operator needs an expression after it"
  | invalidSyntax => some "I could not understand this expression"

/-- What to do about it. -/
def help : ParseError → Option String
  | emptyInput => some "write an expression, such as `3x^2 + 1`"
  | unclosedParenthesis true => some "add a closing parenthesis `)` somewhere after this"
  | unclosedParenthesis false => some "add an opening parenthesis `(` somewhere before this"
  | nestingTooDeep _ => some "try splitting the expression into smaller parts"
  | expressionTooDeep _ =>
    some ("try combining repeated divisions or powers, " ++
      "or splitting the expression into smaller parts")
  | invalidToken _ =>
    some ("variable names may only contain letters and underscores, " ++
      "and numbers look like `2`, `2.5` or `.5`")
  | adjacentOperators =>
    some ("a negative number after `*`, `/`, `+` or `-` must be wrapped in parentheses, " ++
      "like `2*(-3)`")
  | emptyParenthesis => none
  | missingOperand _ => none
  | invalidSyntax => none

/-- What is said about the error. -/
def diagnostic (err : ParseError) : Diagnostic := ⟨err.message, err.label, err.help⟩

end ParseError

end SymbolicCalculus
