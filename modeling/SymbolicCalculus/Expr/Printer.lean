import SymbolicCalculus.Expr.Basic

/-!
# Printing

Every operator is printed with its own pair of parentheses, so no rule of precedence is needed to
read the text back: `(3 * (x^2))`. A sum prints the sign of its first addend only if that one is
subtracted, an empty sum prints as `0` and an empty product as `1`. A negative number is set in
parentheses, because its sign would otherwise be read as an operator.
-/

namespace SymbolicCalculus.Expr

variable {K : Type}

/-- The text of a sum whose entries have the given texts. -/
def sumText : List (Addend String) → String
  | [] => "0"
  | first :: rest =>
    let sign := if first.subtract then "-" else ""
    let signed (a : Addend String) := (if a.subtract then " - " else " + ") ++ a.expr
    "(" ++ sign ++ first.expr ++ String.join (rest.map signed) ++ ")"

/-- The text of a product whose factors have the given texts. -/
def productText : List String → String
  | [] => "1"
  | first :: rest => "(" ++ first ++ String.join (rest.map (" * " ++ ·)) ++ ")"

variable [Scalar K] [Literal K]

/-- The text of a number. -/
def numberText (value : K) : String :=
  if Scalar.isNeg value then "(" ++ Literal.toText value ++ ")" else Literal.toText value

mutual

/-- The text of an expression. -/
def toText : Expr K → String
  | number value => numberText value
  | constant c => c.name
  | var name => name
  | sum addends => sumText (addendTexts addends)
  | product factors => productText (factorTexts factors)
  | quotient a b => "(" ++ toText a ++ " / " ++ toText b ++ ")"
  | power a b => "(" ++ toText a ++ "^" ++ toText b ++ ")"
  | call f a => f.name ++ "(" ++ toText a ++ ")"

/-- The texts of the entries of a sum, with their signs. -/
def addendTexts : List (Addend (Expr K)) → List (Addend String)
  | [] => []
  | ⟨e, s⟩ :: as => ⟨toText e, s⟩ :: addendTexts as

/-- The texts of the factors of a product. -/
def factorTexts : List (Expr K) → List String
  | [] => []
  | e :: es => toText e :: factorTexts es

end

instance : ToString (Expr K) where
  toString := toText

end SymbolicCalculus.Expr
