/-!
# Decimal numerals

A numeral is digits with an optional point and optional digits after it, or a point with digits
after it: `3`, `3.`, `3.25`, `.25`. It has no sign and no exponent.

`numeralLength` measures the longest numeral that a text starts with, and `read?` reads a text that
is a numeral as a whole.
-/

namespace SymbolicCalculus.Decimal

/-- The number of digits that a text starts with. -/
def digitsLength (cs : List Char) : Nat := (cs.takeWhile Char.isDigit).length

/-- The length of the longest numeral that a text starts with, or zero if it starts with none: the
digits that come first, and, if a point follows with a digit on either side of it, that point and
the digits after it. -/
def numeralLength (cs : List Char) : Nat :=
  let whole := digitsLength cs
  match cs.drop whole with
  | '.' :: rest =>
    let places := digitsLength rest
    -- a point alone is no numeral
    if whole = 0 ∧ places = 0 then 0 else whole + 1 + places
  | _ => whole

/-- The longest numeral that a text starts with. -/
def leadingNumeral? (text : String) : Option String :=
  match numeralLength text.toList with
  | 0 => none
  | n => some (String.ofList (text.toList.take n))

/-- The value of a digit. -/
def digitValue (c : Char) : Nat := c.toNat - '0'.toNat

/-- The value of a row of digits. -/
def digitsValue (ds : List Char) : Nat := ds.foldl (fun n d => 10 * n + digitValue d) 0

/-- A numeral as the pair of its digits, read as one whole number, and the number of them that
stand after the point. -/
def read? (cs : List Char) : Option (Nat × Nat) :=
  let whole := cs.takeWhile Char.isDigit
  let places := (cs.drop whole.length).drop 1
  let digits := whole ++ places
  match cs.drop whole.length with
  | [] => if whole = [] then none else some (digitsValue digits, 0)
  | '.' :: _ =>
    if digits ≠ [] ∧ places.all Char.isDigit then some (digitsValue digits, places.length)
    else none
  | _ => none

end SymbolicCalculus.Decimal
