import SymbolicCalculus.Decimal.Numeral
import SymbolicCalculus.Grammar.Chain
import SymbolicCalculus.Grammar.Segment

/-!
# Numbers and names

A fragment is a segment whose group, if it is one, has been read. What is left to read in a list of
fragments is the raw text, in three steps.

1. Numerals are split off the front of a text, and a multiplication is put between a numeral and
   what follows it. So `3x` is three times `x`.
2. The name of a function right before a group becomes a call of it.
3. Any other text has to be the name of a constant or of a variable.
-/

namespace SymbolicCalculus

/-- A segment whose group has been read. -/
inductive Fragment (K : Type) where
  /-- Text that has not been read yet. -/
  | raw (text : List Glyph)
  | operator (op : Operator) (span : Span)
  /-- A group, which may still turn out to be the argument of a function. -/
  | group (x : Operand K)
  /-- An operand that is not a group. -/
  | operand (x : Operand K)

namespace Fragment

variable {K : Type}

/-! ### Numbers -/

/-- The number that a numeral stands for. -/
def ofNumeral [Literal K] (numeral : List Glyph) : Except (Located ParseError) (Fragment K) :=
  let span := Glyph.cover numeral
  match Decimal.read? (numeral.map Glyph.char) with
  | some (digits, places) => .ok (operand (.atom (.number (Literal.ofDecimal digits places)) span))
  | none => .error (.atSpan (.invalidToken (Glyph.text numeral)) span)

/-- Splits all numerals off the front of a text, with a multiplication after each numeral that
something follows. The multiplication was not written anywhere, so its span is empty. -/
def ofText [Literal K] : List Glyph → Except (Located ParseError) (List (Fragment K))
  | [] => .ok []
  | g :: gs =>
    match Decimal.numeralLength ((g :: gs).map Glyph.char) with
    | 0 => .ok [raw (g :: gs)]
    | n + 1 => do
      -- the first `n + 1` characters are the longest numeral
      let numeral := g :: gs.take n
      let number ← ofNumeral numeral
      let rest ← ofText (gs.drop n)
      if (gs.drop n).isEmpty then return number :: rest
      else return number :: operator .mul (Glyph.cover numeral).after :: rest
termination_by text => text.length

/-- Splits all numerals off the texts of a list. -/
def readNumerals [Literal K] :
    List (Fragment K) → Except (Located ParseError) (List (Fragment K))
  | [] => .ok []
  | raw text :: fragments => do
    let split ← ofText text
    let rest ← readNumerals fragments
    return split ++ rest
  | fragment :: fragments => do
    let rest ← readNumerals fragments
    return fragment :: rest

/-! ### Names -/

/-- Joins the name of a function with the group right after it. -/
def readCalls (maxDepth : Nat) :
    List (Fragment K) → Except (Located ParseError) (List (Fragment K))
  | [] => .ok []
  | raw text :: group x :: fragments =>
    match Fn.ofName? (Glyph.text text) with
    | some f => do
      let call ← (x.below (.call f) ((Glyph.cover text).through x.span)).limit maxDepth
      let rest ← readCalls maxDepth fragments
      return operand call :: rest
    -- the text may still be a variable that the group is multiplied by
    | none => do
      let rest ← readCalls maxDepth fragments
      return raw text :: group x :: rest
  | fragment :: fragments => do
    let rest ← readCalls maxDepth fragments
    return fragment :: rest

/-- The constant or variable of the given name. The constants come first. -/
def nameExpr? (name : String) : Option (Expr K) :=
  match Constant.ofName? name with
  | some c => some (.constant c)
  | none => if isVariableName name then some (.var name) else none

/-- Reads a fragment as an operand or an operator. -/
def toLink : Fragment K → Except (Located ParseError) (Link K)
  | operator op span => .ok (.operator op span)
  | group x => .ok (.operand x)
  | operand x => .ok (.operand x)
  | raw text =>
    match nameExpr? (Glyph.text text) with
    | some e => .ok (.operand (.atom e (Glyph.cover text)))
    | none => .error (.atSpan (.invalidToken (Glyph.text text)) (Glyph.cover text))

/-! ### All steps -/

variable [Scalar K] [Literal K]

/-- Brings a list of fragments that was read from `span` down to one operand. -/
def toOperand (maxDepth : Nat) (span : Span) (fragments : List (Fragment K)) :
    Except (Located ParseError) (Operand K) := do
  let fragments ← readNumerals fragments
  let fragments ← readCalls maxDepth fragments
  let chain ← fragments.mapM toLink
  Chain.toOperand maxDepth span chain

end Fragment

namespace Segment

variable {K : Type} [Scalar K] [Literal K]

mutual

/-- Reads the groups below a segment. A group counts as an operand that includes its parentheses;
they add no level to the tree. -/
def toFragment (maxDepth : Nat) : Segment → Except (Located ParseError) (Fragment K)
  | raw text => .ok (.raw text)
  | operator op span => .ok (.operator op span)
  | group segments span => do
    let fragments ← toFragments maxDepth segments
    -- errors about the group as a whole point between its parentheses
    let x ← Fragment.toOperand maxDepth span.inner fragments
    return .group ⟨x.expr, span, x.depth⟩

/-- Reads the groups of a list of segments, left to right. -/
def toFragments (maxDepth : Nat) :
    List Segment → Except (Located ParseError) (List (Fragment K))
  | [] => .ok []
  | segment :: segments => do
    let fragment ← toFragment maxDepth segment
    let fragments ← toFragments maxDepth segments
    return fragment :: fragments

end

/-- Brings a list of segments that was read from `span` down to one operand. -/
def toOperand (maxDepth : Nat) (span : Span) (segments : List Segment) :
    Except (Located ParseError) (Operand K) := do
  let fragments ← toFragments maxDepth segments
  Fragment.toOperand maxDepth span fragments

end Segment

end SymbolicCalculus
