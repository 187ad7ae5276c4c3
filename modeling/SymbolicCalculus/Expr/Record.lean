import SymbolicCalculus.Expr.Basic

/-!
# The stored form of an expression

Expressions are stored as records: values made of numbers, texts, truth values, lists and objects
with named fields. A node is an object with one field, which is named after the kind of the node and
holds what the node consists of: `{"Div": [a, b]}`. A function or constant is the text of its
capitalised name.

`Expr.toRecord` writes the stored form and `Expr.ofRecord?` reads it. A number that is infinite or
undefined has no stored form and is written as nothing, which is not read back as a number.
-/

namespace SymbolicCalculus

/-- A stored value. -/
inductive Record (K : Type) where
  | null
  | bool (value : Bool)
  | number (value : K)
  | text (value : String)
  | list (values : List (Record K))
  /-- An object: named values, each name at most once. -/
  | object (fields : List (String × Record K))

/-- A text with its first letter capitalised. -/
def capitalized (text : String) : String :=
  match text.toList with
  | [] => text
  | c :: cs => String.ofList (c.toUpper :: cs)

namespace Record

variable {K : Type}

/-- The number that a record holds. -/
def asNumber? : Record K → Option K
  | number value => some value
  | _ => none

/-- The text that a record holds. -/
def asText? : Record K → Option String
  | text value => some value
  | _ => none

/-- The truth value that a record holds. -/
def asBool? : Record K → Option Bool
  | bool value => some value
  | _ => none

/-- The name that a record holds which stands for one of a closed table of names. It may also be
written as the only field of an object, holding nothing. -/
def asTag? : Record K → Option String
  | text value => some value
  | object [(name, null)] => some name
  | _ => none

/-- The function of a stored name. -/
def asFn? (r : Record K) : Option Fn := do
  let tag ← r.asTag?
  Fn.all.find? fun f => capitalized f.name == tag

/-- The constant of a stored name. -/
def asConstant? (r : Record K) : Option Constant := do
  let tag ← r.asTag?
  Constant.all.find? fun c => capitalized c.name == tag

end Record

namespace Expr

variable {K : Type}

/-! ### Writing -/

section Writing

variable [Scalar K]

/-- A node of the given kind. -/
def node (kind : String) (content : Record K) : Record K := .object [(kind, content)]

/-- The stored form of a number. -/
def numberRecord (value : K) : Record K :=
  if Scalar.isFinite value then .number value else .null

mutual

/-- The stored form of an expression. -/
def toRecord : Expr K → Record K
  | number value => node "Scalar" (numberRecord value)
  | constant c => node "Constant" (.text (capitalized c.name))
  | var name => node "Variable" (.text name)
  | sum addends => node "Add" (.list (addendRecords addends))
  | product factors => node "Mul" (.list (factorRecords factors))
  | quotient a b => node "Div" (.list [toRecord a, toRecord b])
  | power a b => node "Exp" (.list [toRecord a, toRecord b])
  | call f a => node "Call" (.list [.text (capitalized f.name), toRecord a])

/-- The stored forms of the entries of a sum. -/
def addendRecords : List (Addend (Expr K)) → List (Record K)
  | [] => []
  | ⟨e, s⟩ :: as => .object [("expr", toRecord e), ("subtract", .bool s)] :: addendRecords as

/-- The stored forms of the factors of a product. -/
def factorRecords : List (Expr K) → List (Record K)
  | [] => []
  | e :: es => toRecord e :: factorRecords es

end

end Writing

/-! ### Reading -/

mutual

/-- The expression of a stored form. Names of variables are taken as they are. -/
def ofRecord? : Record K → Option (Expr K)
  | .object [("Scalar", r)] => r.asNumber?.map number
  | .object [("Constant", r)] => r.asConstant?.map constant
  | .object [("Variable", r)] => r.asText?.map var
  | .object [("Add", .list rs)] => (addendsOfRecords? rs).map sum
  | .object [("Mul", .list rs)] => (factorsOfRecords? rs).map product
  | .object [("Div", .list [a, b])] => do
    let a ← ofRecord? a
    let b ← ofRecord? b
    return quotient a b
  | .object [("Exp", .list [a, b])] => do
    let a ← ofRecord? a
    let b ← ofRecord? b
    return power a b
  | .object [("Call", .list [f, a])] => do
    let f ← f.asFn?
    let a ← ofRecord? a
    return call f a
  | _ => none

/-- The entries of a stored sum. -/
def addendsOfRecords? : List (Record K) → Option (List (Addend (Expr K)))
  | [] => some []
  | r :: rs => do
    let a ← addendOfRecord? r
    let as ← addendsOfRecords? rs
    return a :: as

/-- An entry of a stored sum: an object with the fields `expr` and `subtract` in any order, any
others being ignored, or a list of the two values. -/
def addendOfRecord? : Record K → Option (Addend (Expr K))
  | .list [e, s] => do
    let e ← ofRecord? e
    let s ← s.asBool?
    return ⟨e, s⟩
  | .object fields => do
    let e ← exprField? fields
    let s ← (fields.lookup "subtract").bind Record.asBool?
    return ⟨e, s⟩
  | _ => none

/-- The expression in the field `expr` of a stored entry of a sum. -/
def exprField? : List (String × Record K) → Option (Expr K)
  | [] => none
  | (name, r) :: fields => if name == "expr" then ofRecord? r else exprField? fields

/-- The factors of a stored product. -/
def factorsOfRecords? : List (Record K) → Option (List (Expr K))
  | [] => some []
  | r :: rs => do
    let e ← ofRecord? r
    let es ← factorsOfRecords? rs
    return e :: es

end

end Expr

end SymbolicCalculus
