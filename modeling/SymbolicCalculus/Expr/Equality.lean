import SymbolicCalculus.Expr.Basic

/-!
# Structural equality and hashing

Two expressions are structurally equal when they are the same kind of node with structurally
equal children in the same places. Order counts: `x + y` and `y + x` differ. Numbers are compared
by `Scalar.same`, which takes every undefined value to be equal to itself, so that the relation is
reflexive.

The hash of an expression is taken of the sequence of its *marks*: the kind of each node in
pre-order, followed by the length of its list or by what the leaf holds. The mark of a number is its
code (`Scalar.code`), which it shares with the numbers that count as the same.
-/

namespace SymbolicCalculus

namespace Expr

variable {K : Type}

/-! ### Structural equality -/

section same

variable [Scalar K]

mutual

/-- The expressions are structurally equal. -/
def same : Expr K → Expr K → Bool
  | number a, number b => Scalar.same a b
  | constant a, constant b => a == b
  | var a, var b => a == b
  | sum as, sum bs => sameAddends as bs
  | product as, product bs => sameFactors as bs
  | quotient a b, quotient c d => same a c && same b d
  | power a b, power c d => same a c && same b d
  | call f a, call g b => f == g && same a b
  | _, _ => false

/-- The sums agree entry by entry, signs included. -/
def sameAddends : List (Addend (Expr K)) → List (Addend (Expr K)) → Bool
  | [], [] => true
  | ⟨a, s⟩ :: as, ⟨b, t⟩ :: bs => same a b && s == t && sameAddends as bs
  | _, _ => false

/-- The products agree factor by factor. -/
def sameFactors : List (Expr K) → List (Expr K) → Bool
  | [], [] => true
  | a :: as, b :: bs => same a b && sameFactors as bs
  | _, _ => false

end

end same

instance [Scalar K] : BEq (Expr K) where
  beq := same

/-! ### Hashing -/

/-- One mark of the sequence that an expression is hashed by. -/
inductive Mark where
  /-- The kind of a node. -/
  | kind (index : Nat)
  | length (n : Nat)
  | code (bits : UInt64)
  | name (text : String)
  /-- A constant, by its place in the table. -/
  | constant (c : Constant)
  | fn (f : Fn)
  | sign (subtract : Bool)
  deriving DecidableEq

section marks

variable [Scalar K] [Encoding K]

mutual

/-- The marks of an expression, in pre-order. -/
def marks : Expr K → List Mark
  | number value => [.kind 0, .code (Scalar.code value)]
  | constant c => [.kind 1, .constant c]
  | var name => [.kind 2, .name name]
  -- the length tells where the list ends, so the marks of different lists never run together
  | sum addends => .kind 3 :: .length addends.length :: addendMarks addends
  | product factors => .kind 4 :: .length factors.length :: factorMarks factors
  | quotient a b => .kind 5 :: (marks a ++ marks b)
  | power a b => .kind 6 :: (marks a ++ marks b)
  | call f a => .kind 7 :: .fn f :: marks a

/-- The marks of the entries of a sum, each followed by its sign. -/
def addendMarks : List (Addend (Expr K)) → List Mark
  | [] => []
  | ⟨e, s⟩ :: as => marks e ++ .sign s :: addendMarks as

/-- The marks of the factors of a product. -/
def factorMarks : List (Expr K) → List Mark
  | [] => []
  | e :: es => marks e ++ factorMarks es

end

end marks

/-- The hash of one mark. -/
def Mark.hash : Mark → UInt64
  | .kind index => mixHash 11 (Hashable.hash index)
  | .length n => mixHash 13 (Hashable.hash n)
  | .code bits => mixHash 17 bits
  | .name text => mixHash 19 (Hashable.hash text)
  | .constant c => mixHash 23 (Hashable.hash c.name)
  | .fn f => mixHash 29 (Hashable.hash f.name)
  | .sign subtract => mixHash 31 (Hashable.hash subtract)

/-- The hash of an expression depends on its marks alone. -/
def hash [Scalar K] [Encoding K] (e : Expr K) : UInt64 :=
  e.marks.foldl (fun h m => mixHash h m.hash) 7

instance [Scalar K] [Encoding K] : Hashable (Expr K) where
  hash := hash

end Expr

end SymbolicCalculus
