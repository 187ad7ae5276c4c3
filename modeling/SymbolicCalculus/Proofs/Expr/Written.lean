import SymbolicCalculus.Expr.Printer

/-!
# Expressions as they are written

The text of an expression does not show everything about it. A negative number is written as a sign
and a positive number, a sum that begins with a subtracted addend begins with a sign, too, and a
list of fewer than two entries is written like what it stands for. `Expr.written` is the expression
that the text shows.
-/

namespace SymbolicCalculus

variable {K : Type}

namespace Expr

section

variable [Scalar K]

/-- A sum does not begin with a subtracted addend: minus one times the addend is added instead. -/
def addFirst : List (Addend (Expr K)) → List (Addend (Expr K))
  | ⟨e, true⟩ :: as => .plus (product [number Scalar.minusOne, e]) :: as
  | as => as

mutual

/-- The expression that the text of an expression shows. A negative number is the product of minus
one and a positive number, a subtracted addend at the start of a sum is its product with minus one,
and a list of fewer than two entries is what it stands for. -/
def written : Expr K → Expr K
  | number v =>
    if Scalar.isNeg v then product [number Scalar.minusOne, number (-v)] else number v
  | constant c => constant c
  | var name => var name
  | sum addends => (sum (addFirst (writtenAddends addends))).collapse
  | product factors => (product (writtenFactors factors)).collapse
  | quotient a b => quotient (written a) (written b)
  | power a b => power (written a) (written b)
  | call f a => call f (written a)

/-- The entries of a sum as they are written. -/
def writtenAddends : List (Addend (Expr K)) → List (Addend (Expr K))
  | [] => []
  | ⟨e, s⟩ :: as => ⟨written e, s⟩ :: writtenAddends as

/-- The entries of a product as they are written. -/
def writtenFactors : List (Expr K) → List (Expr K)
  | [] => []
  | e :: es => written e :: writtenFactors es

end

/-- Terms that are written as they are make a list that is. -/
theorem writtenAddends_eq {as : List (Addend (Expr K))}
    (h : ∀ a ∈ as, a.expr.written = a.expr) : writtenAddends as = as := by
  induction as with
  | nil => rfl
  | cons a as ih =>
      rw [writtenAddends, h a List.mem_cons_self, ih fun b hb => h b (List.mem_cons_of_mem a hb)]

/-- Factors that are written as they are make a list that is. -/
theorem writtenFactors_eq {es : List (Expr K)} (h : ∀ e ∈ es, e.written = e) :
    writtenFactors es = es := by
  induction es with
  | nil => rfl
  | cons e es ih =>
      rw [writtenFactors, h e List.mem_cons_self, ih fun f hf => h f (List.mem_cons_of_mem e hf)]

end

end Expr

end SymbolicCalculus
