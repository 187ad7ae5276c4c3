import SymbolicCalculus.Simplify.Pass

/-!
# Stages at one node

A stage of several rules takes the first that applies. For quotients and powers the rules of the
stages are told apart by one test of an operand each, so that a stage is a chain of tests.
-/

namespace SymbolicCalculus

open SymbolicCalculus.Expr

variable {K : Type}

/-! ## One stage after another -/

/-- A stage that does not apply is skipped. -/
theorem applyStages_of_none {r : Rule K} {rules : List (Rule K)} {e : Expr K}
    (h : r.replace? e = none) : (applyStages (r :: rules) e).1 = (applyStages rules e).1 := by
  rw [applyStages, h]

/-- The stages after one that applies see the tree that it made. -/
theorem applyStages_of_some {r : Rule K} {rules : List (Rule K)} {e next : Expr K}
    (h : r.replace? e = some next) :
    (applyStages (r :: rules) e).1 = (applyStages rules next).1 := by
  rw [applyStages, h]

/-! ## Stages of several rules -/

variable [Scalar K] (a b : Expr K)

/-- Of the rules for neutral elements, only the division by one is about quotients. -/
theorem replace?_identity_quotient :
    Rule.identity.replace? (quotient a b) = if b.isNumberEq 1 then some a else none := by
  have hsum : Rule.gatherSum.replace? (quotient a b) = none := rfl
  have hproduct : Rule.gatherProduct.replace? (quotient a b) = none := rfl
  have hone : Rule.divideByOne.replace? (quotient a b) =
      if b.isNumberEq 1 then some a else none := rfl
  simp only [Rule.identity, Rule.firstOf, List.findSome?_cons, List.findSome?_nil, hsum, hproduct,
    hone]
  cases b.isNumberEq 1 <;> rfl

/-- Of the rules for zero, only the division of zero is about quotients. -/
theorem replace?_absorb_quotient :
    Rule.absorb.replace? (quotient a b) = if a.isNumberEq 0 then some (number 0) else none := by
  have hproduct : Rule.multiplyByZero.replace? (quotient a b) = none := rfl
  have hzero : Rule.divideZero.replace? (quotient a b) =
      if a.isNumberEq 0 then some (number 0) else none := rfl
  simp only [Rule.absorb, Rule.firstOf, List.findSome?_cons, List.findSome?_nil, hproduct, hzero]
  cases a.isNumberEq 0 <;> rfl

/-- The order of the tests is the order of the rules: an exponent of zero is looked for before a
base of zero. -/
theorem replace?_power :
    Rule.power.replace? (power a b) =
      if b.isNumberEq 0 then some (number 1)
      else if b.isNumberEq 1 then some a
      else if a.isNumberEq 0 then some (number 0)
      else if a.isNumberEq 1 then some (number 1)
      else Rule.expOfLn.replace? (power a b) := by
  have hexponentZero : Rule.exponentZero.replace? (power a b) =
      if b.isNumberEq 0 then some (number 1) else none := rfl
  have hexponentOne : Rule.exponentOne.replace? (power a b) =
      if b.isNumberEq 1 then some a else none := rfl
  have hbaseZero : Rule.baseZero.replace? (power a b) =
      if a.isNumberEq 0 then some (number 0) else none := rfl
  have hbaseOne : Rule.baseOne.replace? (power a b) =
      if a.isNumberEq 1 then some (number 1) else none := rfl
  simp only [Rule.power, Rule.firstOf, List.findSome?_cons, List.findSome?_nil, hexponentZero,
    hexponentOne, hbaseZero, hbaseOne]
  -- with the four tests decided, both sides compute to the same tree
  cases b.isNumberEq 0 <;> cases b.isNumberEq 1 <;> cases a.isNumberEq 0 <;>
    cases a.isNumberEq 1 <;> cases Rule.expOfLn.replace? (power a b) <;> rfl

end SymbolicCalculus
