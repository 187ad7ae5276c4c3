import SymbolicCalculus.Evaluation.Evaluate
import SymbolicCalculus.Proofs.Expr.Variables
import SymbolicCalculus.Proofs.Results

/-!
# How evaluation fails

Arithmetic never fails, so an expression has no value only when a variable has none. Of several such
variables the leftmost occurrence counts (`failure?_valueWith`).

Under a context a variable fails when it has no binding, when no more lookups may be nested, or when
a variable of its binding fails. `Context.visits` lists the variables that are met when every
variable is followed to its first binding, and evaluation fails as the first of these visits does
that fails in itself (`failure?_evaluate`).
-/

namespace SymbolicCalculus

variable {K : Type}

/-! ## The leftmost variable -/

namespace Expr

variable [Scalar K] {lookup : String → Except EvalError K}

mutual

/-- Evaluation fails as the first variable from the left does whose lookup fails. -/
theorem failure?_valueWith (e : Expr K) : failure? (e.valueWith lookup) =
    e.varOccurrences.findSome? fun name => failure? (lookup name) := by
  cases e with
  | number v => rfl
  | constant c => rfl
  | var name => simp [valueWith]
  | sum addends =>
      rw [valueWith, varOccurrences_sum, ← failure?_addendValues addends,
        failure?_bind_pure]
  | product factors =>
      rw [valueWith, varOccurrences_product, ← failure?_factorValues factors,
        failure?_bind_pure]
  | quotient a b =>
      rw [valueWith, varOccurrences_quotient, List.findSome?_append, ← failure?_valueWith a,
        ← failure?_valueWith b]
      -- the second operand is evaluated only if the first one has a value
      exact failure?_bind fun v => failure?_bind_pure _ _
  | power a b =>
      rw [valueWith, varOccurrences_power, List.findSome?_append, ← failure?_valueWith a,
        ← failure?_valueWith b]
      exact failure?_bind fun v => failure?_bind_pure _ _
  | call f a =>
      rw [valueWith, varOccurrences_call, ← failure?_valueWith a, failure?_bind_pure]

/-- The terms of a sum fail as the first of their variables does. -/
theorem failure?_addendValues (as : List (Addend (Expr K))) : failure? (addendValues lookup as) =
    (addendOccurrences as).findSome? fun name => failure? (lookup name) := by
  match as with
  | [] => rfl
  | ⟨e, s⟩ :: as =>
    rw [addendValues, addendOccurrences_cons, List.findSome?_append, ← failure?_valueWith e,
      ← failure?_addendValues as]
    exact failure?_bind fun v => failure?_bind_pure _ _

/-- The factors of a product fail as the first of their variables does. -/
theorem failure?_factorValues (es : List (Expr K)) : failure? (factorValues lookup es) =
    (factorOccurrences es).findSome? fun name => failure? (lookup name) := by
  match es with
  | [] => rfl
  | e :: es =>
    rw [factorValues, factorOccurrences_cons, List.findSome?_append, ← failure?_valueWith e,
      ← failure?_factorValues es]
    exact failure?_bind fun v => failure?_bind_pure _ _

end

/-- An expression has a value exactly if each of its variables has one. -/
theorem exists_valueWith_eq_ok_iff {e : Expr K} : (∃ v, e.valueWith lookup = .ok v) ↔
    ∀ name ∈ e.varOccurrences, ∃ v, lookup name = .ok v := by
  rw [← failure?_eq_none_iff, failure?_valueWith, List.findSome?_eq_none_iff]
  simp only [failure?_eq_none_iff]

end Expr

/-! ## Visits under a context -/

/-- Searching lists put together is searching one after the other. -/
theorem findSome?_flatMap {α β γ : Type} (f : β → Option γ) (g : α → List β) (as : List α) :
    (as.flatMap g).findSome? f = as.findSome? fun a => (g a).findSome? f := by
  induction as with
  | nil => rfl
  | cons a as ih =>
      rw [List.flatMap_cons, List.findSome?_append, ih, List.findSome?_cons]
      cases (g a).findSome? f <;> rfl

/-- A variable that is met while `lookups` more lookups may be nested. -/
structure Visit where
  name : String
  /-- How many more lookups may be nested. -/
  lookups : Nat
  deriving DecidableEq

namespace Context

/-- The variables met when a variable is followed to its first binding, from left to right and
depth first, beginning with the variable itself. -/
def visitsOf (context : Context K) : (lookups : Nat) → (name : String) → List Visit
  | 0, name => [⟨name, 0⟩]
  | lookups + 1, name =>
    ⟨name, lookups + 1⟩ ::
      match context.get? name with
      | none => []
      | some e => e.varOccurrences.flatMap (visitsOf context lookups)

/-- The variables met when every variable of an expression is followed to its first binding. -/
def visits (context : Context K) (lookups : Nat) (e : Expr K) : List Visit :=
  e.varOccurrences.flatMap (context.visitsOf lookups)

/-- What is wrong with a visit in itself: the variable has no binding, or it has one that must not
be looked up any more. -/
def failureAt? (context : Context K) (visit : Visit) : Option EvalError :=
  if (context.get? visit.name).isNone then
    some (.unknownVariable visit.name (context.similar visit.name))
  else if visit.lookups = 0 then some (.recursionLimit maxLookups)
  else none

variable [Scalar K]

/-- An expression fails as the first of its visits does that fails, if this is so for variables. -/
theorem failure?_valueWith_of_visitsOf {context : Context K} {lookups : Nat}
    (h : ∀ name, failure? (context.valueOf lookups name) =
      (context.visitsOf lookups name).findSome? context.failureAt?) (e : Expr K) :
    failure? (e.valueWith (context.valueOf lookups)) =
      (context.visits lookups e).findSome? context.failureAt? := by
  rw [Expr.failure?_valueWith, visits, findSome?_flatMap]
  exact congrArg (List.findSome? · e.varOccurrences) (funext h)

/-- A variable fails as the first of its visits does that fails. -/
theorem failure?_valueOf (context : Context K) (lookups : Nat) (name : String) :
    failure? (context.valueOf lookups name) =
      (context.visitsOf lookups name).findSome? context.failureAt? := by
  -- the bindings may go in circles, so the induction is on the lookups that may be nested
  induction lookups generalizing name with
  | zero =>
      rw [valueOf, visitsOf, List.findSome?_singleton, failureAt?]
      cases context.get? name <;> rfl
  | succ n ih =>
      rw [valueOf, visitsOf, List.findSome?_cons, failureAt?]
      -- without a binding the visit itself fails; with one, the visits below decide
      cases context.get? name with
      | none => rfl
      | some e => exact failure?_valueWith_of_visitsOf ih e

end Context

/-- Evaluation fails as the first visit does that fails. -/
theorem failure?_evaluate [Scalar K] (context : Context K) (e : Expr K) :
    failure? (evaluate context e) = (context.visits maxLookups e).findSome? context.failureAt? :=
  Context.failure?_valueWith_of_visitsOf (context.failure?_valueOf maxLookups) e

end SymbolicCalculus
