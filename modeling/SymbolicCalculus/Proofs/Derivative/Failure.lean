import SymbolicCalculus.Derivative.Differentiate
import SymbolicCalculus.Proofs.Expr.Calls
import SymbolicCalculus.Proofs.Results

/-!
# Failure of differentiation

Differentiation rebuilds powers and products on the way down, but it comes to every part of a tree
once and in order, and consults the table of derivatives at a call before it goes into the argument.
So it fails if and only if a function without a derivative is called somewhere, and with the first
such call in pre-order (`differentiate_eq_error_iff`). The variable makes no difference.
-/

namespace SymbolicCalculus

/-- The functions that have no entry in the table of derivatives. -/
def Fn.underivable : List Fn := [.csc, .sec, .round, .ceil, .floor]

/-- The error about the first of the given functions that has no derivative. -/
def firstUnsupported (fs : List Fn) : Option UnsupportedDerivative :=
  (fs.find? fun f => f ∈ Fn.underivable).map .mk

theorem firstUnsupported_append (fs gs : List Fn) :
    firstUnsupported (fs ++ gs) = (firstUnsupported fs).or (firstUnsupported gs) := by
  rw [firstUnsupported, List.find?_append, Option.map_or]
  rfl

/-- The error names the first function of the list that has no derivative. -/
theorem firstUnsupported_eq_some_iff {fs : List Fn} {err : UnsupportedDerivative} :
    firstUnsupported fs = some err ↔ fs.find? (fun f => f ∈ Fn.underivable) = some err.function := by
  obtain ⟨f⟩ := err
  simp [firstUnsupported]

theorem firstUnsupported_eq_none_iff {fs : List Fn} :
    firstUnsupported fs = none ↔ ∀ f ∈ fs, f ∉ Fn.underivable := by
  simp [firstUnsupported]

variable {K : Type} [Scalar K]

/-- The table of derivatives fails exactly at the functions without an entry. -/
theorem failure?_derivative? (f : Fn) (u : Expr K) :
    failure? (f.derivative? u) = firstUnsupported [f] := by
  cases f <;> rfl

namespace Expr

omit [Scalar K] in
/-- The base that is not differentiated calls nothing. -/
theorem calls_eq_nil_of_isE {b : Expr K} (h : b.isE = true) : b.calls = [] := by
  unfold isE at h
  split at h
  · exact calls_constant _
  · cases h

variable (x : String)

mutual

/-- Before it is normalized, a derivative fails with the first unsupported call. -/
theorem failure?_derivative (e : Expr K) :
    failure? (e.derivative x) = firstUnsupported e.calls := by
  -- recursion as in `derivative`; the parts of a node are differentiated in the order of their
  -- calls
  match e with
  | number _ | constant _ | var _ => simp [derivative, failure?, firstUnsupported]
  | sum as =>
    rw [derivative, calls_sum, ← failure?_addendDerivatives as]
    exact failure?_bind_pure _ _
  | product es => rw [derivative, calls_product, failure?_productDerivative es]
  | quotient f g =>
    rw [derivative, calls_quotient, firstUnsupported_append, ← failure?_derivative f]
    refine failure?_bind fun df => ?_
    exact (failure?_bind_pure _ _).trans (failure?_derivative g)
  | power b u =>
    rw [derivative, calls_power, firstUnsupported_append]
    split
    · next he =>
      -- the base is Euler's number, so the exponent alone is differentiated
      rw [calls_eq_nil_of_isE he]
      exact (failure?_bind_pure _ _).trans (failure?_derivative u)
    · rw [← failure?_derivative b]
      refine failure?_bind fun db => ?_
      exact (failure?_bind_pure _ _).trans (failure?_derivative u)
  | call f u =>
    rw [derivative, calls_call, ← List.singleton_append, firstUnsupported_append,
      -- the table is consulted before the argument, as a call stands before its argument in
      -- pre-order
      ← failure?_derivative? f u]
    refine failure?_bind fun outer => ?_
    exact (failure?_bind_pure _ _).trans (failure?_derivative u)

/-- The terms of a sum fail with the first unsupported call among them. -/
theorem failure?_addendDerivatives (as : List (Addend (Expr K))) :
    failure? (addendDerivatives x as) = firstUnsupported (as.flatMap fun a => a.expr.calls) := by
  match as with
  | [] => rfl
  | ⟨e, s⟩ :: as =>
    rw [addendDerivatives, List.flatMap_cons, firstUnsupported_append, ← failure?_derivative e]
    refine failure?_bind fun de => ?_
    exact (failure?_bind_pure _ _).trans (failure?_addendDerivatives as)

/-- The factors of a product fail with the first unsupported call among them. -/
theorem failure?_productDerivative (es : List (Expr K)) :
    failure? (productDerivative x es) = firstUnsupported (es.flatMap calls) := by
  match es with
  | [] => rfl
  | [f] => rw [productDerivative, failure?_derivative f, List.flatMap_singleton]
  | f :: g :: fs =>
    rw [productDerivative, List.flatMap_cons, firstUnsupported_append, ← failure?_derivative f]
    · refine failure?_bind fun df => ?_
      exact (failure?_bind_pure _ _).trans (failure?_productDerivative (g :: fs))
    · exact List.cons_ne_nil g fs

end

end Expr

open SymbolicCalculus.Expr

variable {x : String} {e : Expr K}

/-- Normalizing the derivative does not fail, so differentiation fails as the rules do. -/
theorem failure?_differentiate : failure? (differentiate x e) = firstUnsupported e.calls :=
  (failure?_bind_pure _ _).trans (failure?_derivative x e)

/-- An expression has a derivative if and only if it calls no function without one. -/
theorem exists_differentiate_iff :
    (∃ d, differentiate x e = .ok d) ↔ ∀ f ∈ e.calls, f ∉ Fn.underivable := by
  rw [← failure?_eq_none_iff, failure?_differentiate, firstUnsupported_eq_none_iff]

/-- **Differentiation fails exactly on unsupported calls.** Whatever the variable is, it fails if
and only if one of five functions is called somewhere in the expression, and the error names the
function of the first such call in pre-order. -/
theorem differentiate_eq_error_iff (e : Expr K) (x : String) :
    ((∃ err, differentiate x e = .error err) ↔
      ∃ f ∈ [Fn.csc, .sec, .round, .ceil, .floor], ∃ u, call f u ∈ e.preOrder) ∧
    ∀ err, differentiate x e = .error err ↔
      (e.preOrder.filterMap called?).find? (fun f => f ∈ [Fn.csc, .sec, .round, .ceil, .floor]) =
        some err.function := by
  have herror (err : UnsupportedDerivative) :
      differentiate x e = .error err ↔ firstUnsupported e.calls = some err := by
    rw [← failure?_differentiate (x := x), failure?_eq_some_iff]
  refine ⟨?_, fun err => (herror err).trans firstUnsupported_eq_some_iff⟩
  simp only [herror, ← Option.isSome_iff_exists, firstUnsupported, Option.isSome_map,
    List.find?_isSome, decide_eq_true_eq, mem_calls_iff]
  exact ⟨fun ⟨f, hcall, hf⟩ => ⟨f, hf, hcall⟩, fun ⟨f, hf, hcall⟩ => ⟨f, hcall, hf⟩⟩

end SymbolicCalculus
