import SymbolicCalculus.Proofs.Derivative.Variables
import SymbolicCalculus.Proofs.Evaluation.Failure
import SymbolicCalculus.Proofs.Simplify.Variables
import SymbolicCalculus.Scalar.Binary64

/-!
# What can be evaluated still can be after a transformation

Evaluation depends on the variables of an expression only as far as it succeeds at all: it does
exactly if it succeeds at each variable that occurs. Normalization, simplification and
differentiation bring in no variables, so none of them makes an expression fail under a context
under which it has a value (`exists_evaluate_of_transformation`).
-/

namespace SymbolicCalculus

variable {K : Type} [Scalar K]

open SymbolicCalculus.Expr

omit [Scalar K] in
theorem varNames_subset_iff {e e' : Expr K} :
    e'.varNames ⊆ e.varNames ↔ e'.AllVars (· ∈ e.varNames) := by
  simp only [List.subset_def, AllVars, mem_varNames_iff]

omit [Scalar K] in
theorem allVars_mem_varNames (e : Expr K) : e.AllVars (· ∈ e.varNames) :=
  varNames_subset_iff.mp (List.Subset.refl _)

/-- An expression has a value under a context exactly if each of its variables has one. -/
theorem exists_evaluate_eq_ok_iff {context : Context K} {e : Expr K} :
    (∃ v, evaluate context e = .ok v) ↔
      e.AllVars fun name => ∃ v, context.valueOf maxLookups name = .ok v :=
  exists_valueWith_eq_ok_iff

/-- An expression with no more variables than one that has a value has a value. -/
theorem exists_evaluate_of_varNames_subset {context : Context K} {e e' : Expr K}
    (hsub : e'.varNames ⊆ e.varNames) (h : ∃ v, evaluate context e = .ok v) :
    ∃ v, evaluate context e' = .ok v := by
  rw [exists_evaluate_eq_ok_iff] at h ⊢
  exact (varNames_subset_iff.mp hsub).mono fun name hname => h name (mem_varNames_iff.mp hname)

omit [Scalar K] in
theorem varNames_normalize_subset (e : Expr K) : e.normalize.varNames ⊆ e.varNames :=
  varNames_subset_iff.mpr ((allVars_normalize e).mpr (allVars_mem_varNames e))

theorem varNames_simplify_subset (limits : SimplifyLimits) (e : Expr K) :
    (simplify limits e).varNames ⊆ e.varNames :=
  varNames_subset_iff.mpr ((allVars_mem_varNames e).simplify limits)

theorem varNames_differentiate_subset {x : String} {e d : Expr K}
    (h : differentiate x e = .ok d) : d.varNames ⊆ e.varNames :=
  varNames_subset_iff.mpr (AllVars.differentiate h (allVars_mem_varNames e))

/-- **Transformations keep expressions evaluable.** The variables of the normal form of an
expression, of its simplification under any limits, and of its derivative if it has one, are all
variables of the expression. Under a context that gives the expression a value, each of the three
has a value too. -/
theorem exists_evaluate_of_transformation (e : Expr K) (x : String) (limits : SimplifyLimits) :
    (e.normalize.varNames ⊆ e.varNames ∧ (simplify limits e).varNames ⊆ e.varNames ∧
      ∀ d, differentiate x e = .ok d → d.varNames ⊆ e.varNames) ∧
    ∀ (context : Context K) (v : K), evaluate context e = .ok v →
      (∃ w, evaluate context e.normalize = .ok w) ∧
      (∃ w, evaluate context (simplify limits e) = .ok w) ∧
      ∀ d, differentiate x e = .ok d → ∃ w, evaluate context d = .ok w := by
  have hnormal := varNames_normalize_subset e
  have hsimple := varNames_simplify_subset limits e
  refine ⟨⟨hnormal, hsimple, fun _ => varNames_differentiate_subset⟩, fun context v hv => ?_⟩
  refine ⟨exists_evaluate_of_varNames_subset hnormal ⟨v, hv⟩,
    exists_evaluate_of_varNames_subset hsimple ⟨v, hv⟩, fun d hd => ?_⟩
  exact exists_evaluate_of_varNames_subset (varNames_differentiate_subset hd) ⟨v, hv⟩

/-- With `y` bound to `2` and `x` to `ln y`, the power `x ^ y` has a value, so its derivative with
respect to `y` has one, in which both variables occur. -/
theorem exists_evaluate_of_transformation_power :
    let context : Context Float := [⟨"y", .number 2⟩, ⟨"x", .call .ln (.var "y")⟩]
    let e : Expr Float := .power (.var "x") (.var "y")
    (∃ v, evaluate context e = .ok v) ∧
      ∃ d, differentiate "y" e = .ok d ∧ d.varNames = ["x", "y"] ∧ d.varNames ⊆ e.varNames ∧
        ∃ w, evaluate context d = .ok w := by
  intro context e
  obtain ⟨v, hv⟩ : ∃ v, evaluate context e = .ok v := ⟨_, rfl⟩
  obtain ⟨d, hd, hvars⟩ : ∃ d, differentiate "y" e = .ok d ∧ d.varNames = ["x", "y"] :=
    ⟨_, rfl, by rfl⟩
  obtain ⟨⟨-, -, hsub⟩, hvalue⟩ := exists_evaluate_of_transformation e "y" {}
  exact ⟨⟨v, hv⟩, d, hd, hvars, hsub d hd, (hvalue context v hv).2.2 d hd⟩

end SymbolicCalculus
