import SymbolicCalculus.Proofs.Derivative.Failure
import SymbolicCalculus.Scalar.Binary64

/-!
# Repeated differentiation

The functions that a derivative calls are known from those of the expression: whatever the table of
derivatives brings in for one of these is called (`DerivedCalls.forward`), and nothing else is, but
for the logarithm and what was called before (`DerivedCalls.backward`).

The table leads from the cotangent to the cosecant, which has no derivative, and from no other
function with a derivative to one without. So an expression has derivatives of every order if it
calls neither the cotangent nor one of the five functions without a derivative
(`differentiateAll_succeeds`).
-/

namespace SymbolicCalculus

/-- The functions that the entry of a function in the table of derivatives calls. -/
def Fn.derivativeCalls : Fn → List Fn
  | .sin => [.cos]
  | .cos => [.sin]
  | .tan => [.tan]
  | .sinh => [.cosh]
  | .cosh => [.sinh]
  | .tanh => [.sech]
  | .sech => [.sech, .tanh]
  | .csch => [.coth, .csch]
  | .cot => [.csc]
  | .coth => [.csch]
  | .sqrt => [.sqrt]
  | .abs => [.abs]
  | .ln | .csc | .sec | .round | .ceil | .floor => []

/-- The functions `gs` are those that a derivative calls of an expression that calls `fs`, up to
the logarithm and to what the expression itself calls. -/
structure DerivedCalls (fs gs : List Fn) : Prop where
  forward : ∀ f ∈ fs, ∀ g ∈ f.derivativeCalls, g ∈ gs
  backward : ∀ g ∈ gs, g = .ln ∨ g ∈ fs ∨ ∃ f ∈ fs, g ∈ f.derivativeCalls

namespace DerivedCalls

variable {fs fs' gs gs' hs : List Fn}

theorem nil : DerivedCalls [] [] := ⟨by simp, by simp⟩

theorem singleton (f : Fn) : DerivedCalls [f] f.derivativeCalls :=
  ⟨by simp, fun _ hg => Or.inr (Or.inr ⟨f, List.mem_singleton_self f, hg⟩)⟩

/-- A rule puts the derivatives of two parts together, and besides them only the parts and the
logarithm. -/
theorem append (h : DerivedCalls fs gs) (h' : DerivedCalls fs' gs')
    (hparts : ∀ g, g ∈ gs ∨ g ∈ gs' → g ∈ hs)
    (honly : ∀ g ∈ hs, g = .ln ∨ g ∈ fs ∨ g ∈ fs' ∨ g ∈ gs ∨ g ∈ gs') :
    DerivedCalls (fs ++ fs') hs := by
  constructor
  · intro f hf g hg
    rcases List.mem_append.mp hf with hf | hf
    · exact hparts g (Or.inl (h.forward f hf g hg))
    · exact hparts g (Or.inr (h'.forward f hf g hg))
  · intro g hg
    have hleft := h.backward g
    have hright := h'.backward g
    rcases honly g hg with rfl | hg | hg | hg | hg <;> grind

/-- Properties of functions that the logarithm has and that pass to the entries of the table pass
from an expression to its derivative. -/
theorem forall_mem {P : Fn → Prop} (h : DerivedCalls fs gs) (hln : P .ln)
    (htable : ∀ f, P f → ∀ g ∈ f.derivativeCalls, P g) (hfs : ∀ f ∈ fs, P f) : ∀ g ∈ gs, P g := by
  intro g hg
  rcases h.backward g hg with rfl | hg | ⟨f, hf, hg⟩
  · exact hln
  · exact hfs g hg
  · exact htable f (hfs f hf) g hg

end DerivedCalls

variable {K : Type} [Scalar K]

/-! ## The rules -/

theorem mem_calls_derivative? {f g : Fn} {u outer : Expr K} (h : f.derivative? u = .ok outer) :
    g ∈ outer.calls ↔ g ∈ f.derivativeCalls ∨ g ∈ u.calls := by
  cases f <;> cases h <;> simp [Fn.derivativeCalls, Addend.plus, Expr.squared] <;> grind

namespace Expr

variable {f df g dg : Expr K}

omit [Scalar K] in
theorem calls_productRule :
    (productRule f df g dg).calls = df.calls ++ g.calls ++ (f.calls ++ dg.calls) := by
  simp [productRule, Addend.plus]

theorem calls_quotientRule :
    (quotientRule f df g dg).calls = df.calls ++ g.calls ++ (f.calls ++ dg.calls) ++ g.calls := by
  simp [quotientRule, squared, Addend.plus, Addend.minus]

omit [Scalar K] in
theorem calls_exponentialRule : (exponentialRule f df).calls = df.calls ++ f.calls := by
  simp [exponentialRule]

/-- The rule for powers calls what its four parts call, and the logarithm. -/
theorem calls_powerRule : (powerRule f df g dg).calls =
    df.calls ++ f.calls ++ g.calls ++ (.ln :: f.calls ++ dg.calls) ++ (.ln :: f.calls ++ g.calls) := by
  simp [powerRule, calls_exponentialRule, calls_productRule]

/-! ## Derivatives -/

variable {x : String}

mutual

/-- The calls of a derivative, before it is normalized, are derived from those of the expression. -/
theorem calls_derivative {e d : Expr K} (h : e.derivative x = .ok d) :
    DerivedCalls e.calls d.calls := by
  -- recursion as in `derivative`; every rule keeps both parts and their derivatives, as `append`
  -- asks for
  match e with
  | number _ | constant _ | var _ =>
    cases h
    simpa using DerivedCalls.nil
  | sum as =>
    obtain ⟨das, has, hd⟩ := bind_eq_ok_iff.mp h
    cases hd
    rw [calls_sum, calls_sum]
    exact calls_addendDerivatives has
  | product es =>
    rw [calls_product]
    exact calls_productDerivative h
  | quotient f g =>
    obtain ⟨df, hdf, h⟩ := bind_eq_ok_iff.mp h
    obtain ⟨dg, hdg, hd⟩ := bind_eq_ok_iff.mp h
    cases hd
    rw [calls_quotient]
    exact (calls_derivative hdf).append (calls_derivative hdg) (by grind [calls_quotientRule])
      (by grind [calls_quotientRule])
  | power b u =>
    rw [derivative] at h
    split at h
    · next he =>
      obtain ⟨du, hdu, hd⟩ := bind_eq_ok_iff.mp h
      cases hd
      rw [calls_power, calls_eq_nil_of_isE he]
      exact DerivedCalls.nil.append (calls_derivative hdu) (by grind [calls_exponentialRule])
        (by grind [calls_exponentialRule])
    · obtain ⟨db, hdb, h⟩ := bind_eq_ok_iff.mp h
      obtain ⟨du, hdu, hd⟩ := bind_eq_ok_iff.mp h
      cases hd
      rw [calls_power]
      exact (calls_derivative hdb).append (calls_derivative hdu) (by grind [calls_powerRule])
        (by grind [calls_powerRule])
  | call f u =>
    obtain ⟨outer, houter, h⟩ := bind_eq_ok_iff.mp h
    obtain ⟨du, hdu, hd⟩ := bind_eq_ok_iff.mp h
    cases hd
    -- the argument of the call stands inside the entry of the table
    have hcalls (g : Fn) : g ∈ (product [du, outer]).calls ↔
        g ∈ du.calls ∨ g ∈ f.derivativeCalls ∨ g ∈ u.calls := by
      simp [mem_calls_derivative? houter]
    rw [calls_call, ← List.singleton_append]
    exact (DerivedCalls.singleton f).append (calls_derivative hdu) (by grind) (by grind)

theorem calls_addendDerivatives {as das : List (Addend (Expr K))}
    (h : addendDerivatives x as = .ok das) :
    DerivedCalls (as.flatMap fun a => a.expr.calls) (das.flatMap fun a => a.expr.calls) := by
  match as with
  | [] =>
    cases h
    exact .nil
  | ⟨e, s⟩ :: as =>
    obtain ⟨de, hde, h⟩ := bind_eq_ok_iff.mp h
    obtain ⟨des, hdes, hd⟩ := bind_eq_ok_iff.mp h
    cases hd
    exact (calls_derivative hde).append (calls_addendDerivatives hdes) (by grind) (by grind)

theorem calls_productDerivative {es : List (Expr K)} {d : Expr K}
    (h : productDerivative x es = .ok d) : DerivedCalls (es.flatMap calls) d.calls := by
  match es with
  | [] =>
    cases h
    simpa using DerivedCalls.nil
  | [f] =>
    rw [List.flatMap_singleton]
    exact calls_derivative h
  | f :: g :: fs =>
    obtain ⟨df, hdf, h⟩ := bind_eq_ok_iff.mp h
    obtain ⟨dfs, hdfs, hd⟩ := bind_eq_ok_iff.mp h
    cases hd
    have hcalls : (productRule f df (product (g :: fs)).collapse dfs).calls =
        df.calls ++ (g :: fs).flatMap calls ++ (f.calls ++ dfs.calls) := by
      rw [calls_productRule, calls_collapse, calls_product]
    rw [List.flatMap_cons]
    exact (calls_derivative hdf).append (calls_productDerivative hdfs) (by grind) (by grind)

end

end Expr

/-- The calls of a derivative are derived from those of the expression. -/
theorem calls_differentiate {x : String} {e d : Expr K} (h : differentiate x e = .ok d) :
    DerivedCalls e.calls d.calls := by
  obtain ⟨d, hd, h⟩ := bind_eq_ok_iff.mp h
  cases h
  rw [Expr.calls_normalize]
  exact Expr.calls_derivative hd

/-! ## Differentiating again and again -/

/-- The derivative with respect to one variable after the other. -/
def differentiateAll : List String → Expr K → Except UnsupportedDerivative (Expr K)
  | [], e => .ok e
  | x :: xs, e => do
    let d ← differentiate x e
    differentiateAll xs d

/-- The table brings in none of the functions without a derivative, and not the cotangent, unless
one of them was called before. -/
theorem exists_differentiateAll {xs : List String} {e : Expr K}
    (he : ∀ f ∈ e.calls, f ∉ .cot :: Fn.underivable) : ∃ d, differentiateAll xs e = .ok d := by
  induction xs generalizing e with
  | nil => exact ⟨e, rfl⟩
  | cons x xs ih =>
      obtain ⟨d, hd⟩ := exists_differentiate_iff.mpr fun f hf hmem =>
        he f hf (List.mem_cons_of_mem .cot hmem)
      -- the functions allowed are closed under the table, by a look at each of its entries
      have hcalls : ∀ g ∈ d.calls, g ∉ .cot :: Fn.underivable :=
        (calls_differentiate hd).forall_mem (by decide) (fun f => by cases f <;> decide) he
      obtain ⟨d', hd'⟩ := ih hcalls
      exact ⟨d', bind_eq_ok_iff.mpr ⟨d, hd, hd'⟩⟩

/-- The derivative of an expression that calls the cotangent calls the cosecant, and no other
function without a derivative. -/
theorem differentiate_differentiate_of_cot {x y : String} {e : Expr K} (hcot : .cot ∈ e.calls)
    (he : ∀ f ∈ e.calls, f ∉ Fn.underivable) :
    ∃ d, differentiate x e = .ok d ∧ differentiate y d = .error ⟨.csc⟩ := by
  obtain ⟨d, hd⟩ := exists_differentiate_iff.mpr he
  have hcalls := calls_differentiate hd
  have hcsc : .csc ∈ d.calls := hcalls.forward .cot hcot .csc (List.mem_singleton_self _)
  have honly : ∀ g ∈ d.calls, g ∈ Fn.underivable → g = .csc :=
    hcalls.forall_mem (by decide) (fun f => by cases f <;> decide)
      fun f hf hmem => absurd hmem (he f hf)
  refine ⟨d, hd, failure?_eq_some_iff.mp ?_⟩
  rw [failure?_differentiate, firstUnsupported_eq_some_iff]
  -- the first unsupported call exists and can only be the cosecant
  obtain ⟨g, hg⟩ : ∃ g, d.calls.find? (fun f => f ∈ Fn.underivable) = some g :=
    Option.isSome_iff_exists.mp (List.find?_isSome.mpr ⟨.csc, hcsc, by decide⟩)
  rw [hg, honly g (List.mem_of_find?_eq_some hg) (by simpa using List.find?_some hg)]

/-- **Higher derivatives.** Differentiating two times or more succeeds if and only if the expression
calls neither the cotangent nor a function without a derivative, whatever the variables are. If it
calls the cotangent and no function without a derivative, it can be differentiated once, and the
second time fails with the cosecant. -/
theorem differentiateAll_succeeds (e : Expr K) (x y : String) (xs : List String) :
    ((∃ d, differentiateAll (x :: y :: xs) e = .ok d) ↔
      ∀ f ∈ [Fn.csc, .sec, .round, .ceil, .floor, .cot], f ∉ e.calls) ∧
    (.cot ∈ e.calls → (∀ f ∈ [Fn.csc, .sec, .round, .ceil, .floor], f ∉ e.calls) →
      (∃ d, differentiate x e = .ok d ∧ differentiate y d = .error ⟨.csc⟩) ∧
        differentiateAll (x :: y :: xs) e = .error ⟨.csc⟩) := by
  have hcot : .cot ∈ e.calls → (∀ f ∈ Fn.underivable, f ∉ e.calls) →
      (∃ d, differentiate x e = .ok d ∧ differentiate y d = .error ⟨.csc⟩) ∧
        differentiateAll (x :: y :: xs) e = .error ⟨.csc⟩ := by
    intro hcot he
    obtain ⟨d, hd, herror⟩ := differentiate_differentiate_of_cot (x := x) (y := y) hcot
      fun f hf hmem => he f hmem hf
    refine ⟨⟨d, hd, herror⟩, ?_⟩
    exact bind_eq_error_iff.mpr (Or.inr ⟨d, hd, bind_eq_error_iff.mpr (Or.inl herror)⟩)
  refine ⟨⟨fun ⟨d, hd⟩ => ?_, fun h => exists_differentiateAll fun f hf hmem => ?_⟩, hcot⟩
  · obtain ⟨d', hd', -⟩ := bind_eq_ok_iff.mp hd
    have he := exists_differentiate_iff.mp ⟨d', hd'⟩
    have hfirst : ∀ f ∈ Fn.underivable, f ∉ e.calls := fun f hf hmem => he f hmem hf
    intro f hf hmem
    -- the first derivative excludes the five functions, and the second one the cotangent
    rcases List.mem_append.mp (show f ∈ Fn.underivable ++ [.cot] from hf) with hf | hf
    · exact hfirst f hf hmem
    · cases List.mem_singleton.mp hf
      cases (hcot hmem hfirst).2.symm.trans hd
  · exact h f (by simpa [Fn.underivable, or_comm, or_assoc, or_left_comm] using hmem) hf

/-- The expression `x ^ cot(y) + ln x` has a derivative with respect to `x`, though the cotangent
does not depend on `x`, and that has none with respect to `y`. -/
theorem differentiateAll_succeeds_cotangent :
    let e : Expr Float := .sum [.plus (.power (.var "x") (.call .cot (.var "y"))),
      .plus (.call .ln (.var "x"))]
    .cot ∈ e.calls ∧ (∀ f ∈ [Fn.csc, .sec, .round, .ceil, .floor], f ∉ e.calls) ∧
      (∃ d, differentiate "x" e = .ok d ∧ differentiate "y" d = .error ⟨.csc⟩) ∧
        differentiateAll ["x", "y"] e = .error ⟨.csc⟩ := by
  intro e
  have hcalls : e.calls = [.cot, .ln] := by simp [e, Addend.plus]
  have hcot : .cot ∈ e.calls := hcalls ▸ by decide
  have hnone : ∀ f ∈ [Fn.csc, .sec, .round, .ceil, .floor], f ∉ e.calls := hcalls ▸ by decide
  exact ⟨hcot, hnone, (differentiateAll_succeeds e "x" "y" []).2 hcot hnone⟩

end SymbolicCalculus
