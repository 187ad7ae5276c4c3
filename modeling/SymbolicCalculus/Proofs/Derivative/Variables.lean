import SymbolicCalculus.Derivative.Differentiate
import SymbolicCalculus.Proofs.Expr.Scope
import SymbolicCalculus.Proofs.Results

/-!
# Differentiation brings in no variables

A rule of differentiation puts together the parts of a node, their derivatives and numbers. So what
holds of every variable of an expression holds of every variable of its derivative
(`Expr.AllVars.differentiate`). The variable of differentiation itself need not occur.
-/

namespace SymbolicCalculus

variable {K : Type} {P : String → Prop} [Scalar K]

namespace Expr

/-! ## The rules -/

theorem allVars_squared {e : Expr K} : e.squared.AllVars P ↔ e.AllVars P := by
  simp [squared]

/-- The entry of a function in the table of derivatives has the variables of the argument. -/
theorem AllVars.derivative? {f : Fn} {u outer : Expr K} (h : f.derivative? u = .ok outer)
    (hu : u.AllVars P) : outer.AllVars P := by
  cases f <;> cases h <;> simp [Addend.plus, allVars_squared, hu]

variable {b db u du : Expr K}

omit [Scalar K] in
theorem AllVars.productRule (hb : b.AllVars P) (hdb : db.AllVars P) (hu : u.AllVars P)
    (hdu : du.AllVars P) : (productRule b db u du).AllVars P := by
  simp [Expr.productRule, Addend.plus, hb, hdb, hu, hdu]

theorem AllVars.quotientRule (hb : b.AllVars P) (hdb : db.AllVars P) (hu : u.AllVars P)
    (hdu : du.AllVars P) : (quotientRule b db u du).AllVars P := by
  simp [Expr.quotientRule, Addend.plus, Addend.minus, allVars_squared, hb, hdb, hu, hdu]

omit [Scalar K] in
theorem AllVars.exponentialRule (hu : u.AllVars P) (hdu : du.AllVars P) :
    (exponentialRule u du).AllVars P := by
  simp [Expr.exponentialRule, hu, hdu]

/-- The rule for powers brings in no variables. -/
theorem AllVars.powerRule (hb : b.AllVars P) (hdb : db.AllVars P) (hu : u.AllVars P)
    (hdu : du.AllVars P) : (powerRule b db u du).AllVars P := by
  -- a power is differentiated as the exponential of the exponent times the logarithm of the base
  have hlnb : (call .ln b).AllVars P := allVars_call.mpr hb
  have hdlnb : (product [db, quotient (number 1) b]).AllVars P := by simp [hb, hdb]
  exact .exponentialRule (by simp [hb, hu]) (hlnb.productRule hdlnb hu hdu)

/-! ## Derivatives -/

variable {x : String}

mutual

/-- What holds of every variable of an expression holds of those of its derivative before that is
normalized. -/
theorem AllVars.derivative {e d : Expr K} (h : e.derivative x = .ok d) (he : e.AllVars P) :
    d.AllVars P := by
  -- recursion as in `derivative`; each case has the parts, their derivatives and a rule that joins
  -- them
  match e with
  | number _ | constant _ | var _ =>
    cases h
    exact allVars_number
  | sum as =>
    obtain ⟨das, has, hd⟩ := bind_eq_ok_iff.mp h
    cases hd
    exact allVars_sum.mpr (AllVars.addendDerivatives has (allVars_sum.mp he))
  | product es => exact AllVars.productDerivative h (allVars_product.mp he)
  | quotient f g =>
    obtain ⟨hf, hg⟩ := allVars_quotient.mp he
    obtain ⟨df, hdf, h⟩ := bind_eq_ok_iff.mp h
    obtain ⟨dg, hdg, hd⟩ := bind_eq_ok_iff.mp h
    cases hd
    exact hf.quotientRule (AllVars.derivative hdf hf) hg (AllVars.derivative hdg hg)
  | power b u =>
    obtain ⟨hb, hu⟩ := allVars_power.mp he
    rw [Expr.derivative] at h
    split at h
    · obtain ⟨du, hdu, hd⟩ := bind_eq_ok_iff.mp h
      cases hd
      exact hu.exponentialRule (AllVars.derivative hdu hu)
    · obtain ⟨db, hdb, h⟩ := bind_eq_ok_iff.mp h
      obtain ⟨du, hdu, hd⟩ := bind_eq_ok_iff.mp h
      cases hd
      exact hb.powerRule (AllVars.derivative hdb hb) hu (AllVars.derivative hdu hu)
  | call f u =>
    have hu := allVars_call.mp he
    obtain ⟨outer, houter, h⟩ := bind_eq_ok_iff.mp h
    obtain ⟨du, hdu, hd⟩ := bind_eq_ok_iff.mp h
    cases hd
    simp [AllVars.derivative hdu hu, AllVars.derivative? houter hu]

/-- The same for the terms of a sum. -/
theorem AllVars.addendDerivatives {as das : List (Addend (Expr K))}
    (h : addendDerivatives x as = .ok das) (has : ∀ a ∈ as, a.expr.AllVars P) :
    ∀ a ∈ das, a.expr.AllVars P := by
  match as with
  | [] =>
    cases h
    exact has
  | ⟨e, s⟩ :: as =>
    obtain ⟨he, has⟩ := List.forall_mem_cons.mp has
    obtain ⟨de, hde, h⟩ := bind_eq_ok_iff.mp h
    obtain ⟨des, hdes, hd⟩ := bind_eq_ok_iff.mp h
    cases hd
    exact List.forall_mem_cons.mpr ⟨AllVars.derivative hde he, AllVars.addendDerivatives hdes has⟩

/-- The same for the factors of a product. -/
theorem AllVars.productDerivative {es : List (Expr K)} {d : Expr K}
    (h : productDerivative x es = .ok d) (hes : ∀ e ∈ es, e.AllVars P) : d.AllVars P := by
  match es with
  | [] =>
    cases h
    exact allVars_number
  | [f] => exact AllVars.derivative h (List.forall_mem_singleton.mp hes)
  | f :: g :: fs =>
    obtain ⟨hf, hfs⟩ := List.forall_mem_cons.mp hes
    obtain ⟨df, hdf, h⟩ := bind_eq_ok_iff.mp h
    obtain ⟨dfs, hdfs, hd⟩ := bind_eq_ok_iff.mp h
    cases hd
    exact hf.productRule (AllVars.derivative hdf hf)
      (allVars_collapse.mpr (allVars_product.mpr hfs)) (AllVars.productDerivative hdfs hfs)

end

/-- What holds of every variable of an expression holds of every variable of its derivative. -/
theorem AllVars.differentiate {e d : Expr K} (h : differentiate x e = .ok d) (he : e.AllVars P) :
    d.AllVars P := by
  obtain ⟨d, hd, h⟩ := bind_eq_ok_iff.mp h
  cases h
  exact (allVars_normalize d).mpr (AllVars.derivative hd he)

end Expr

end SymbolicCalculus
