import SymbolicCalculus.Proofs.Reals.Table
import SymbolicCalculus.Proofs.Reals.Rules
import SymbolicCalculus.Proofs.Results
import SymbolicCalculus.Derivative.Differentiate

/-!
# Differentiation is right

`Expr.Smooth` collects what an expression needs for its rules of differentiation to apply at a
point: divisors other than zero, positive bases, and arguments at which the functions are smooth.
At such a point the derivative of an expression is defined, and its value is the derivative of the
value of the expression along the variable, the other variables held fixed
(`hasDerivAt_differentiate`).

The proof goes through the rules of differentiation one by one. Each rule is a small tree with
the derivatives of the parts in it, so its value is the right-hand side of the textbook rule.
-/

namespace SymbolicCalculus

namespace Expr

/-! ## Smooth expressions -/

section

variable (σ : String → ℝ)

mutual

/-- Every divisor is other than zero, every base of a power but the constant `e` is positive, and
every function is called where it is smooth. -/
def Smooth : Expr ℝ → Prop
  | number _ => True
  | constant _ => True
  | var _ => True
  | sum addends => AddendsSmooth addends
  | product factors => FactorsSmooth factors
  | quotient a b => Smooth a ∧ Smooth b ∧ b.value σ ≠ 0
  | power b u => Smooth b ∧ Smooth u ∧ (b ≠ constant .e → 0 < b.value σ)
  | call f u => Smooth u ∧ f.Smooth (u.value σ)

/-- All addends of a list are smooth. -/
def AddendsSmooth : List (Addend (Expr ℝ)) → Prop
  | [] => True
  | ⟨e, _⟩ :: as => Smooth e ∧ AddendsSmooth as

/-- All factors of a list are smooth. -/
def FactorsSmooth : List (Expr ℝ) → Prop
  | [] => True
  | e :: es => Smooth e ∧ FactorsSmooth es

end

end

variable {σ : String → ℝ}

/-- The base of a smooth power is positive, since `e` is. -/
theorem base_pos {b : Expr ℝ} (h : b ≠ constant .e → 0 < b.value σ) : 0 < b.value σ := by
  by_cases he : b = constant .e
  · rw [he]
    exact Real.exp_pos 1
  · exact h he

mutual

/-- A smooth expression is defined. -/
theorem Smooth.defined {e : Expr ℝ} (h : e.Smooth σ) : e.Defined σ := by
  cases e with
  | number v => trivial
  | constant c => trivial
  | var name => trivial
  | sum addends => exact AddendsSmooth.defined (show AddendsSmooth σ addends from h)
  | product factors => exact FactorsSmooth.defined (show FactorsSmooth σ factors from h)
  | quotient a b => exact ⟨h.1.defined, h.2.1.defined, h.2.2⟩
  | power b u => exact ⟨h.1.defined, h.2.1.defined, Or.inl (base_pos h.2.2)⟩
  | call f u => exact ⟨h.1.defined, h.2.domain⟩

/-- Smooth addends are defined. -/
theorem AddendsSmooth.defined {as : List (Addend (Expr ℝ))} (h : AddendsSmooth σ as) :
    AddendsDefined σ as := by
  match as with
  | [] => trivial
  | ⟨e, s⟩ :: as => exact ⟨Smooth.defined h.1, AddendsSmooth.defined h.2⟩

/-- Smooth factors are defined. -/
theorem FactorsSmooth.defined {es : List (Expr ℝ)} (h : FactorsSmooth σ es) :
    FactorsDefined σ es := by
  match es with
  | [] => trivial
  | e :: es => exact ⟨Smooth.defined h.1, FactorsSmooth.defined h.2⟩

end

/-! ## The rules of differentiation -/

/-- The value of an expression as the variable `x` varies and the others are held fixed. -/
noncomputable def along (σ : String → ℝ) (x : String) (e : Expr ℝ) : ℝ → ℝ :=
  fun t => e.value (Function.update σ x t)

@[simp] theorem along_self (x : String) (e : Expr ℝ) : e.along σ x (σ x) = e.value σ := by
  rw [along, Function.update_eq_self]

theorem defined_productRule {f df g dg : Expr ℝ} (hf : f.Defined σ) (hdf : df.Defined σ)
    (hg : g.Defined σ) (hdg : dg.Defined σ) : (productRule f df g dg).Defined σ :=
  ⟨⟨hdf, hg, trivial⟩, ⟨hf, hdg, trivial⟩, trivial⟩

theorem value_productRule (f df g dg : Expr ℝ) : (productRule f df g dg).value σ =
    df.value σ * g.value σ + f.value σ * dg.value σ := by
  simp [productRule, Addend.plus]

/-- The rule of a quotient divides by the square of the divisor, which is not zero. -/
theorem defined_quotientRule {f df g dg : Expr ℝ} (hf : f.Defined σ) (hdf : df.Defined σ)
    (hg : g.Defined σ) (hdg : dg.Defined σ) (hzero : g.value σ ≠ 0) :
    (quotientRule f df g dg).Defined σ := by
  refine ⟨⟨⟨hdf, hg, trivial⟩, ⟨hf, hdg, trivial⟩, trivial⟩, (defined_squared g).mpr hg, ?_⟩
  rw [value_squared]
  exact pow_ne_zero 2 hzero

theorem value_quotientRule (f df g dg : Expr ℝ) : (quotientRule f df g dg).value σ =
    (df.value σ * g.value σ - f.value σ * dg.value σ) / g.value σ ^ 2 := by
  simp [quotientRule, Addend.plus, Addend.minus, sub_eq_add_neg]

theorem defined_exponentialRule {u du : Expr ℝ} (hu : u.Defined σ) (hdu : du.Defined σ) :
    (exponentialRule u du).Defined σ :=
  ⟨hdu, ⟨trivial, hu, Or.inl (Real.exp_pos 1)⟩, trivial⟩

theorem value_exponentialRule (u du : Expr ℝ) : (exponentialRule u du).value σ =
    du.value σ * Real.exp 1 ^ u.value σ := by
  show du.value σ * (Real.exp 1 ^ u.value σ * 1) = _
  rw [mul_one]

/-- The rule of a power takes the logarithm of the base and divides by it. -/
theorem defined_powerRule {b db u du : Expr ℝ} (hb : b.Defined σ) (hdb : db.Defined σ)
    (hu : u.Defined σ) (hdu : du.Defined σ) (hpos : 0 < b.value σ) :
    (powerRule b db u du).Defined σ := by
  have hln : (call .ln b).Defined σ := ⟨hb, hpos⟩
  have hdln : (product [db, quotient (number 1) b]).Defined σ :=
    ⟨hdb, ⟨trivial, hb, hpos.ne'⟩, trivial⟩
  exact defined_exponentialRule ⟨hln, hu, trivial⟩ (defined_productRule hln hdln hu hdu)

/-- The rule of a power with a variable base and a variable exponent. -/
theorem value_powerRule (b db u du : Expr ℝ) (hpos : 0 < b.value σ) :
    (powerRule b db u du).value σ =
      (db.value σ / b.value σ * u.value σ + Real.log (b.value σ) * du.value σ) *
        b.value σ ^ u.value σ := by
  -- the rule goes through `e ^ (ln b * u)`, which is `b ^ u` for a positive base
  have hexp : Real.exp 1 ^ (product [call .ln b, u]).value σ = b.value σ ^ u.value σ := by
    rw [← exp_rpow_log_mul hpos]
    simp [Reals.apply]
  rw [powerRule, value_exponentialRule, value_productRule, hexp]
  simp only [value, factorsValue, Reals.scalar_apply, Reals.apply]
  ring

/-! ## The derivative of an expression -/

/-- What is to be shown of a derivative: it is defined, and it is the slope along the variable. -/
def IsDerivativeOf (σ : String → ℝ) (x : String) (f : ℝ → ℝ) (d : Expr ℝ) : Prop :=
  d.Defined σ ∧ HasDerivAt f (d.value σ) (σ x)

/-- The product rule gives the slope of a product of two expressions. -/
theorem isDerivativeOf_product {x : String} {f df dg : Expr ℝ} {g : Expr ℝ} (hf : f.Defined σ)
    (hg : g.Defined σ) (hdf : IsDerivativeOf σ x (f.along σ x) df)
    (hdg : IsDerivativeOf σ x (g.along σ x) dg) :
    IsDerivativeOf σ x (fun t => f.along σ x t * g.along σ x t) (productRule f df g dg) := by
  refine ⟨defined_productRule hf hdf.1 hg hdg.1, (hdf.2.fun_mul hdg.2).congr_deriv ?_⟩
  rw [value_productRule, along_self, along_self]

/-- The quotient rule gives the slope of a quotient. -/
theorem isDerivativeOf_quotient {x : String} {f df g dg : Expr ℝ} (hf : f.Defined σ)
    (hg : g.Defined σ) (hzero : g.value σ ≠ 0) (hdf : IsDerivativeOf σ x (f.along σ x) df)
    (hdg : IsDerivativeOf σ x (g.along σ x) dg) :
    IsDerivativeOf σ x ((quotient f g).along σ x) (quotientRule f df g dg) := by
  have hzero' : g.along σ x (σ x) ≠ 0 := by rwa [along_self]
  refine ⟨defined_quotientRule hf hdf.1 hg hdg.1 hzero,
    (hdf.2.fun_div hdg.2 hzero').congr_deriv ?_⟩
  rw [value_quotientRule, along_self, along_self]

/-- The rule of an exponential gives the slope of a power of `e`. -/
theorem isDerivativeOf_exponential {x : String} {u du : Expr ℝ} (hu : u.Defined σ)
    (hdu : IsDerivativeOf σ x (u.along σ x) du) :
    IsDerivativeOf σ x ((power (constant .e) u).along σ x) (exponentialRule u du) := by
  have hfun : (power (constant .e) u).along σ x = fun t => Real.exp (u.along σ x t) :=
    funext fun t => Real.exp_one_rpow _
  refine ⟨defined_exponentialRule hu hdu.1, ?_⟩
  rw [hfun]
  refine hdu.2.exp.congr_deriv ?_
  rw [value_exponentialRule, Real.exp_one_rpow, along_self, mul_comm]

/-- The rule of a power gives the slope of a power with a positive base. -/
theorem isDerivativeOf_power {x : String} {b db u du : Expr ℝ} (hb : b.Defined σ)
    (hu : u.Defined σ) (hpos : 0 < b.value σ) (hdb : IsDerivativeOf σ x (b.along σ x) db)
    (hdu : IsDerivativeOf σ x (u.along σ x) du) :
    IsDerivativeOf σ x ((power b u).along σ x) (powerRule b db u du) := by
  have hpos' : 0 < b.along σ x (σ x) := by rwa [along_self]
  refine ⟨defined_powerRule hb hdb.1 hu hdu.1 hpos, (hdb.2.rpow hdu.2 hpos').congr_deriv ?_⟩
  rw [value_powerRule b db u du hpos, along_self, along_self, Real.rpow_sub_one hpos.ne']
  ring

/-- The chain rule. -/
theorem isDerivativeOf_call {x : String} {f : Fn} {u du outer : Expr ℝ} (hu : u.Defined σ)
    (hf : f.Smooth (u.value σ)) (houter : f.derivative? u = .ok outer)
    (hdu : IsDerivativeOf σ x (u.along σ x) du) :
    IsDerivativeOf σ x ((call f u).along σ x) (product [du, outer]) := by
  have hd : outer.Defined σ := defined_of_derivative hu hf houter
  have hslope := hasDerivAt_of_derivative hf houter
  rw [← along_self x u] at hslope
  refine ⟨⟨hdu.1, hd, trivial⟩, (hslope.comp (σ x) hdu.2).congr_deriv ?_⟩
  simp [mul_comm]

/-- The rule of an exponential is chosen for the constant `e` as a base only. -/
theorem eq_of_isE {b : Expr ℝ} (h : b.isE = true) : b = constant .e := by
  unfold isE at h
  split at h
  · rfl
  · cases h

mutual

/-- The derivative of a smooth expression is the slope of its value. -/
theorem isDerivativeOf_derivative {x : String} {e d : Expr ℝ} (he : e.Smooth σ)
    (hd : e.derivative x = .ok d) : IsDerivativeOf σ x (e.along σ x) d := by
  cases e with
  | number v =>
      cases hd
      exact ⟨trivial, hasDerivAt_const _ _⟩
  | constant c =>
      cases hd
      exact ⟨trivial, hasDerivAt_const _ _⟩
  | var name =>
      cases hd
      refine ⟨trivial, ?_⟩
      -- the variable itself has slope one, and any other is held fixed
      by_cases hname : name = x
      · have hfun : (var name).along σ x = id := funext fun t => by simp [along, hname]
        rw [hfun]
        exact (hasDerivAt_id _).congr_deriv (by simp [hname])
      · have hfun : (var name).along σ x = fun _ => σ name :=
          funext fun t => by simp [along, Function.update_of_ne hname]
        rw [hfun]
        exact (hasDerivAt_const _ _).congr_deriv (by simp [hname])
  | sum addends =>
      obtain ⟨ds, hds, hd⟩ := bind_eq_ok_iff.mp hd
      cases hd
      exact hasDerivAt_addendDerivatives he hds
  | product factors => exact isDerivativeOf_productDerivative he hd
  | quotient f g =>
      obtain ⟨df, hdf, hd⟩ := bind_eq_ok_iff.mp hd
      obtain ⟨dg, hdg, hd⟩ := bind_eq_ok_iff.mp hd
      cases hd
      exact isDerivativeOf_quotient he.1.defined he.2.1.defined he.2.2
        (isDerivativeOf_derivative he.1 hdf) (isDerivativeOf_derivative he.2.1 hdg)
  | power b u =>
      -- the rule depends on whether the base is `e`
      rw [derivative] at hd
      split at hd
      · next hb =>
          obtain ⟨du, hdu, hd⟩ := bind_eq_ok_iff.mp hd
          cases hd
          rw [eq_of_isE hb]
          exact isDerivativeOf_exponential he.2.1.defined (isDerivativeOf_derivative he.2.1 hdu)
      · obtain ⟨db, hdb, hd⟩ := bind_eq_ok_iff.mp hd
        obtain ⟨du, hdu, hd⟩ := bind_eq_ok_iff.mp hd
        cases hd
        exact isDerivativeOf_power he.1.defined he.2.1.defined (base_pos he.2.2)
          (isDerivativeOf_derivative he.1 hdb) (isDerivativeOf_derivative he.2.1 hdu)
  | call f u =>
      obtain ⟨outer, houter, hd⟩ := bind_eq_ok_iff.mp hd
      obtain ⟨du, hdu, hd⟩ := bind_eq_ok_iff.mp hd
      cases hd
      exact isDerivativeOf_call he.1.defined he.2 houter (isDerivativeOf_derivative he.1 hdu)

/-- Sums are differentiated addend by addend. -/
theorem hasDerivAt_addendDerivatives {x : String} {as ds : List (Addend (Expr ℝ))}
    (has : AddendsSmooth σ as) (hds : addendDerivatives x as = .ok ds) :
    AddendsDefined σ ds ∧
      HasDerivAt (fun t => addendsValue (Function.update σ x t) as) (addendsValue σ ds) (σ x) := by
  match as with
  | [] =>
    cases hds
    exact ⟨trivial, hasDerivAt_const _ _⟩
  | ⟨e, s⟩ :: as =>
    obtain ⟨de, hde, hds⟩ := bind_eq_ok_iff.mp hds
    obtain ⟨rest, hrest, hds⟩ := bind_eq_ok_iff.mp hds
    cases hds
    obtain ⟨hd, hslope⟩ := isDerivativeOf_derivative has.1 hde
    obtain ⟨hdr, hsloper⟩ := hasDerivAt_addendDerivatives has.2 hrest
    refine ⟨⟨hd, hdr⟩, ?_⟩
    -- a subtracted addend has a subtracted slope
    cases s with
    | false => exact hslope.fun_add hsloper
    | true => exact hslope.fun_neg.fun_add hsloper

/-- Products are differentiated by the product rule for the first factor and the rest. -/
theorem isDerivativeOf_productDerivative {x : String} {es : List (Expr ℝ)} {d : Expr ℝ}
    (hes : FactorsSmooth σ es) (hd : productDerivative x es = .ok d) :
    IsDerivativeOf σ x ((product es).along σ x) d := by
  match es with
  | [] =>
    cases hd
    exact ⟨trivial, hasDerivAt_const _ _⟩
  | [e] =>
    have hfun : (product [e]).along σ x = e.along σ x := funext fun t => by simp [along]
    rw [hfun]
    exact isDerivativeOf_derivative hes.1 hd
  | e :: f :: es =>
    obtain ⟨de, hde, hd⟩ := bind_eq_ok_iff.mp hd
    obtain ⟨dfs, hdfs, hd⟩ := bind_eq_ok_iff.mp hd
    cases hd
    -- the other factors enter the rule as one tree, with the value of their product
    have hcollapse : (product (f :: es)).collapse.along σ x = (product (f :: es)).along σ x :=
      funext fun t => value_collapse _
    have hrest : (product (f :: es)).collapse.Defined σ :=
      (defined_collapse _).mpr (FactorsSmooth.defined hes.2)
    have hslope := isDerivativeOf_productDerivative hes.2 hdfs
    rw [← hcollapse] at hslope
    have hproduct := isDerivativeOf_product hes.1.defined hrest
      (isDerivativeOf_derivative hes.1 hde) hslope
    rw [hcollapse] at hproduct
    exact hproduct

end

end Expr

/-- **Differentiation is right.** Where an expression is smooth, its derivative is defined, and the
value of the derivative is the slope of the value of the expression as the variable varies and the
others are held fixed. -/
theorem hasDerivAt_differentiate {x : String} {e d : Expr ℝ} {σ : String → ℝ}
    (hd : differentiate x e = .ok d) (he : e.Smooth σ) :
    d.Defined σ ∧
      HasDerivAt (fun t => e.value (Function.update σ x t)) (d.value σ) (σ x) := by
  obtain ⟨d', hd', h⟩ := bind_eq_ok_iff.mp hd
  cases h
  obtain ⟨hdef, hslope⟩ := Expr.isDerivativeOf_derivative he hd'
  -- the result is the normal form of the derivative
  exact ⟨(Expr.defined_normalize d').mpr hdef, by rwa [Expr.value_normalize]⟩

/-- With an exponent that is another variable: the slope of `x ^ y` at `x = 2` and `y = 3`, read off
its derivative, is `12`. -/
theorem hasDerivAt_differentiate_power :
    let e : Expr ℝ := .power (.var "x") (.var "y")
    let σ : String → ℝ := fun name => if name = "x" then 2 else 3
    ∃ d, differentiate "x" e = .ok d ∧ e.Smooth σ ∧ d.Defined σ ∧ d.value σ = 12 ∧
      HasDerivAt (fun t => e.value (Function.update σ "x" t)) 12 2 := by
  intro e σ
  have hx : σ "x" = 2 := if_pos rfl
  have hy : σ "y" = 3 := if_neg (by decide)
  have he : e.Smooth σ := ⟨trivial, trivial, fun _ => by rw [Expr.value, hx]; norm_num⟩
  obtain ⟨d, hd⟩ : ∃ d, differentiate "x" e = .ok d := ⟨_, rfl⟩
  obtain ⟨hdef, hslope⟩ := hasDerivAt_differentiate hd he
  have hvalue : d.value σ = 12 := by
    cases hd
    rw [Expr.value_normalize, Expr.value_powerRule _ _ _ _ (by rw [Expr.value, hx]; norm_num)]
    have hne : ("y" == "x") = false := by decide
    simp only [Expr.value, hx, hy, hne]
    norm_num
  rw [hvalue, hx] at hslope
  exact ⟨d, hd, he, hdef, hvalue, hslope⟩

end SymbolicCalculus
