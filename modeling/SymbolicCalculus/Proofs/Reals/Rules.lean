import SymbolicCalculus.Proofs.Reals.Value
import SymbolicCalculus.Proofs.Expr.Numbers
import SymbolicCalculus.Proofs.Simplify.Rewriting

/-!
# Rules keep real values

`Preserves σ e e'` says that `e'` may take the place of `e`: where `e` is defined, `e'` is defined
too and has the same value. A rule is sound when every tree it puts in place of another may take
that place. This module shows it of each rule that looks at a single list or a single operator; the
rules for fractions follow in a module of their own.
-/

namespace SymbolicCalculus

/-- Where `e` is defined, so is `e'`, and with the same value. -/
def Preserves (σ : String → ℝ) (e e' : Expr ℝ) : Prop :=
  e.Defined σ → e'.Defined σ ∧ e'.value σ = e.value σ

namespace Preserves

variable {σ : String → ℝ} {a b c : Expr ℝ}

theorem refl (e : Expr ℝ) : Preserves σ e e := fun h => ⟨h, rfl⟩

/-- Replacements may follow one another. -/
theorem trans (hab : Preserves σ a b) (hbc : Preserves σ b c) : Preserves σ a c := by
  intro ha
  obtain ⟨hb, hvb⟩ := hab ha
  obtain ⟨hc, hvc⟩ := hbc hb
  exact ⟨hc, hvc.trans hvb⟩

end Preserves

/-- What the rule puts in the place of a tree keeps its value, whatever the variables stand for. -/
def Rule.Sound (r : Rule ℝ) : Prop := ∀ σ : String → ℝ, r.Respects (Preserves σ)

namespace Expr

variable {σ : String → ℝ}

/-! ## Numbers among the entries of a list -/

/-- A number test that succeeds tells the value. -/
theorem value_of_isNumberEq {e : Expr ℝ} {v : ℝ} (h : e.isNumberEq v = true) :
    e.value σ = v := by
  cases e <;> simp_all [isNumberEq]

/-- A list of addends is worth its numbers and its other terms together. -/
theorem addendsValue_eq_total_add (as : List (Addend (Expr ℝ))) :
    addendsValue σ as = Addend.total (as.filterMap addendNumber?) +
      addendsValue σ (as.filter fun a => !a.expr.isNumber) := by
  induction as with
  | nil => simp
  | cons a as ih =>
      obtain ⟨e, s⟩ := a
      rw [addendsValue, ih]
      rcases eq_number_or e with ⟨v, rfl⟩ | ⟨hnum, hnone⟩
      · have hsome : addendNumber? ⟨number v, s⟩ = some ⟨v, s⟩ := rfl
        rw [List.filterMap_cons_some hsome, Addend.total_cons,
          List.filter_cons_of_neg (by simp [isNumber]), value, add_assoc]
      · have hnone' : addendNumber? ⟨e, s⟩ = none := by simp [addendNumber?, hnone]
        rw [List.filterMap_cons_none hnone', List.filter_cons_of_pos (by simp [hnum]), addendsValue]
        ring

/-- A list of factors is worth its numbers and its other factors together. -/
theorem factorsValue_eq_product_mul (es : List (Expr ℝ)) :
    factorsValue σ es = Scalar.product (es.filterMap asNumber?) *
      factorsValue σ (es.filter fun e => !e.isNumber) := by
  induction es with
  | nil => simp
  | cons e es ih =>
      rw [factorsValue, ih]
      rcases eq_number_or e with ⟨v, rfl⟩ | ⟨hnum, hnone⟩
      · have hsome : asNumber? (number v) = some v := rfl
        rw [List.filterMap_cons_some hsome, Scalar.product_cons,
          List.filter_cons_of_neg (by simp [isNumber]), value, mul_assoc]
      · rw [List.filterMap_cons_none hnone, List.filter_cons_of_pos (by simp [hnum]), factorsValue]
        ring

/-- Numbers are defined, so only the other terms of a list matter. -/
theorem addendsDefined_filter_isNumber (as : List (Addend (Expr ℝ))) :
    AddendsDefined σ (as.filter fun a => !a.expr.isNumber) ↔ AddendsDefined σ as := by
  induction as with
  | nil => rfl
  | cons a as ih =>
      obtain ⟨e, s⟩ := a
      rcases eq_number_or e with ⟨v, rfl⟩ | ⟨hnum, -⟩
      · rw [List.filter_cons_of_neg (by simp [isNumber]), ih]
        simp
      · rw [List.filter_cons_of_pos (by simp [hnum]), AddendsDefined, AddendsDefined, ih]

/-- Some of the factors that are defined. -/
theorem FactorsDefined.filter {es : List (Expr ℝ)} (h : FactorsDefined σ es)
    (p : Expr ℝ → Bool) : FactorsDefined σ (es.filter p) := by
  induction es with
  | nil => exact h
  | cons e es ih =>
      rw [List.filter_cons]
      split
      · exact ⟨h.1, ih h.2⟩
      · exact ih h.2

/-! ## Gathering -/

@[simp] theorem value_neg (e : Expr ℝ) : (-e).value σ = -e.value σ := by
  show factorsValue σ ([number (-1)] ++ e.asFactors) = _
  simp

@[simp] theorem defined_neg (e : Expr ℝ) : (-e).Defined σ ↔ e.Defined σ := by
  show FactorsDefined σ ([number (-1)] ++ e.asFactors) ↔ _
  simp

/-- A sum of terms is worth its addends, also if there is one term only, or none. -/
theorem value_sumOfTerms (terms : List (Addend (Expr ℝ))) :
    (sumOfTerms terms).value σ = addendsValue σ terms := by
  unfold sumOfTerms
  split
  · simp
  · exact value_collapse _

/-- A sum of terms is defined where its addends are. -/
theorem defined_sumOfTerms (terms : List (Addend (Expr ℝ))) :
    (sumOfTerms terms).Defined σ ↔ AddendsDefined σ terms := by
  unfold sumOfTerms
  split
  · simp
  · exact defined_collapse _

theorem addendsValue_signedAddend (v : ℝ) : addendsValue σ [signedAddend v] = v := by
  unfold signedAddend
  split <;> simp [Addend.plus, Addend.minus]

theorem addendsDefined_signedAddend (v : ℝ) : AddendsDefined σ [signedAddend v] := by
  unfold signedAddend
  split <;> simp [Addend.plus, Addend.minus]

/-- Gathering the numbers of a sum changes neither its value nor where it is defined. -/
theorem gatherSum_spec (as : List (Addend (Expr ℝ))) :
    ((gatherSum as).Defined σ ↔ AddendsDefined σ as) ∧
      (gatherSum as).value σ = addendsValue σ as := by
  have hterms := addendsDefined_filter_isNumber (σ := σ) as
  have hvalue := addendsValue_eq_total_add (σ := σ) as
  rw [← hterms, hvalue]
  -- from here on only the total of the numbers and the list of the other terms matter
  unfold gatherSum
  generalize Addend.total (as.filterMap addendNumber?) = total
  generalize as.filter (fun a => !a.expr.isNumber) = terms
  cases terms with
  | nil => simp
  | cons a terms =>
      rw [defined_sumOfTerms, value_sumOfTerms]
      by_cases htotal : total = 0
      · simp [htotal]
      · simp only [beq_iff_eq, htotal, if_false, addendsDefined_append, addendsValue_append,
          addendsValue_signedAddend]
        exact ⟨and_iff_left (addendsDefined_signedAddend total), add_comm _ _⟩

theorem preserves_gatherSum (as : List (Addend (Expr ℝ))) :
    Preserves σ (sum as) (gatherSum as) := by
  obtain ⟨hdefined, hvalue⟩ := gatherSum_spec (σ := σ) as
  exact fun h => ⟨hdefined.mpr h, hvalue⟩

/-- A product may be replaced by what its numbers are gathered in. Its other factors stay. -/
theorem preserves_gatherProduct (es : List (Expr ℝ)) :
    Preserves σ (product es) (gatherProduct es) := by
  intro h
  have hrest : FactorsDefined σ (es.filter fun e => !e.isNumber) := FactorsDefined.filter h _
  have hvalue := factorsValue_eq_product_mul (σ := σ) es
  unfold gatherProduct
  simp only [Reals.any_isNaN, Bool.false_eq_true, if_false]
  -- only the product of the numbers and the other factors matter
  generalize Scalar.product (es.filterMap asNumber?) = v at hvalue ⊢
  generalize es.filter (fun e => !e.isNumber) = rest at hrest hvalue ⊢
  rw [value, hvalue]
  cases rest with
  | nil => simp
  | cons e rest =>
      simp only [defined_collapse, value_collapse]
      by_cases hv : v = 1
      · simp only [hv, beq_self_eq_true, if_true, one_mul]
        exact ⟨hrest, rfl⟩
      · simp only [beq_iff_eq, hv, if_false, Defined, value, factorsDefined_append,
          factorsValue_append]
        exact ⟨⟨hrest, by simp⟩, by simp; ring⟩

/-! ## Zero and one -/

/-- A factor of zero makes the product zero. -/
theorem factorsValue_eq_zero {es : List (Expr ℝ)} {e : Expr ℝ} (he : e ∈ es)
    (hzero : e.value σ = 0) : factorsValue σ es = 0 := by
  induction es with
  | nil => cases he
  | cons f es ih =>
      rcases List.mem_cons.mp he with rfl | he
      · rw [factorsValue, hzero, zero_mul]
      · rw [factorsValue, ih he, mul_zero]

/-! ## Powers of `e` -/

/-- A logarithm that is taken out of a product leaves the other factors. It has a positive argument
wherever the product is defined. -/
theorem extractLn_spec {es : List (Expr ℝ)} {u : Expr ℝ} {rest : List (Expr ℝ)}
    (h : extractLn? es = some (u, rest)) :
    factorsValue σ es = Real.log (u.value σ) * factorsValue σ rest ∧
      (FactorsDefined σ es → u.Defined σ ∧ 0 < u.value σ ∧ FactorsDefined σ rest) := by
  -- on the factors before the logarithm
  induction es generalizing rest with
  | nil => simp [extractLn?] at h
  | cons e es ih =>
      unfold extractLn? at h
      split at h
      · next w hw =>
          obtain ⟨rfl, rfl⟩ := Prod.mk.inj (Option.some.inj h)
          unfold lnArg? at hw
          split at hw
          · cases hw
            exact ⟨rfl, fun hd => ⟨hd.1.1, hd.1.2, hd.2⟩⟩
          · cases hw
      · next =>
          obtain ⟨⟨w, others⟩, hw, heq⟩ := Option.map_eq_some_iff.mp h
          obtain ⟨rfl, rfl⟩ := Prod.mk.inj heq
          obtain ⟨hvalue, hdefined⟩ := ih hw
          refine ⟨?_, fun hd => ?_⟩
          · rw [factorsValue, factorsValue, hvalue]
            ring
          · obtain ⟨hu, hpos, hothers⟩ := hdefined hd.2
            exact ⟨hu, hpos, hd.1, hothers⟩

/-- `e` to the logarithm of `u` times `v` is `u` to the power `v`. -/
theorem exp_rpow_log_mul {u : ℝ} (hu : 0 < u) (v : ℝ) :
    Real.exp 1 ^ (Real.log u * v) = u ^ v := by
  rw [Real.exp_one_rpow, Real.rpow_def_of_pos hu]

/-- A power of `e` to a logarithm, or to a product with one, may be replaced by a power of the
argument. -/
theorem preserves_powerOfLn {b e' : Expr ℝ} (h : b.powerOfLn? = some e') :
    Preserves σ (power (constant .e) b) e' := by
  intro hd
  have hb : b.Defined σ := hd.2.1
  unfold powerOfLn? at h
  split at h
  · next u =>
      cases h
      refine ⟨hb.1, ?_⟩
      have hexp := exp_rpow_log_mul (u := e'.value σ) hb.2 1
      rw [mul_one, Real.rpow_one] at hexp
      exact hexp.symm
  · next es =>
      obtain ⟨⟨u, rest⟩, hextract, heq⟩ := Option.map_eq_some_iff.mp h
      dsimp only at heq
      obtain ⟨hvalue, hdefined⟩ := extractLn_spec (σ := σ) hextract
      obtain ⟨hu, hpos, hrest⟩ := hdefined hb
      -- the logarithm has a positive argument, so the power of `e` is one of `u`
      have hpower : (power (constant .e) (product es)).value σ =
          u.value σ ^ (product rest).collapse.value σ := by
        rw [value_collapse]
        show Real.exp 1 ^ factorsValue σ es = _
        rw [hvalue, exp_rpow_log_mul hpos]
        rfl
      by_cases hone : (product rest).collapse.isNumberEq 1 = true
      · rw [if_pos hone] at heq
        subst heq
        rw [hpower, value_of_isNumberEq hone, Real.rpow_one]
        exact ⟨hu, rfl⟩
      · rw [if_neg hone] at heq
        subst heq
        rw [hpower]
        exact ⟨⟨hu, (defined_collapse _).mpr hrest, Or.inl hpos⟩, rfl⟩
  · cases h

/-! ## Folding -/

/-- If all addends are numbers, the sum is worth their total. -/
theorem total_of_mapM {as : List (Addend (Expr ℝ))} {values : List (Addend ℝ)}
    (h : as.mapM (fun a => a.expr.asNumber?.map fun v => (⟨v, a.subtract⟩ : Addend ℝ)) =
      some values) : Addend.total values = addendsValue σ as := by
  induction as generalizing values with
  | nil => cases h; rfl
  | cons a as ih =>
      obtain ⟨e, s⟩ := a
      rw [List.mapM_cons] at h
      obtain ⟨v, hv, h⟩ := Option.bind_eq_some_iff.mp h
      obtain ⟨vs, hvs, h⟩ := Option.bind_eq_some_iff.mp h
      obtain ⟨w, hw, rfl⟩ := Option.map_eq_some_iff.mp hv
      cases h
      rcases eq_number_or e with ⟨u, rfl⟩ | ⟨_, hnone⟩
      · cases hw
        rw [Addend.total_cons, ih hvs]
        rfl
      · cases hnone.symm.trans hw

/-- If all factors are numbers, the product is worth their product. -/
theorem product_of_mapM {es : List (Expr ℝ)} {values : List ℝ}
    (h : es.mapM asNumber? = some values) : Scalar.product values = factorsValue σ es := by
  induction es generalizing values with
  | nil => cases h; rfl
  | cons e es ih =>
      rw [List.mapM_cons] at h
      obtain ⟨v, hv, h⟩ := Option.bind_eq_some_iff.mp h
      obtain ⟨vs, hvs, h⟩ := Option.bind_eq_some_iff.mp h
      cases h
      rcases eq_number_or e with ⟨u, rfl⟩ | ⟨_, hnone⟩
      · cases hv
        rw [Scalar.product_cons, ih hvs]
        rfl
      · cases hnone.symm.trans hv

theorem value_of_asNumber {e : Expr ℝ} {v : ℝ} (h : e.asNumber? = some v) : e.value σ = v := by
  rcases eq_number_or e with ⟨u, rfl⟩ | ⟨_, hnone⟩
  · exact Option.some.inj h
  · cases hnone.symm.trans h

/-- What is folded is worth the number that takes its place. -/
theorem value_of_foldedValue {e : Expr ℝ} {v : ℝ} (h : e.foldedValue? = some v) :
    e.value σ = v := by
  unfold foldedValue? at h
  -- the node is a sum, a product, a quotient or a power of numbers
  split at h
  · next as =>
      obtain ⟨values, hvalues, h⟩ := Option.bind_eq_some_iff.mp h
      cases h
      exact (total_of_mapM hvalues).symm
  · next es =>
      obtain ⟨values, hvalues, h⟩ := Option.bind_eq_some_iff.mp h
      cases h
      exact (product_of_mapM hvalues).symm
  · next a b =>
      obtain ⟨u, hu, h⟩ := Option.bind_eq_some_iff.mp h
      obtain ⟨w, hw, h⟩ := Option.bind_eq_some_iff.mp h
      rw [value, value_of_asNumber hu, value_of_asNumber hw]
      split at h
      · cases h
      · exact Option.some.inj h
  · next a b =>
      obtain ⟨u, hu, h⟩ := Option.bind_eq_some_iff.mp h
      obtain ⟨w, hw, h⟩ := Option.bind_eq_some_iff.mp h
      rw [value, value_of_asNumber hu, value_of_asNumber hw]
      exact Option.some.inj h
  · cases h

end Expr

/-! ## Soundness of the rules -/

namespace Rule

open SymbolicCalculus.Expr

/-- A choice of sound rules is sound. -/
theorem Sound.firstOf {step : Step} {rules : List (Rule ℝ)} (h : ∀ r ∈ rules, r.Sound) :
    (firstOf step rules).Sound :=
  fun σ => Respects.firstOf fun r hr => h r hr σ

/-- Flattening takes the normal form, which has the same value. -/
theorem sound_flatten : (flatten : Rule ℝ).Sound := by
  intro σ e e' h he
  rw [eq_normalize_of_flatten h]
  exact ⟨(defined_normalize e).mpr he, value_normalize e⟩

/-- Gathering the numbers of a sum is sound. -/
theorem sound_gatherSum : (gatherSum : Rule ℝ).Sound := by
  intro σ e e' h
  simp only [gatherSum] at h
  split at h
  · next as => exact eq_of_ifChanged h ▸ preserves_gatherSum as
  · cases h

/-- Gathering the numbers of a product is sound. -/
theorem sound_gatherProduct : (gatherProduct : Rule ℝ).Sound := by
  intro σ e e' h
  simp only [gatherProduct] at h
  split at h
  · next es => exact eq_of_ifChanged h ▸ preserves_gatherProduct es
  · cases h

/-- Leaving out a divisor of one is sound. -/
theorem sound_divideByOne : (divideByOne : Rule ℝ).Sound := by
  intro σ e e' h
  simp only [divideByOne] at h
  split at h
  · next a b =>
      obtain ⟨hone, hsome⟩ := Option.ite_none_right_eq_some.mp h
      cases hsome
      rintro ⟨ha, _, _⟩
      exact ⟨ha, by rw [value, value_of_isNumberEq hone, div_one]⟩
  · cases h

theorem sound_identity : (identity : Rule ℝ).Sound :=
  Sound.firstOf (by
    simp only [List.forall_mem_cons, List.not_mem_nil, false_implies, implies_true, and_true]
    exact ⟨sound_gatherSum, sound_gatherProduct, sound_divideByOne⟩)

/-- A product with a factor of zero is zero, and zero is defined everywhere. -/
theorem sound_multiplyByZero : (multiplyByZero : Rule ℝ).Sound := by
  intro σ e e' h
  simp only [multiplyByZero] at h
  split at h
  · next es =>
      obtain ⟨hzero, hsome⟩ := Option.ite_none_right_eq_some.mp h
      cases hsome
      obtain ⟨f, hf, hf0⟩ := List.any_eq_true.mp hzero
      exact fun _ => ⟨trivial, (factorsValue_eq_zero hf (value_of_isNumberEq hf0)).symm⟩
  · cases h

/-- Zero divided by anything that is not zero is zero. -/
theorem sound_divideZero : (divideZero : Rule ℝ).Sound := by
  intro σ e e' h
  simp only [divideZero] at h
  split at h
  · next a b =>
      obtain ⟨hzero, hsome⟩ := Option.ite_none_right_eq_some.mp h
      cases hsome
      exact fun _ => ⟨trivial, by simp [value_of_isNumberEq (σ := σ) hzero]⟩
  · cases h

theorem sound_absorb : (absorb : Rule ℝ).Sound :=
  Sound.firstOf (by
    simp only [List.forall_mem_cons, List.not_mem_nil, false_implies, implies_true, and_true]
    exact ⟨sound_multiplyByZero, sound_divideZero⟩)

/-- A power to the exponent zero is one. -/
theorem sound_exponentZero : (exponentZero : Rule ℝ).Sound := by
  intro σ e e' h
  simp only [exponentZero] at h
  split at h
  · next a b =>
      obtain ⟨hzero, hsome⟩ := Option.ite_none_right_eq_some.mp h
      cases hsome
      exact fun _ => ⟨trivial, by simp [value_of_isNumberEq (σ := σ) hzero]⟩
  · cases h

/-- A power to the exponent one is its base. -/
theorem sound_exponentOne : (exponentOne : Rule ℝ).Sound := by
  intro σ e e' h
  simp only [exponentOne] at h
  split at h
  · next a b =>
      obtain ⟨hone, hsome⟩ := Option.ite_none_right_eq_some.mp h
      cases hsome
      rintro ⟨ha, _, _⟩
      exact ⟨ha, by rw [value, value_of_isNumberEq hone, Real.rpow_one]⟩
  · cases h

/-- A power of zero that is defined is zero. Where the exponent is zero it is not defined. -/
theorem sound_baseZero : (baseZero : Rule ℝ).Sound := by
  intro σ e e' h
  simp only [baseZero] at h
  split at h
  · next a b =>
      obtain ⟨hzero, hsome⟩ := Option.ite_none_right_eq_some.mp h
      cases hsome
      have ha : a.value σ = 0 := value_of_isNumberEq hzero
      -- a power of zero that is defined has a positive exponent
      rintro ⟨_, _, hpos | ⟨_, hpos⟩ | ⟨hneg, _⟩⟩
      · exact absurd ha hpos.ne'
      · exact ⟨trivial, by rw [value, value, ha, Real.zero_rpow hpos.ne']⟩
      · exact absurd ha hneg.ne
  · cases h

/-- A power of one is one. -/
theorem sound_baseOne : (baseOne : Rule ℝ).Sound := by
  intro σ e e' h
  simp only [baseOne] at h
  split at h
  · next a b =>
      obtain ⟨hone, hsome⟩ := Option.ite_none_right_eq_some.mp h
      cases hsome
      exact fun _ => ⟨trivial, by simp [value_of_isNumberEq (σ := σ) hone]⟩
  · cases h

/-- Undoing a logarithm is sound, since its argument is positive where it is defined. -/
theorem sound_expOfLn : (expOfLn : Rule ℝ).Sound := by
  intro σ e e' h
  simp only [expOfLn] at h
  split at h
  · exact preserves_powerOfLn h
  · cases h

theorem sound_power : (power : Rule ℝ).Sound :=
  Sound.firstOf (by
    simp only [List.forall_mem_cons, List.not_mem_nil, false_implies, implies_true, and_true]
    exact ⟨sound_exponentZero, sound_exponentOne, sound_baseZero, sound_baseOne, sound_expOfLn⟩)

/-- Computing with numbers is sound over the reals, where nothing is rounded. -/
theorem sound_fold : (fold : Rule ℝ).Sound := by
  intro σ e e' h
  obtain ⟨v, hv, rfl⟩ := Option.map_eq_some_iff.mp h
  exact fun _ => ⟨trivial, (value_of_foldedValue hv).symm⟩

end Rule

end SymbolicCalculus
