import SymbolicCalculus.Proofs.Scalar.Binary64
import SymbolicCalculus.Proofs.Simplify.FixedPoint

/-!
# The form of a fixed point

A tree that a pass leaves as it is is reduced: lists are flat and have at least two entries, a
number comes last, quotients are not nested and hold their numbers above the bar, bases occur once,
and no operator has only numbers for operands unless its value is not to be put in its place.
-/

namespace SymbolicCalculus

open Scalar

variable {K : Type}

namespace Expr

/-- The base of a factor that is seen as a power. -/
def base [Scalar K] (e : Expr K) : Expr K := (Powers.ofFactor e).1

variable [Scalar K]

/-- The bases of two factors are not structurally equal. -/
def BasesDiffer (e f : Expr K) : Prop := (e.base == f.base) = false

/-- A sum in reduced form. Its number is positive or undefined, its sign being that of the
addend. -/
structure ReducedSum (addends : List (Addend (Expr K))) : Prop where
  two_le_length : 2 ≤ addends.length
  not_sum : ∀ a ∈ addends, a.expr.isSum = false
  number_last : ∀ a ∈ addends.dropLast, a.expr.isNumber = false
  number_pos : ∀ a ∈ addends, ∀ v, a.expr = number v → isNeg v = false ∧ (v == 0) = false
  not_only_numbers : ∃ a ∈ addends, a.expr.isNumber = false

/-- A product in reduced form. -/
structure ReducedProduct (factors : List (Expr K)) : Prop where
  two_le_length : 2 ≤ factors.length
  not_product : ∀ e ∈ factors, e.isProduct = false
  not_quotient : ∀ e ∈ factors, e.isQuotient = false
  number_last : ∀ e ∈ factors.dropLast, e.isNumber = false
  number_ne : ∀ v, number v ∈ factors → (v == 0) = false ∧ (v == 1) = false ∧ isNaN v = false
  bases_differ : factors.Pairwise BasesDiffer
  not_only_numbers : ∃ e ∈ factors, e.isNumber = false

/-- A quotient in reduced form. A number in the divisor is the whole divisor and zero. -/
structure ReducedQuotient (dividend divisor : Expr K) : Prop where
  not_quotient : ∀ e ∈ dividend.asFactors ++ divisor.asFactors, e.isQuotient = false
  dividend_ne_zero : dividend.isNumberEq 0 = false
  divisor_ne_one : divisor.isNumberEq 1 = false
  number_in_divisor : ∀ v, number v ∈ divisor.asFactors → divisor = number v ∧ (v == 0) = true
  bases_differ : (dividend.asFactors ++ divisor.asFactors).Pairwise BasesDiffer
  only_numbers : ∀ v w, dividend = number v → divisor = number w → (w == 0) = true

/-- A power in reduced form. It is neither `e ^ ln u` nor `e ^ (.. * ln u * ..)`. -/
structure ReducedPower (base exponent : Expr K) : Prop where
  base_ne : base.isNumberEq 0 = false ∧ base.isNumberEq 1 = false
  exponent_ne : exponent.isNumberEq 0 = false ∧ exponent.isNumberEq 1 = false
  not_exp_of_ln : base = constant .e → ∀ u, call .ln u ∉ exponent.asFactors
  only_numbers : ∀ v w, base = number v → exponent = number w → isFinite (pow v w) = false

/-- The root of the expression is in reduced form. -/
def Reduced : Expr K → Prop
  | sum addends => ReducedSum addends
  | product factors => ReducedProduct factors
  | quotient a b => ReducedQuotient a b
  | power a b => ReducedPower a b
  | _ => True

/-! ## Lists with a number at the end -/

/-- A rule that offers a candidate and does not apply has offered the same tree. -/
theorem alike_of_ifChanged_eq_none {e candidate : Expr K}
    (h : Rule.ifChanged e candidate = none) : Alike candidate e := by
  unfold Rule.ifChanged at h
  split at h
  · next heq => exact heq
  · cases h

/-- The list has no number, or one at its end that has the property. -/
def NumberLast (P : K → Prop) (es : List (Expr K)) : Prop :=
  (∀ e ∈ es, e.isNumber = false) ∨
    ∃ init v, es = init ++ [number v] ∧ (∀ e ∈ init, e.isNumber = false) ∧ P v

omit [Scalar K] in
/-- No entry but the last is a number. -/
theorem NumberLast.of_mem_dropLast {P : K → Prop} {es : List (Expr K)} (h : NumberLast P es) :
    ∀ e ∈ es.dropLast, e.isNumber = false := by
  intro e he
  rcases h with h | ⟨init, v, rfl, hinit, -⟩
  · exact h e (List.dropLast_subset es he)
  · rw [List.dropLast_concat] at he
    exact hinit e he

omit [Scalar K] in
/-- A number in the list is the one at its end. -/
theorem NumberLast.of_mem {P : K → Prop} {es : List (Expr K)} (h : NumberLast P es) {v : K}
    (hv : number v ∈ es) : P v := by
  rcases h with h | ⟨init, w, rfl, hinit, hw⟩
  · cases h _ hv
  · rcases List.mem_append.mp hv with hv | hv
    · cases hinit _ hv
    · obtain rfl := Expr.number.inj (List.mem_singleton.mp hv)
      exact hw

omit [Scalar K] in
/-- With two entries or more, there is one besides the number. -/
theorem NumberLast.exists_not_number {P : K → Prop} {es : List (Expr K)} (h : NumberLast P es)
    (htwo : 2 ≤ es.length) : ∃ e ∈ es, e.isNumber = false := by
  match es, htwo with
  | e :: f :: es, _ => exact ⟨e, List.mem_cons_self, h.of_mem_dropLast e (by simp)⟩

/-- What is alike to a list without numbers but for one at its end is such a list itself. -/
theorem exists_of_forall₂_append_number {rest es : List (Expr K)} {v : K}
    (hrest : ∀ e ∈ rest, e.isNumber = false)
    (h : List.Forall₂ Alike (rest ++ [number v]) es) :
    ∃ init w, es = init ++ [number w] ∧ init.length = rest.length ∧
      Scalar.same v w ∧ ∀ e ∈ init, e.isNumber = false := by
  -- along the entries before the number, each of which is alike to one of the same kind
  induction rest generalizing es with
  | nil =>
      cases h with
      | cons hv hnil =>
          cases hnil
          obtain ⟨w, rfl, hvw⟩ := alike_number_iff.mp hv
          exact ⟨[], w, rfl, rfl, hvw, by simp⟩
  | cons e rest ih =>
      cases h with
      | @cons _ f _ fs hef h =>
          obtain ⟨init, w, rfl, hlen, hvw, hinit⟩ :=
            ih (fun e he => hrest e (List.mem_cons_of_mem _ he)) h
          refine ⟨f :: init, w, rfl, by simp [hlen], hvw, fun g hg => ?_⟩
          rcases List.mem_cons.mp hg with rfl | hg
          · exact hef.isNumber_eq.symm.trans (hrest e List.mem_cons_self)
          · exact hinit g hg

/-! ## Sums -/

/-- A sum of one term is not left as it is: the weights differ. -/
theorem sumOfTerms_ne_sum (a : Addend (Expr K)) (h : a.expr.isNumber = false) :
    sumOfTerms [a] ≠ sum [a] := by
  obtain ⟨e, s⟩ := a
  intro heq
  cases s with
  | true => cases heq
  | false =>
      have hweight : e.weight = (sum [⟨e, false⟩]).weight := congrArg weight heq
      simp only [weight, addendsWeight_cons, addendWeight_of_not_isNumber h] at hweight
      simp at hweight
      omega

section Laws

variable [TestLaws K]

/-- The number that is added or subtracted for a total is not negative. It may be undefined. -/
theorem signedAddend_pos {v : K} (h : (v == 0) = false) :
    ∃ w, (signedAddend v).expr = number w ∧ isNeg w = false ∧ (w == 0) = false := by
  unfold signedAddend
  split
  · next hneg => exact ⟨-v, rfl, TestLaws.isNeg_neg hneg, (TestLaws.neg_beq_zero v).trans h⟩
  · next hneg => exact ⟨v, rfl, by simpa using hneg, h⟩

/-- Without its numbers a sum is lighter or what it was. So if it is alike to what is left, there
were none. -/
theorem eq_of_alike_sumOfTerms {as terms : List (Addend (Expr K))}
    (hterms : (as.filter fun a => !a.expr.isNumber) = terms)
    (hnone : ∀ a ∈ terms, a.expr.isNumber = false) (hne : terms ≠ [])
    (h : Alike (sumOfTerms terms) (sum as)) : as = terms ∧ 2 ≤ as.length := by
  have hfilter := sum_filter_eq_or_lighter as
  rw [hterms] at hfilter
  -- a step that takes weight off would make the result lighter than what it is alike to
  rcases sumOfTerms_eq_or_lighter hnone with hsum | hsum <;> rcases hfilter with hfilter | hfilter
  · obtain rfl := Expr.sum.inj hfilter
    refine ⟨rfl, ?_⟩
    match terms, hne with
    | [t], _ => exact absurd hsum (sumOfTerms_ne_sum t (hnone t List.mem_cons_self))
    | _ :: _ :: _, _ => simp
  · exact absurd (hsum ▸ hfilter) h.not_lighter
  · exact absurd (hfilter ▸ hsum) h.not_lighter
  · exact absurd (hsum.trans hfilter) h.not_lighter

/-- What is alike to terms with a positive number after them ends with such a number, too. -/
theorem numberLast_of_alike_append {as terms : List (Addend (Expr K))} {total : K}
    (hnone : ∀ a ∈ terms, a.expr.isNumber = false) (hne : terms ≠ [])
    (htotal : (total == 0) = false)
    (h : Alike (sum (terms ++ [signedAddend total])) (sum as)) :
    2 ≤ as.length ∧
      NumberLast (fun v => isNeg v = false ∧ (v == 0) = false) (as.map Addend.expr) := by
  obtain ⟨bs, hbs, hall⟩ := alike_sum_iff.mp h
  obtain rfl := Expr.sum.inj hbs
  obtain ⟨w, hw, hneg, hzero⟩ := signedAddend_pos htotal
  -- without their signs, the entries agree one by one
  have hexprs : List.Forall₂ Alike (terms.map Addend.expr ++ [number w]) (as.map Addend.expr) := by
    have hmap : terms.map Addend.expr ++ [number w] =
        (terms ++ [signedAddend total]).map Addend.expr := by simp [hw]
    rw [hmap]
    exact List.rel_map (P := Alike) (fun _ _ hab => hab.1) hall
  have hnone : ∀ e ∈ terms.map Addend.expr, e.isNumber = false := by
    intro e he
    obtain ⟨a, ha, rfl⟩ := List.mem_map.mp he
    exact hnone a ha
  obtain ⟨init, v, hinit, hlen, hvw, hnumbers⟩ := exists_of_forall₂_append_number hnone hexprs
  refine ⟨?_, Or.inr ⟨init, v, hinit, hnumbers, ?_, ?_⟩⟩
  · have hlength := hall.length_eq
    have hpos := List.length_pos_iff.mpr hne
    rw [List.length_append, List.length_singleton] at hlength
    omega
  · exact (UnitLaws.isNeg_congr hvw).symm.trans hneg
  · exact (TestLaws.beq_congr hvw 0).symm.trans hzero

/-- A sum that gathering leaves as it is has no number, or a positive or undefined one at the end of
its two or more entries. -/
theorem number_of_alike_gatherSum {as : List (Addend (Expr K))}
    (h : Alike (gatherSum as) (sum as)) :
    2 ≤ as.length ∧
      NumberLast (fun v => isNeg v = false ∧ (v == 0) = false) (as.map Addend.expr) := by
  by_cases hterms : (as.filter fun a => !a.expr.isNumber) = []
  · rw [gatherSum_of_filter_eq_nil hterms] at h
    cases h
  · rw [gatherSum_of_filter_ne_nil hterms] at h
    split at h
    · obtain ⟨has, htwo⟩ := eq_of_alike_sumOfTerms rfl isNumber_of_mem_filter hterms h
      refine ⟨htwo, Or.inl ?_⟩
      rw [has]
      exact List.forall_mem_map.mpr isNumber_of_mem_filter
    · next hzero =>
      exact numberLast_of_alike_append isNumber_of_mem_filter hterms (by simpa using hzero) h

/-- A sum to which no rule applies is reduced: merging says that it is flat, and gathering says
where its number is. -/
theorem reducedSum {as : List (Addend (Expr K))} (h : (sum as).NoRuleApplies) : ReducedSum as := by
  have hgather : Alike (gatherSum as) (sum as) := alike_of_ifChanged_eq_none h.gatherSum
  obtain ⟨htwo, hnumbers⟩ := number_of_alike_gatherSum hgather
  have hsum : ∀ a ∈ as, a.expr.isSum = false := by
    have hany := h.flatten
    simp only [Rule.flatten, ite_eq_right_iff, reduceCtorEq, imp_false, Bool.not_eq_true,
      List.any_eq_false] at hany
    exact hany
  -- a sum of numbers only would have become their total
  obtain ⟨e, he, hnumber⟩ := hnumbers.exists_not_number (by simpa using htwo)
  obtain ⟨a, ha, rfl⟩ := List.mem_map.mp he
  refine ⟨htwo, hsum, fun b hb => ?_, fun b hb v hv => ?_, ⟨a, ha, hnumber⟩⟩
  · refine hnumbers.of_mem_dropLast b.expr ?_
    rw [← List.map_dropLast]
    exact List.mem_map_of_mem hb
  · exact hnumbers.of_mem (hv ▸ List.mem_map_of_mem hb)

/-! ## Products -/

/-- A product that gathering leaves as it is has no number, or one at the end of its two or more
factors that is neither one nor undefined. -/
theorem number_of_alike_gatherProduct {es : List (Expr K)}
    (h : Alike (gatherProduct es) (product es)) :
    2 ≤ es.length ∧ NumberLast (fun v => (v == 1) = false ∧ isNaN v = false) es := by
  have hweight := factorsWeight_eq_filter es
  have hself : (es.filter fun e => !e.isNumber).length = es.length →
      ∀ e ∈ es, e.isNumber = false := fun hlen => by
    simpa using List.length_filter_eq_length_iff.mp hlen
  unfold gatherProduct at h
  dsimp only at h
  split at h
  · cases h
  · next hnan =>
    -- from here on the number and the other factors matter, not how they were found
    generalize hvalue : Scalar.product (es.filterMap asNumber?) = value at h
    generalize hrest : (es.filter fun e => !e.isNumber) = rest at h hweight hself
    have hnone : ∀ e ∈ rest, e.isNumber = false := by
      intro e he
      rw [← hrest] at he
      simpa using List.of_mem_filter he
    cases rest with
    | nil => cases h
    | cons e rest =>
        dsimp only at h
        split at h
        · cases rest with
          | nil =>
              -- the product would be alike to its own factor
              have := le_factorWeight e
              have hself : e.weight = (product es).weight := h.weight_eq
              simp only [weight, factorsWeight_cons] at hself hweight
              omega
          | cons f rest =>
              obtain ⟨fs, hfs, hall⟩ := alike_product_iff.mp h
              obtain rfl := Expr.product.inj hfs
              have hlen := hall.length_eq
              exact ⟨by simp [← hlen], Or.inl (hself hlen)⟩
        -- the number is written at the end, where one that is alike to it must be
        · next hone =>
          have htwo : 2 ≤ (e :: rest ++ [number value]).length := by simp
          replace h : Alike (Fraction.productOf (e :: rest ++ [number value])) (product es) := h
          rw [productOf_of_two_le htwo] at h
          obtain ⟨fs, hfs, hall⟩ := alike_product_iff.mp h
          obtain rfl := Expr.product.inj hfs
          obtain ⟨init, w, rfl, hlen, hvw, hinit⟩ := exists_of_forall₂_append_number hnone hall
          refine ⟨by simp [hlen], Or.inr ⟨init, w, rfl, hinit, ?_, ?_⟩⟩
          · exact (TestLaws.beq_congr hvw 1).symm.trans (by simpa using hone)
          · have hw : w ∈ (init ++ [number w]).filterMap asNumber? := by simp
            simpa using (List.any_eq_false.mp (Bool.not_eq_true _ ▸ hnan)) w hw

end Laws

/-! ## Bases -/

section Laws

variable [UnitLaws K]

/-- Powers that are merged already have bases that differ, since merging leaves every base once. -/
theorem bases_differ_of_isMerged {a : Fraction K} (h : Powers.IsMerged a) :
    (a.num ++ a.den).Pairwise BasesDiffer := by
  have hpairs := Powers.pairwise_bases_merge a
  have hbases (es : List (Expr K)) : Powers.bases (es.map Powers.ofFactor) = es.map base :=
    List.map_map
  rw [Powers.merge, h.num, h.den, h.divide, hbases, hbases, ← List.map_append,
    List.pairwise_map] at hpairs
  exact hpairs

/-! ## Fractions -/

omit [Scalar K] [UnitLaws K] in
mutual

/-- The factors of a fraction are neither products nor quotients. -/
theorem isFraction_of_mem_ofExpr (e : Expr K) :
    ∀ f ∈ (Fraction.ofExpr e).num ++ (Fraction.ofExpr e).den, f.isFraction = false := by
  match e with
  | product es => exact isFraction_of_mem_ofFactors es
  | quotient a b =>
    have ha := isFraction_of_mem_ofExpr a
    have hb := isFraction_of_mem_ofExpr b
    intro f hf
    simp only [Fraction.ofExpr, Fraction.mul, Fraction.inverse, List.mem_append] at ha hb hf
    rcases hf with (hf | hf) | hf | hf
    · exact ha f (Or.inl hf)
    · exact hb f (Or.inr hf)
    · exact ha f (Or.inr hf)
    · exact hb f (Or.inl hf)
  | number _ | constant _ | var _ | sum _ | power _ _ | call _ _ =>
    intro f hf
    obtain rfl : f = _ := List.mem_singleton.mp hf
    rfl

theorem isFraction_of_mem_ofFactors (es : List (Expr K)) :
    ∀ f ∈ (Fraction.ofFactors es).num ++ (Fraction.ofFactors es).den, f.isFraction = false := by
  match es with
  | [] => simp [Fraction.ofFactors]
  | e :: es =>
    have he := isFraction_of_mem_ofExpr e
    have hes := isFraction_of_mem_ofFactors es
    intro f hf
    simp only [Fraction.ofFactors, Fraction.mul, List.mem_append] at he hes hf
    rcases hf with (hf | hf) | hf | hf
    · exact he f (Or.inl hf)
    · exact hes f (Or.inl hf)
    · exact he f (Or.inr hf)
    · exact hes f (Or.inr hf)

end

omit [UnitLaws K] in
/-- The factors of a product that was written down are the ones it was made of. -/
theorem asFactors_productOf {es : List (Expr K)} (hne : es ≠ [])
    (h : ∀ e ∈ es, e.isFraction = false) : (Fraction.productOf es).asFactors = es := by
  match es, hne with
  | [e], _ =>
    have he := h e List.mem_cons_self
    show e.asFactors = [e]
    cases e <;> first | rfl | cases he
  | _ :: _ :: _, _ => rfl

/-- If reducing the fraction of a product or quotient gives nothing else, the expression is the
fraction, and there is no number below the bar to go above it. -/
theorem toExpr_ofExpr_of_alike {e : Expr K}
    (h : Alike (Fraction.ofExpr e).cancel.gather.toExpr e) :
    (Fraction.ofExpr e).toExpr = e ∧
      (Fraction.ofExpr e).den.filterMap Fraction.divisor? = [] := by
  have hreading := (Fraction.ofExpr_isReading e).1
  have hweight := h.weight_eq
  -- reading, cancelling and gathering take weight off one after the other, but the result weighs as
  -- much
  have hle : (Fraction.ofExpr e).cancel.gather.toExpr.weight ≤
      (Fraction.ofExpr e).toExpr.weight := by
    rcases Fraction.cancel_gather_lighter_or_alike (Fraction.ofExpr e) with h | h
    · exact Nat.le_of_lt h
    · exact Nat.le_of_eq h.weight_eq
  have heq : (Fraction.ofExpr e).toExpr = e := hreading.resolve_right (by omega)
  refine ⟨heq, ?_⟩
  -- a number below the bar would go above it, which takes weight off
  by_contra hdivisor
  rw [heq] at hle
  rcases Fraction.cancel_eq_or_lighter (Fraction.ofExpr e) with hcancel | hlt
  · have := Fraction.gather_lighter_of_divisor hdivisor
    rw [hcancel] at hweight
    rw [heq] at this
    omega
  · rw [heq] at hlt
    rcases Fraction.gather_lighter_or_alike (Fraction.ofExpr e).cancel with h | h
    · omega
    · have := h.weight_eq
      omega

/-- A fraction that merging leaves as it is names every base once. -/
theorem bases_differ_of_alike {e : Expr K} {a : Fraction K} (ha : a.toExpr.weight = e.weight)
    (h : Alike (Powers.mergedFraction a).toExpr e) : (a.num ++ a.den).Pairwise BasesDiffer := by
  have hweight := h.weight_eq
  have hmerged := (Powers.isMerged_or_lighter a).resolve_right (by omega)
  exact bases_differ_of_isMerged hmerged

omit [UnitLaws K] in
theorem ne_of_not_any_isNumberEq {es : List (Expr K)} {u v : K}
    (h : ¬ (es.any fun e => e.isNumberEq u) = true) (hv : number v ∈ es) : (v == u) = false := by
  have hany := List.any_eq_false.mp (Bool.not_eq_true _ ▸ h) _ hv
  simpa [isNumberEq] using hany

omit [UnitLaws K] in
/-- A factor zero would have made the product zero. -/
theorem factor_ne_zero {es : List (Expr K)} (h : (product es).NoRuleApplies) {v : K}
    (hv : number v ∈ es) : (v == 0) = false := by
  have hzero := h.multiplyByZero
  simp only [Rule.multiplyByZero, ite_eq_right_iff, reduceCtorEq, imp_false] at hzero
  exact ne_of_not_any_isNumberEq hzero hv

/-- A product of which no fraction can be reduced has no quotient among its factors. -/
theorem not_quotient_of_product {es : List (Expr K)} (h : (product es).NoRuleApplies) :
    ∀ e ∈ es, e.isQuotient = false := by
  by_contra hquotient
  have hany : es.any isQuotient = true := by simpa using hquotient
  have hcancel := h.cancelFactors
  simp only [Rule.cancelFactors, Fraction.ofExpr?, hany, if_true] at hcancel
  have halike := alike_of_ifChanged_eq_none hcancel
  obtain ⟨heq, -⟩ := toExpr_ofExpr_of_alike halike
  have hentries := isFraction_of_mem_ofExpr (product es)
  generalize Fraction.ofExpr (product es) = a at heq hentries
  obtain ⟨num, den⟩ := a
  -- a product is no quotient, so nothing is below the bar, and its factors are those above
  cases den with
  | cons => cases heq
  | nil =>
      cases num with
      | nil => cases heq
      | cons f num =>
          have hfactors : f :: num = es := by
            have hnum : Fraction.productOf (f :: num) = product es := heq
            have hlist : (Fraction.productOf (f :: num)).asFactors = f :: num :=
              asFactors_productOf (by simp) fun g hg => hentries g (by simpa using hg)
            rw [← hlist, hnum]
            rfl
          obtain ⟨e, he, hequotient⟩ := List.any_eq_true.mp hany
          have hefraction := hentries e (by simpa [hfactors] using he)
          cases e with
          | quotient => cases hefraction
          | _ => cases hequotient

end Laws

/-- A product to which no rule applies is reduced. -/
theorem reducedProduct [TestLaws K] {es : List (Expr K)} (h : (product es).NoRuleApplies) :
    ReducedProduct es := by
  have hgather : Alike (gatherProduct es) (product es) :=
    alike_of_ifChanged_eq_none h.gatherProduct
  obtain ⟨htwo, hnumbers⟩ := number_of_alike_gatherProduct hgather
  have hquotient := not_quotient_of_product h
  have hproduct : ∀ e ∈ es, e.isProduct = false := by
    have hany := h.flatten
    simp only [Rule.flatten, ite_eq_right_iff, reduceCtorEq, imp_false, Bool.not_eq_true,
      List.any_eq_false] at hany
    exact hany
  -- without a quotient among the factors, powers are merged among them as they are
  have hbases : (es ++ []).Pairwise BasesDiffer := by
    have hany : es.any isQuotient = false := by simpa using hquotient
    have hmerge := h.mergePowers
    simp only [Rule.mergePowers, Rule.fractionToMerge?, hany, Bool.false_eq_true, if_false]
      at hmerge
    have hweight : (Fraction.toExpr ⟨es, []⟩).weight = (product es).weight :=
      congrArg weight (productOf_of_two_le htwo)
    exact bases_differ_of_alike hweight (alike_of_ifChanged_eq_none hmerge)
  rw [List.append_nil] at hbases
  refine ⟨htwo, hproduct, hquotient, hnumbers.of_mem_dropLast, fun v hv => ?_, hbases,
    hnumbers.exists_not_number htwo⟩
  exact ⟨factor_ne_zero h hv, hnumbers.of_mem hv⟩

/-! ## Quotients -/

/-- The factors above and below the bar of a quotient that cannot be reduced are those of its
dividend and of its divisor. -/
theorem ofExpr_quotient [UnitLaws K] {a b : Expr K} (h : (quotient a b).NoRuleApplies) :
    Fraction.ofExpr (quotient a b) = ⟨a.asFactors, b.asFactors⟩ ∧
      b.asFactors.filterMap Fraction.divisor? = [] := by
  obtain ⟨heq, hdivisors⟩ :=
    toExpr_ofExpr_of_alike (alike_of_ifChanged_eq_none h.cancelFactors)
  have hentries := isFraction_of_mem_ofExpr (quotient a b)
  have hnum : (Fraction.ofExpr (quotient a b)).num =
      (Fraction.ofExpr a).num ++ (Fraction.ofExpr b).den := rfl
  generalize Fraction.ofExpr (quotient a b) = c at heq hdivisors hentries hnum
  obtain ⟨num, den⟩ := c
  dsimp only at hnum hentries hdivisors
  cases den with
  | nil =>
      -- nothing is below the bar, so the product above it would be the quotient
      have hproduct : Fraction.productOf num = quotient a b := heq
      match num with
      | [] => cases hproduct
      | [e] =>
        obtain rfl : e = quotient a b := hproduct
        cases hentries (quotient a b) (by simp)
      | _ :: _ :: _ => cases hproduct
  | cons f den =>
      obtain ⟨rfl, rfl⟩ := Expr.quotient.inj heq
      have hdivisor : (Fraction.productOf (f :: den)).asFactors = f :: den :=
        asFactors_productOf (by simp) fun e he => hentries e (List.mem_append_right _ he)
      have hdividend : num ≠ [] := by
        rintro rfl
        cases hnum
      rw [hdivisor, asFactors_productOf hdividend fun e he =>
        hentries e (List.mem_append_left _ he)]
      exact ⟨rfl, hdivisors⟩

/-- A quotient to which no rule applies is reduced, if none applies to its divisor either. -/
theorem reducedQuotient [UnitLaws K] {a b : Expr K} (h : (quotient a b).NoRuleApplies)
    (hb : b.NoRuleApplies) : ReducedQuotient a b := by
  obtain ⟨hfraction, hdivisors⟩ := ofExpr_quotient h
  have hentries := isFraction_of_mem_ofExpr (quotient a b)
  -- a base that is found twice would have been merged
  have hbases : ((Fraction.ofExpr (quotient a b)).num ++
      (Fraction.ofExpr (quotient a b)).den).Pairwise BasesDiffer := by
    have hcancel := alike_of_ifChanged_eq_none h.cancelFactors
    have hmerge := alike_of_ifChanged_eq_none h.mergePowers
    exact bases_differ_of_alike (congrArg weight (toExpr_ofExpr_of_alike hcancel).1) hmerge
  rw [hfraction] at hentries hbases
  refine ⟨fun e he => ?_, ?_, ?_, fun v hv => ?_, hbases, ?_⟩
  · have he := hentries e he
    cases e <;> first | rfl | cases he
  · simpa [Rule.divideZero] using h.divideZero
  · simpa [Rule.divideByOne] using h.divideByOne
  · have hzero : (v == 0) = true := by
      have hdivisor := List.filterMap_eq_nil_iff.mp hdivisors _ hv
      by_contra hzero
      simp [Fraction.divisor?, asNumber?, hzero] at hdivisor
    cases b with
    | product es =>
        -- the divisor would have been replaced by zero
        rw [factor_ne_zero hb hv] at hzero
        cases hzero
    | _ => exact ⟨(List.mem_singleton.mp hv).symm, hzero⟩
  · rintro v w rfl rfl
    by_contra hzero
    have hfold := h.fold
    simp [Rule.fold, foldedValue?, asNumber?, hzero] at hfold

/-! ## Powers -/

omit [Scalar K] in
/-- The search for a logarithm finds one if there is any. -/
theorem ln_not_mem_of_extractLn? {es : List (Expr K)} (h : extractLn? es = none) (u : Expr K) :
    call .ln u ∉ es := by
  induction es with
  | nil => exact List.not_mem_nil
  | cons e es ih =>
      rw [extractLn?] at h
      split at h
      · cases h
      · next he =>
        intro hu
        rcases List.mem_cons.mp hu with rfl | hu
        · cases he
        · exact ih (Option.map_eq_none_iff.mp h) hu

/-- A power to which no rule applies is reduced. Each test of a rule that failed gives one
condition. -/
theorem reducedPower {a b : Expr K} (h : (power a b).NoRuleApplies) : ReducedPower a b := by
  refine ⟨⟨?_, ?_⟩, ⟨?_, ?_⟩, ?_, ?_⟩
  · simpa [Rule.baseZero] using h.baseZero
  · simpa [Rule.baseOne] using h.baseOne
  · simpa [Rule.exponentZero] using h.exponentZero
  · simpa [Rule.exponentOne] using h.exponentOne
  · rintro rfl u hu
    have hln : b.powerOfLn? = none := h.expOfLn
    -- the exponent is a product with a logarithm among its factors, or a logarithm by itself
    cases b with
    | product es => exact ln_not_mem_of_extractLn? (Option.map_eq_none_iff.mp hln) u hu
    | call f v =>
        obtain ⟨rfl, rfl⟩ := Expr.call.inj (List.mem_singleton.mp hu)
        cases hln
    | _ => cases List.mem_singleton.mp hu
  · rintro v w rfl rfl
    by_contra hfinite
    have hfold := h.fold
    simp [Rule.fold, foldedValue?, asNumber?, hfinite] at hfold

/-! ## Fixed points -/

/-- A node to which no rule applies, and to no child of it either, is reduced. -/
theorem reduced_of_noRuleApplies [TestLaws K] {e : Expr K} (h : e.NoRuleApplies)
    (hchildren : ∀ c ∈ e.children, c.NoRuleApplies) : e.Reduced := by
  cases e with
  | number | constant | var | call => trivial
  | sum as => exact reducedSum h
  | product es => exact reducedProduct h
  | quotient a b => exact reducedQuotient h (hchildren b (by simp [children]))
  | power a b => exact reducedPower h

/-- In a tree that is not changed by a pass, no rule applies to any node, nor to its children. -/
theorem reduced_of_pass_eq [TestLaws K] {r : Expr K} (h : r.pass.1 = r) :
    ∀ n ∈ r.postOrder, n.Reduced := fun n hn =>
  have ⟨hnode, hchildren⟩ := noRuleApplies_of_mem_postOrder h n hn
  reduced_of_noRuleApplies hnode hchildren

/-- Every node of a tree that a pass leaves structurally as it is is reduced. In particular every
node of the result is, if simplification stopped because a pass changed nothing. -/
theorem reduced_of_fixedPoint [TestLaws K] :
    (∀ r : Expr K, (r.pass.1 == r) = true → ∀ n ∈ r.postOrder, n.Reduced) ∧
      ∀ (limits : SimplifyLimits) (e : Expr K) (k : Nat),
        (simplifyReport limits e).outcome = .fixedPoint k →
          ∀ n ∈ (simplify limits e).postOrder, n.Reduced :=
  ⟨fun _ h => reduced_of_pass_eq (pass_eq_of_alike h),
    fun _ _ _ h => reduced_of_pass_eq (pass_simplify_eq h)⟩

/-- The quotient `3 / 0` of doubles and the sum `x * -2 + 1` are left as they are, and the result of
simplifying `(1 - x * 2) / (2 * 0) + x / (3 / 4)` is reduced. -/
theorem reduced_of_fixedPoint_zeroDivisor :
    let r : Expr Float := .sum [.minus (.quotient (.number 3) (.number 0)),
      .plus (.product [.var "x", .number (-2)]), .plus (.number 1)]
    let e : Expr Float := .sum [
      .plus (.quotient (.sum [.plus (.number 1), .minus (.product [.var "x", .number 2])])
        (.product [.number 2, .number 0])),
      .plus (.quotient (.var "x") (.quotient (.number 3) (.number 4)))]
    ((r.pass.1 == r) = true ∧ ∀ n ∈ r.postOrder, n.Reduced) ∧
      (simplifyReport {} e).outcome = .fixedPoint 2 ∧ ∀ n ∈ (simplify {} e).postOrder, n.Reduced := by
  intro r e
  have hpass : (r.pass.1 == r) = true := by decide +kernel
  have houtcome : (simplifyReport {} e).outcome = .fixedPoint 2 := by decide +kernel
  obtain ⟨htree, hresult⟩ := reduced_of_fixedPoint (K := Float)
  exact ⟨⟨hpass, htree r hpass⟩, houtcome, hresult {} e 2 houtcome⟩

end Expr

end SymbolicCalculus
