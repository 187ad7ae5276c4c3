import SymbolicCalculus.Proofs.Simplify.Merging
import SymbolicCalculus.Simplify.Pass

/-!
# Rules take weight off

A rule is `Lightening` if it puts a lighter tree in the place of another whenever it applies. Every
rule of a pass is.
-/

namespace SymbolicCalculus

open SymbolicCalculus.Expr Scalar

variable {K : Type} [Scalar K]

namespace Rule

/-- Whenever the rule applies, what it puts in the place of a tree weighs less. -/
def Lightening (r : Rule K) : Prop := r.Respects fun e e' => Lighter e' e

/-- A rule that offers a candidate does nothing if the candidate is alike, so that it is enough for
a candidate to be lighter or alike. -/
theorem lighter_of_ifChanged {e candidate e' : Expr K} (h : ifChanged e candidate = some e')
    (hcandidate : Lighter candidate e ∨ Alike candidate e) : Lighter e' e := by
  unfold ifChanged at h
  split at h
  · cases h
  · next hne =>
      obtain rfl := Option.some.inj h
      exact hcandidate.resolve_right hne

/-- An inner list is charged as an entry of the outer one, so merging the two takes that charge off.
-/
theorem flatten_lightening : (flatten (K := K)).Lightening := by
  intro e e' h
  cases e with
  | sum as =>
      simp only [flatten, Option.ite_none_right_eq_some, Option.some.injEq] at h
      obtain ⟨hany, rfl⟩ := h
      have := addendsWeight_normalizeAddends_lt hany
      -- merging does not make a list end in something other than a number
      have := endCharge_normalizeAddends_le as
      exact Lighter.of_not_isFraction rfl (by simp only [Expr.normalize, weight]; omega)
  | product es =>
      simp only [flatten, Option.ite_none_right_eq_some, Option.some.injEq] at h
      obtain ⟨hany, rfl⟩ := h
      have := factorsWeight_normalizeFactors_lt hany
      have := endCharge_normalizeFactors_le es
      exact Lighter.of_isFraction rfl (by simp only [Expr.normalize, weight]; omega)
  | _ => cases h

section Laws

variable [UnitLaws K]

/-- A single number at the end of a sum, with its sign where it belongs, is what gathering makes of
it. In all other cases weight comes off. -/
theorem gatherSum_lightening : (gatherSum (K := K)).Lightening := by
  intro e e' h
  cases e with
  | sum as => exact lighter_of_ifChanged h (gatherSum_lighter_or_alike as)
  | _ => cases h

theorem gatherProduct_lightening : (gatherProduct (K := K)).Lightening := by
  intro e e' h
  cases e with
  | product es => exact lighter_of_ifChanged h (gatherProduct_lighter_or_alike es)
  | _ => cases h

end Laws

/-- The quotient's charge for its bar comes off. -/
theorem divideByOne_lightening : (divideByOne (K := K)).Lightening := by
  intro e e' h
  cases e with
  | quotient a b =>
      simp only [divideByOne, Option.ite_none_right_eq_some, Option.some.injEq] at h
      obtain ⟨-, rfl⟩ := h
      exact Lighter.of_isFraction rfl (by simp only [weight]; omega)
  | _ => cases h

theorem multiplyByZero_lightening : (multiplyByZero (K := K)).Lightening := by
  intro e e' h
  cases e with
  | product es =>
      simp only [multiplyByZero, Option.ite_none_right_eq_some, Option.some.injEq] at h
      exact h.2 ▸ Lighter.number rfl 0
  | _ => cases h

theorem divideZero_lightening : (divideZero (K := K)).Lightening := by
  intro e e' h
  cases e with
  | quotient a b =>
      simp only [divideZero, Option.ite_none_right_eq_some, Option.some.injEq] at h
      exact h.2 ▸ Lighter.number rfl 0
  | _ => cases h

/-! ### Powers -/

theorem exponentZero_lightening : (exponentZero (K := K)).Lightening := by
  intro e e' h
  cases e with
  | power a b =>
      simp only [exponentZero, Option.ite_none_right_eq_some, Option.some.injEq] at h
      exact h.2 ▸ Lighter.number rfl 1
  | _ => cases h

/-- A power costs four units besides its parts, which is more than a change of kind can cost. -/
theorem exponentOne_lightening : (exponentOne (K := K)).Lightening := by
  intro e e' h
  cases e with
  | power a b =>
      simp only [exponentOne, Option.ite_none_right_eq_some, Option.some.injEq] at h
      obtain ⟨-, rfl⟩ := h
      exact Lighter.of_add_three_le (by simp only [weight]; omega)
  | _ => cases h

theorem baseZero_lightening : (baseZero (K := K)).Lightening := by
  intro e e' h
  cases e with
  | power a b =>
      simp only [baseZero, Option.ite_none_right_eq_some, Option.some.injEq] at h
      exact h.2 ▸ Lighter.number rfl 0
  | _ => cases h

theorem baseOne_lightening : (baseOne (K := K)).Lightening := by
  intro e e' h
  cases e with
  | power a b =>
      simp only [baseOne, Option.ite_none_right_eq_some, Option.some.injEq] at h
      exact h.2 ▸ Lighter.number rfl 1
  | _ => cases h

/-- A logarithm weighs two units more than its argument. -/
theorem weight_of_lnArg? {e u : Expr K} (h : e.lnArg? = some u) : e.weight = 2 + u.weight := by
  unfold lnArg? at h
  split at h
  · obtain rfl := Option.some.inj h
    rfl
  · cases h

/-- Taking a logarithm out of a product takes its weight out. -/
theorem factorsWeight_extractLn {es rest : List (Expr K)} {u : Expr K}
    (h : extractLn? es = some (u, rest)) :
    u.weight + 18 + factorsWeight rest ≤ factorsWeight es := by
  -- along the factors up to the first logarithm
  induction es generalizing rest with
  | nil => cases h
  | cons e es ih =>
      rw [extractLn?] at h
      split at h
      · next w hw =>
          obtain ⟨rfl, rfl⟩ := Prod.mk.inj (Option.some.inj h)
          have := weight_of_lnArg? hw
          have := le_factorWeight e
          rw [factorsWeight_cons]
          omega
      · obtain ⟨⟨v, others⟩, hothers, heq⟩ := Option.map_eq_some_iff.mp h
        obtain ⟨rfl, rfl⟩ := Prod.mk.inj heq
        have := ih hothers
        simp only [factorsWeight_cons]
        omega

/-- The base `e` and the logarithm disappear, which pays for the power that is left. -/
theorem expOfLn_lightening : (expOfLn (K := K)).Lightening := by
  intro e e' h
  simp only [expOfLn] at h
  split at h
  · next b =>
      -- the exponent is a logarithm by itself, or a product with one among its factors
      unfold powerOfLn? at h
      split at h
      · next u =>
          obtain rfl := Option.some.inj h
          exact Lighter.of_add_three_le (by simp only [weight]; omega)
      · next es =>
          -- what is left of the product becomes the exponent of the argument
          obtain ⟨⟨u, rest⟩, hrest, heq⟩ := Option.map_eq_some_iff.mp h
          have hes := factorsWeight_extractLn hrest
          have hle : ((product rest).collapse).weight ≤ _ := weight_productOf_le rest
          have := endCharge_le_one rest.getLast?
          dsimp only at heq
          split at heq
          · obtain rfl := heq
            exact Lighter.of_add_three_le (by simp only [weight]; omega)
          · obtain rfl := heq
            exact Lighter.of_not_isFraction rfl (by simp only [weight] at hle ⊢; omega)
      · cases h
  · cases h

/-- A number is lighter than anything else. -/
theorem fold_lightening : (fold (K := K)).Lightening := by
  intro e e' h
  obtain ⟨v, hv, rfl⟩ := Option.map_eq_some_iff.mp h
  have he : e.isNumber = false := by
    cases e with
    | number w => cases hv
    | _ => rfl
  exact Lighter.number he v

/-! ### Fractions -/

/-- Only products and quotients are read as fractions. -/
theorem isReading_of_ofExpr? {e : Expr K} {a : Fraction K} (h : Fraction.ofExpr? e = some a) :
    a.IsReading e ∧ e.isFraction = true := by
  unfold Fraction.ofExpr? at h
  split at h
  · obtain rfl := Option.some.inj h
    exact ⟨(Fraction.ofExpr_isReading _).1, rfl⟩
  · split at h
    · obtain rfl := Option.some.inj h
      exact ⟨(Fraction.ofExpr_isReading _).1, rfl⟩
    · cases h
  · cases h

/-- A product without a quotient is read as what is above a bar, with nothing below. -/
theorem isReading_of_fractionToMerge? {e : Expr K} {a : Fraction K}
    (h : fractionToMerge? e = some a) : a.IsReading e ∧ e.isFraction = true := by
  unfold fractionToMerge? at h
  split at h
  · next es =>
      split at h
      · exact isReading_of_ofExpr? h
      · obtain rfl := Option.some.inj h
        -- a product of one factor is written down as this factor, which weighs less
        exact ⟨(productOf_eq_or_lighter es).imp_right And.left, rfl⟩
  · exact isReading_of_ofExpr? h

section Laws

variable [UnitLaws K]

/-- A rule that reads a fraction off and makes another of it takes weight off, if the step between
the fractions does. -/
theorem lighter_of_reading {e candidate e' : Expr K} {a : Fraction K}
    (h : ifChanged e candidate = some e') (ha : a.IsReading e ∧ e.isFraction = true)
    (hcandidate : candidate.weight < a.toExpr.weight ∨ Alike candidate a.toExpr) :
    Lighter e' e := by
  obtain ⟨hreading, hfraction⟩ := ha
  refine lighter_of_ifChanged h ?_
  -- reading and writing down may have taken weight off by itself
  rcases hreading with rfl | hlt
  · exact hcandidate.imp_left (Lighter.of_isFraction hfraction)
  · left
    refine Lighter.of_isFraction hfraction ?_
    rcases hcandidate with hcandidate | hcandidate
    · exact Nat.lt_trans hcandidate hlt
    · exact hcandidate.weight_eq ▸ hlt

/-- Cancelling removes a factor above the bar and one below. Gathering moves numbers, which costs
less than the bar. -/
theorem cancelFactors_lightening : (cancelFactors (K := K)).Lightening := by
  intro e e' h
  obtain ⟨a, ha, hchanged⟩ := Option.bind_eq_some_iff.mp h
  exact lighter_of_reading hchanged (isReading_of_ofExpr? ha)
    (Fraction.cancel_gather_lighter_or_alike a)

theorem mergePowers_lightening : (mergePowers (K := K)).Lightening := by
  intro e e' h
  obtain ⟨a, ha, hchanged⟩ := Option.bind_eq_some_iff.mp h
  exact lighter_of_reading hchanged (isReading_of_fractionToMerge? ha)
    (Powers.mergedFraction_lighter_or_alike a)

/-! ### Stages -/

theorem identity_lightening : (identity (K := K)).Lightening := by
  refine Respects.firstOf fun r hr => ?_
  simp only [List.mem_cons, List.not_mem_nil, or_false] at hr
  rcases hr with rfl | rfl | rfl
  · exact gatherSum_lightening
  · exact gatherProduct_lightening
  · exact divideByOne_lightening

omit [UnitLaws K] in
theorem absorb_lightening : (absorb (K := K)).Lightening := by
  refine Respects.firstOf fun r hr => ?_
  simp only [List.mem_cons, List.not_mem_nil, or_false] at hr
  rcases hr with rfl | rfl
  · exact multiplyByZero_lightening
  · exact divideZero_lightening

omit [UnitLaws K] in
theorem power_lightening : (power (K := K)).Lightening := by
  refine Respects.firstOf fun r hr => ?_
  simp only [List.mem_cons, List.not_mem_nil, or_false] at hr
  rcases hr with rfl | rfl | rfl | rfl | rfl
  · exact exponentZero_lightening
  · exact exponentOne_lightening
  · exact baseZero_lightening
  · exact baseOne_lightening
  · exact expOfLn_lightening

/-- Every stage of a pass takes weight off. -/
theorem stages_lightening {r : Rule K} (hr : r ∈ (stages : List (Rule K))) : r.Lightening := by
  simp only [stages, List.mem_cons, List.not_mem_nil, or_false] at hr
  rcases hr with rfl | rfl | rfl | rfl | rfl | rfl | rfl
  · exact flatten_lightening
  · exact identity_lightening
  · exact absorb_lightening
  · exact power_lightening
  · exact cancelFactors_lightening
  · exact mergePowers_lightening
  · exact fold_lightening

end Laws

end Rule

end SymbolicCalculus
