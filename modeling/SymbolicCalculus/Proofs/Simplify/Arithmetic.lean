import SymbolicCalculus.Evaluation.Evaluate
import SymbolicCalculus.Proofs.Expr.Nodes
import SymbolicCalculus.Proofs.Scalar.Folding
import SymbolicCalculus.Proofs.Simplify.Congruence
import SymbolicCalculus.Proofs.Simplify.Stages

/-!
# Arithmetic on numbers alone

A tree without functions, constants and variables is a calculation on numbers. Evaluation does it
from left to right at every operator. Simplification does it with several rules: numbers are
gathered in sums and products, quotients are cancelled, powers of zero and one are looked up, and
only what is left is folded. Where every step of the calculation has a finite value, the two come to
the same number, in spite of rounding.

Every operator on numbers becomes a number as it goes through the stages (`stages_sum`,
`stages_product`, `stages_quotient`, `stages_power`). So one pass makes a number of the tree, since
structurally equal nodes go through the stages alike and the operands are numbers by then.
-/

namespace SymbolicCalculus

open SymbolicCalculus.Expr Scalar

variable {K : Type}

/-- The expression is a calculation: it is made of numbers, sums, products, quotients and powers. -/
inductive Expr.Arithmetic : Expr K → Prop
  | number (v : K) : (number v).Arithmetic
  | sum {as : List (Addend (Expr K))} (h : ∀ a ∈ as, a.expr.Arithmetic) : (sum as).Arithmetic
  | product {es : List (Expr K)} (h : ∀ e ∈ es, e.Arithmetic) : (product es).Arithmetic
  | quotient {a b : Expr K} (ha : a.Arithmetic) (hb : b.Arithmetic) : (quotient a b).Arithmetic
  | power {a b : Expr K} (ha : a.Arithmetic) (hb : b.Arithmetic) : (power a b).Arithmetic

/-! ## Lists of numbers -/

section Lists

variable (vs : List K) (as : List (Addend K))

theorem filterMap_asNumber?_map : (vs.map number).filterMap asNumber? = vs := by
  rw [List.filterMap_map]
  exact List.filterMap_some

theorem filterMap_addendNumber?_map :
    (as.map (Addend.map number)).filterMap addendNumber? = as := by
  rw [List.filterMap_map]
  exact List.filterMap_some

end Lists

/-! ## Sums and products -/

variable [Scalar K]

/-- Gathering a sum of numbers leaves one number, their total. -/
theorem gatherSum_map (as : List (Addend K)) :
    gatherSum (as.map (Addend.map number)) = number (Addend.total as) := by
  have hterms : ((as.map (Addend.map number)).filter fun a => !a.expr.isNumber) = [] := by
    simp [Addend.map]
  unfold gatherSum
  dsimp only
  rw [hterms, filterMap_addendNumber?_map]

/-- Gathering a product of numbers leaves one number, their product, unless one of them is
undefined. -/
theorem gatherProduct_map {vs : List K} (h : ∀ v ∈ vs, isNaN v = false) :
    gatherProduct (vs.map number) = number (Scalar.product vs) := by
  have hnan : vs.any isNaN = false := by simpa using h
  have hrest : ((vs.map number).filter fun e => !e.isNumber) = [] := by simp
  unfold gatherProduct
  dsimp only
  rw [hrest, filterMap_asNumber?_map, hnan]
  rfl

/-- A sum of numbers becomes their total when its numbers are gathered. -/
theorem stages_sum (as : List (Addend K)) :
    (applyStages stages (sum (as.map (Addend.map number)))).1 = number (Addend.total as) := by
  have hnested : (as.map (Addend.map number)).any (fun a => a.expr.isSum) = false := by
    simp [Addend.map, isSum]
  have hflatten : Rule.flatten.replace? (sum (as.map (Addend.map number))) = none := by
    simp only [Rule.flatten, hnested]
    rfl
  have hgather : Rule.gatherSum.replace? (sum (as.map (Addend.map number))) =
      some (number (Addend.total as)) := by
    simp only [Rule.gatherSum, gatherSum_map]
    rfl
  have hidentity : Rule.identity.replace? (sum (as.map (Addend.map number))) =
      some (number (Addend.total as)) := by
    simp only [Rule.identity, Rule.firstOf, List.findSome?_cons, hgather]
  rw [stages, applyStages_of_none hflatten, applyStages_of_some hidentity]
  rfl

/-- A product of numbers becomes their product when its numbers are gathered. -/
theorem stages_product {vs : List K} (h : ∀ v ∈ vs, isNaN v = false) :
    (applyStages stages (product (vs.map number))).1 = number (Scalar.product vs) := by
  have hnested : (vs.map number).any Expr.isProduct = false := by simp [isProduct]
  have hflatten : Rule.flatten.replace? (product (vs.map number)) = none := by
    simp only [Rule.flatten, hnested]
    rfl
  have hsum : Rule.gatherSum.replace? (product (vs.map number)) = none := rfl
  have hgather : Rule.gatherProduct.replace? (product (vs.map number)) =
      some (number (Scalar.product vs)) := by
    simp only [Rule.gatherProduct, gatherProduct_map h]
    rfl
  have hidentity : Rule.identity.replace? (product (vs.map number)) =
      some (number (Scalar.product vs)) := by
    simp only [Rule.identity, Rule.firstOf, List.findSome?_cons, hsum, hgather]
  rw [stages, applyStages_of_none hflatten, applyStages_of_some hidentity]
  rfl

/-! ## Quotients -/

/-- The numbers of a quotient are gathered above the bar, where one is dropped. -/
theorem cancelFactors_quotient {v w : K} (hw : (w == 0) = false) :
    Rule.cancelFactors.replace? (quotient (number v) (number w)) =
      some (number (if 1 * v / w == 1 then 1 else 1 * v / w)) := by
  have hgather : (⟨[number v], [number w]⟩ : Fraction K).gather =
      ⟨if 1 * v / w == 1 then [] else [number (1 * v / w)], []⟩ := by
    simp [Fraction.gather, Fraction.divisor?, hw, Scalar.product]
  show Rule.ifChanged _ (Fraction.gather ⟨[number v], [number w]⟩).toExpr = _
  rw [hgather]
  split <;> rfl

theorem alike_number {v w : K} (h : same v w) : Alike (number v) (number w) :=
  alike_number_iff.mpr ⟨w, rfl, h⟩

/-- A quotient of numbers that has a finite value becomes that value. -/
theorem stages_quotient [FoldLaws K] {v w : K} (h : isFinite (v / w)) :
    Alike (applyStages stages (quotient (number v) (number w))).1 (number (v / w)) := by
  have hflatten : Rule.flatten.replace? (quotient (number v) (number w)) = none := rfl
  have hpower : Rule.power.replace? (quotient (number v) (number w)) = none := rfl
  have hidentity := replace?_identity_quotient (number v) (number w)
  have habsorb := replace?_absorb_quotient (number v) (number w)
  rw [stages, applyStages_of_none hflatten]
  split at hidentity
  -- a divisor one is dropped, a dividend zero absorbs, and the numbers are divided otherwise
  · next hone =>
    rw [applyStages_of_some hidentity]
    exact alike_number (UnitLaws.same_symm (FoldLaws.div_one hone))
  rw [applyStages_of_none hidentity]
  split at habsorb
  · next hzero =>
    rw [applyStages_of_some habsorb]
    exact alike_number (UnitLaws.same_symm (FoldLaws.zero_div hzero h))
  have hw := FoldLaws.divisor_ne_zero h
  rw [applyStages_of_none habsorb, applyStages_of_none hpower,
    applyStages_of_some (cancelFactors_quotient hw)]
  -- the numbers above the bar are multiplied from one on, which is exact
  have hvalue : same (1 * v / w) (v / w) :=
    CongruenceLaws.div_congr (UnitLaws.one_mul v) (UnitLaws.same_refl w) hw
  apply alike_number
  split
  · next hone => exact UnitLaws.same_trans (UnitLaws.same_symm (same_of_beq hone)) hvalue
  · exact hvalue

/-! ## Powers -/

/-- A power of numbers folds to its value where this is finite. -/
theorem fold_power {v w : K} (h : isFinite (pow v w)) :
    Rule.fold.replace? (power (number v) (number w)) = some (number (pow v w)) := by
  show (if isFinite (pow v w) then some (pow v w) else none).map number = _
  rw [if_pos h]
  rfl

/-- A power of numbers that has a finite value becomes that value. -/
theorem stages_power [FoldLaws K] {v w : K} (h : isFinite (pow v w)) :
    Alike (applyStages stages (power (number v) (number w))).1 (number (pow v w)) := by
  have hflatten : Rule.flatten.replace? (power (number v) (number w)) = none := rfl
  have hidentity : Rule.identity.replace? (power (number v) (number w)) = none := rfl
  have habsorb : Rule.absorb.replace? (power (number v) (number w)) = none := rfl
  have hcancel : Rule.cancelFactors.replace? (power (number v) (number w)) = none := rfl
  have hmerge : Rule.mergePowers.replace? (power (number v) (number w)) = none := rfl
  have hpower := replace?_power (number v) (number w)
  rw [stages, applyStages_of_none hflatten, applyStages_of_none hidentity,
    applyStages_of_none habsorb]
  -- the identities are tried in their order: exponent zero, exponent one, base zero, base one
  split at hpower
  · next hw =>
    rw [applyStages_of_some hpower]
    exact alike_number (UnitLaws.same_symm (FoldLaws.pow_zero hw))
  split at hpower
  · next hw =>
    rw [applyStages_of_some hpower]
    exact alike_number (UnitLaws.same_symm (FoldLaws.pow_one hw))
  split at hpower
  · next hw _ hv =>
    rw [applyStages_of_some hpower]
    exact alike_number (UnitLaws.same_symm (FoldLaws.zero_pow hv (Bool.eq_false_iff.mpr hw) h))
  split at hpower
  · next hv =>
    rw [applyStages_of_some hpower]
    exact alike_number (UnitLaws.same_symm (FoldLaws.one_pow hv))
  rw [applyStages_of_none hpower, applyStages_of_none hcancel, applyStages_of_none hmerge,
    applyStages_of_some (fold_power h)]
  exact Alike.refl _

/-! ## Passes -/

variable {lookup : String → Except EvalError K}

mutual

/-- One pass makes of a calculation the value that evaluation finds, if all values on the way are
finite. -/
theorem pass_arithmetic [FoldLaws K] {e : Expr K} (he : e.Arithmetic)
    (hfinite : ∀ n ∈ e.postOrder, ∃ v, n.valueWith lookup = .ok v ∧ isFinite v) :
    ∃ v, e.valueWith lookup = .ok v ∧ isFinite v ∧ Alike e.pass.1 (number v) := by
  obtain ⟨v, hv, hvfinite⟩ := hfinite e (self_mem_postOrder e)
  refine ⟨v, hv, hvfinite, ?_⟩
  -- the operands are numbers after the pass, and so the stages see an operator on numbers
  match e with
  | .number w =>
    obtain rfl : w = v := Except.ok.inj hv
    exact Alike.refl _
  | .constant c => cases he
  | .var name => cases he
  | .sum as =>
    cases he with
    | sum has =>
      obtain ⟨vs, hvs, hpass⟩ :=
        passAddends_arithmetic has fun n hn => hfinite n (List.mem_append_left _ hn)
      rw [valueWith, hvs] at hv
      obtain rfl : Addend.total vs = v := Except.ok.inj hv
      -- alike nodes stay alike in the stages, and those of a sum of numbers give their total
      have hnode := Alike.finishNode (alike_sum_iff.mpr ⟨_, rfl, hpass⟩) (passAddends as).2 []
      exact hnode.trans (stages_sum vs ▸ Alike.refl _)
  | .product es =>
    cases he with
    | product hes =>
      obtain ⟨vs, hvs, hnan, hpass⟩ :=
        passFactors_arithmetic hes fun n hn => hfinite n (List.mem_append_left _ hn)
      rw [valueWith, hvs] at hv
      obtain rfl : Scalar.product vs = v := Except.ok.inj hv
      have hnode := Alike.finishNode (alike_product_iff.mpr ⟨_, rfl, hpass⟩) (passFactors es).2 []
      exact hnode.trans (stages_product hnan ▸ Alike.refl _)
  | .quotient a b =>
    cases he with
    | quotient ha hb =>
      obtain ⟨hfa, hfb⟩ :=
        List.forall_mem_append.mp fun n hn => hfinite n (List.mem_append_left _ hn)
      obtain ⟨x, hx, -, hpassa⟩ := pass_arithmetic ha hfa
      obtain ⟨y, hy, -, hpassb⟩ := pass_arithmetic hb hfb
      rw [valueWith, hx, hy] at hv
      obtain rfl : x / y = v := Except.ok.inj hv
      -- a quotient is the one place where the finite value of the node itself is needed, to exclude
      -- a divisor zero
      have hnode := Alike.finishNode (alike_quotient_iff.mpr ⟨_, _, rfl, hpassa, hpassb⟩)
        (a.pass.2 ++ b.pass.2) []
      exact hnode.trans (stages_quotient hvfinite)
  | .power a b =>
    cases he with
    | power ha hb =>
      obtain ⟨hfa, hfb⟩ :=
        List.forall_mem_append.mp fun n hn => hfinite n (List.mem_append_left _ hn)
      obtain ⟨x, hx, -, hpassa⟩ := pass_arithmetic ha hfa
      obtain ⟨y, hy, -, hpassb⟩ := pass_arithmetic hb hfb
      rw [valueWith, hx, hy] at hv
      obtain rfl : pow x y = v := Except.ok.inj hv
      have hnode := Alike.finishNode (alike_power_iff.mpr ⟨_, _, rfl, hpassa, hpassb⟩)
        (a.pass.2 ++ b.pass.2) []
      exact hnode.trans (stages_power hvfinite)
  | .call f a => cases he

/-- One pass makes of the terms of a sum the numbers that evaluation finds for them. -/
theorem passAddends_arithmetic [FoldLaws K] {as : List (Addend (Expr K))}
    (has : ∀ a ∈ as, a.expr.Arithmetic)
    (hfinite : ∀ n ∈ postOrderAddends as, ∃ v, n.valueWith lookup = .ok v ∧ isFinite v) :
    ∃ vs, addendValues lookup as = .ok vs ∧
      AlikeAddends (passAddends as).1 (vs.map (Addend.map number)) := by
  match as with
  | [] => exact ⟨[], rfl, .nil⟩
  | ⟨e, s⟩ :: as =>
    obtain ⟨he, has⟩ := List.forall_mem_cons.mp has
    obtain ⟨hfe, hfas⟩ := List.forall_mem_append.mp hfinite
    obtain ⟨v, hv, -, hpass⟩ := pass_arithmetic he hfe
    obtain ⟨vs, hvs, hrest⟩ := passAddends_arithmetic has hfas
    refine ⟨⟨v, s⟩ :: vs, ?_, .cons ⟨hpass, rfl⟩ hrest⟩
    rw [addendValues, hv, hvs]
    rfl

/-- One pass makes of the factors of a product the numbers that evaluation finds for them. -/
theorem passFactors_arithmetic [FoldLaws K] {es : List (Expr K)} (hes : ∀ e ∈ es, e.Arithmetic)
    (hfinite : ∀ n ∈ postOrderFactors es, ∃ v, n.valueWith lookup = .ok v ∧ isFinite v) :
    ∃ vs, factorValues lookup es = .ok vs ∧ (∀ v ∈ vs, isNaN v = false) ∧
      AlikeFactors (passFactors es).1 (vs.map number) := by
  match es with
  | [] => exact ⟨[], rfl, List.forall_mem_nil _, .nil⟩
  | e :: es =>
    obtain ⟨he, hes⟩ := List.forall_mem_cons.mp hes
    obtain ⟨hfe, hfes⟩ := List.forall_mem_append.mp hfinite
    obtain ⟨v, hv, hvfinite, hpass⟩ := pass_arithmetic he hfe
    obtain ⟨vs, hvs, hnan, hrest⟩ := passFactors_arithmetic hes hfes
    refine ⟨v :: vs, ?_, ?_, .cons hpass hrest⟩
    · rw [factorValues, hv, hvs]
      rfl
    · exact List.forall_mem_cons.mpr ⟨FoldLaws.isNaN_eq_false hvfinite, hnan⟩

end

/-! ## Simplification -/

/-- What a pass has made a number of stays that number. -/
theorem simplify_of_pass_number [UnitLaws K] {e : Expr K} {r : K} (h : e.pass.1 = number r)
    {limits : SimplifyLimits} (hpasses : 0 < limits.passes) :
    simplify limits e = number r := by
  -- a number is a fixed point of the loop, however many passes are left
  have hfrom : ∀ left done, (simplifyFrom limits left done (number r)).result = number r := by
    intro left done
    cases left with
    | zero => rfl
    | succ left =>
        have halike : Alike (number r).pass.1 (number r) := Alike.refl (number r)
        rw [simplifyFrom_of_beq halike]
        rfl
  obtain ⟨left, hleft⟩ := Nat.exists_eq_succ_of_ne_zero (Nat.ne_of_gt hpasses)
  rw [simplify, simplifyReport, hleft]
  obtain ⟨-, hround⟩ | ⟨nodes, max, hround⟩ | ⟨-, hround⟩ := simplifyFrom_cases limits left 0 e
  · rw [hround]
    exact h
  · rw [hround]
    exact h
  · rw [hround, h]
    exact hfrom left 1

/-- Where the laws of folding hold, a calculation whose values are all finite is simplified to its
value. -/
theorem simplify_calculation [FoldLaws K] {limits : SimplifyLimits} (hpasses : 0 < limits.passes)
    {e : Expr K} (he : e.Arithmetic)
    (hfinite : ∀ n ∈ e.postOrder, ∃ v, evaluate [] n = .ok v ∧ isFinite v) :
    ∃ r v, simplify limits e = number r ∧ evaluate [] e = .ok v ∧ (r == v) = true := by
  obtain ⟨v, hv, hvfinite, hpass⟩ := pass_arithmetic he hfinite
  obtain ⟨r, hr, hsame⟩ := alike_number_iff.mp hpass.symm
  refine ⟨r, v, simplify_of_pass_number hr hpasses, hv, ?_⟩
  -- the value is no NaN, so being the same number is being equal
  have hnan := FoldLaws.isNaN_eq_false hvfinite
  simpa [Scalar.same, hnan] using UnitLaws.same_symm hsame

/-- **Simplification calculates as evaluation does.** If a tree of doubles, sums, products,
quotients and powers has a finite value at every node, then simplifying it gives one number, and
this number is equal to the value that evaluation finds, whatever was rounded on the way. -/
theorem simplify_eq_evaluate {pow : Float → Float → Float} (hpow : Binary64.PowLaws pow) :
    letI := Binary64.withPow pow
    ∀ (limits : SimplifyLimits) (e : Expr Float), 0 < limits.passes → e.Arithmetic →
      (∀ n ∈ e.postOrder, ∃ v, evaluate [] n = .ok v ∧ v.isFinite = true) →
        ∃ r v : Float,
          simplify limits e = .number r ∧ evaluate [] e = .ok v ∧ (r == v) = true := by
  let _ := Binary64.withPow pow
  have _ := hpow.foldLaws
  intro limits e hpasses he hfinite
  exact simplify_calculation hpasses he hfinite

/-- The calculation `(0.1 + 0.2 - 3 ^ 2) / (2 * 2)`, in which several numbers are rounded. -/
theorem simplify_eq_evaluate_rounded :
    letI := Binary64.withPow Binary64.smallPow
    let e : Expr Float := .quotient
      (.sum [.plus (.number 0.1), .plus (.number 0.2), .minus (.power (.number 3) (.number 2))])
      (.product [.number 2, .number 2])
    ∃ r v : Float, simplify {} e = .number r ∧ evaluate [] e = .ok v ∧ (r == v) = true := by
  intro e
  let _ := Binary64.withPow Binary64.smallPow
  refine simplify_eq_evaluate Binary64.powLaws_smallPow {} e (by decide) ?_ ?_
  · have hnumber := Arithmetic.number (K := Float)
    apply Arithmetic.quotient
    · apply Arithmetic.sum
      simp only [List.forall_mem_cons]
      exact ⟨hnumber _, hnumber _, .power (hnumber _) (hnumber _), List.forall_mem_nil _⟩
    · apply Arithmetic.product
      simp only [List.forall_mem_cons]
      exact ⟨hnumber _, hnumber _, List.forall_mem_nil _⟩
  · have hvalue : ∀ (n : Expr Float) (v : Float), evaluate [] n = .ok v → v.isFinite = true →
        ∃ v, evaluate [] n = .ok v ∧ v.isFinite = true := fun n v hv hfinite => ⟨v, hv, hfinite⟩
    repeat
      refine List.forall_mem_cons.mpr ⟨hvalue _ _ rfl (by decide +kernel), ?_⟩
    exact List.forall_mem_nil _

end SymbolicCalculus
