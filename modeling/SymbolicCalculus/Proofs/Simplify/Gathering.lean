import SymbolicCalculus.Proofs.Expr.Normal
import SymbolicCalculus.Proofs.Simplify.Weight
import SymbolicCalculus.Simplify.Fraction

/-!
# The weight of gathered lists

Merging nested lists takes the charges for the inner lists off. Gathering the numbers of a list is
more delicate, because it compares what it makes with what it was given. What it makes weighs less
or is structurally equal: a single number that is at the end already, with its sign where it
belongs, comes out the same.
-/

namespace SymbolicCalculus

open SymbolicCalculus.Expr Scalar

variable {K : Type}

namespace Expr

/-! ## The end of a list -/

/-- A list that is not charged for its end has a number there. -/
theorem exists_of_endCharge_eq_zero {es : List (Expr K)} (h : endCharge es.getLast? = 0) :
    ∃ init v, es = init ++ [number v] := by
  rcases List.eq_nil_or_concat es with rfl | ⟨init, e, rfl⟩
  · simp [endCharge] at h
  · rcases eq_number_or e with ⟨v, rfl⟩ | ⟨hnum, _⟩
    · exact ⟨init, v, List.concat_eq_append⟩
    · simp [endCharge, hnum] at h

/-- A single number that comes last is where gathering puts it. -/
theorem eq_filter_append_number {es : List (Expr K)} {v : K}
    (hnum : es.filterMap asNumber? = [v]) (hend : endCharge es.getLast? = 0) :
    es = (es.filter fun e => !e.isNumber) ++ [number v] := by
  obtain ⟨init, w, rfl⟩ := exists_of_endCharge_eq_zero hend
  obtain ⟨hfilter, hw⟩ := filter_isNone_of_filterMap_append hnum rfl
  cases hw
  simp only [isNone_asNumber?] at hfilter
  rw [hfilter]

/-- Without a number among the factors there is nothing to leave out. -/
theorem filter_eq_self_of_no_number {es : List (Expr K)} (h : es.filterMap asNumber? = []) :
    (es.filter fun e => !e.isNumber) = es := by
  refine List.filter_eq_self.mpr fun e he => ?_
  have hnone := List.filterMap_eq_nil_iff.mp h e he
  rw [← isNone_asNumber?, hnone, Option.isNone_none]

/-- A number at the end of a list stays there. -/
theorem endCharge_normalizeAddends_le (as : List (Addend (Expr K))) :
    endCharge ((normalizeAddends as).getLast?.map Addend.expr) ≤
      endCharge (as.getLast?.map Addend.expr) := by
  -- only the last entry matters, and a number is its own normal form
  rcases List.eq_nil_or_concat as with rfl | ⟨as, ⟨e, s⟩, rfl⟩
  · exact Nat.le_refl _
  · rcases eq_number_or e with ⟨v, rfl⟩ | ⟨h, _⟩
    · simp [normalizeAddends_append, normalizeAddends, normalize, asAddends]
    · have := endCharge_le_one ((normalizeAddends (as ++ [⟨e, s⟩])).getLast?.map Addend.expr)
      simpa [endCharge, h] using this

/-- The same for a list of factors. -/
theorem endCharge_normalizeFactors_le (es : List (Expr K)) :
    endCharge (normalizeFactors es).getLast? ≤ endCharge es.getLast? := by
  rcases List.eq_nil_or_concat es with rfl | ⟨es, e, rfl⟩
  · exact Nat.le_refl _
  · rcases eq_number_or e with ⟨v, rfl⟩ | ⟨h, _⟩
    · simp [normalizeFactors_append, normalizeFactors, normalize, asFactors]
    · have := endCharge_le_one (normalizeFactors (es ++ [e])).getLast?
      simpa [endCharge, h] using this

variable [Scalar K]

/-! ## Merging nested lists -/

/-- Flipping the sign of an entry costs sixteenfold at most, which is what subtracting a whole sum
is charged. -/
theorem addendWeight_negate_le (a : Addend (Expr K)) :
    addendWeight (a.negateIf true) ≤ 16 * addendWeight a := by
  obtain ⟨e, s⟩ := a
  show addendWeight ⟨e, !s⟩ ≤ 16 * addendWeight ⟨e, s⟩
  rcases eq_number_or e with ⟨v, rfl⟩ | ⟨h, _⟩
  · have := addendWeight_number_le v (!s)
    have := two_le_addendWeight_number v s
    omega
  · rw [addendWeight_of_not_isNumber h, addendWeight_of_not_isNumber h]
    cases s with
    | false => simp only [Bool.not_false, if_true, Bool.false_eq_true, if_false]; omega
    | true => simp only [Bool.not_true, Bool.false_eq_true, if_false, if_true]; omega

/-- Flipping every sign of a list costs sixteenfold at most. -/
theorem addendsWeight_negate_le (as : List (Addend (Expr K))) :
    addendsWeight (as.map (Addend.negateIf true)) ≤ 16 * addendsWeight as := by
  induction as with
  | nil => simp
  | cons a as ih =>
      have := addendWeight_negate_le a
      simp only [List.map_cons, addendsWeight_cons]
      omega

/-- Merging a sum into the one around it takes the charges for its list off. -/
theorem addendsWeight_asAddends_lt {e : Expr K} (h : e.isSum = true) (s : Bool) :
    addendsWeight (e.asAddends s) + 2 < addendWeight ⟨e, s⟩ := by
  cases e with
  | sum as =>
      rw [addendWeight_of_not_isNumber rfl]
      -- the entries of a sum that is subtracted change their signs
      cases s with
      | false =>
          rw [asAddends_false_sum]
          simp only [weight, Bool.false_eq_true, if_false]
          omega
      | true =>
          have := addendsWeight_negate_le as
          simp only [asAddends, weight, if_true]
          omega
  | _ => cases h

/-- An expression costs no more after its entries, if it is a sum, were put in its place. -/
theorem addendsWeight_asAddends_le (e : Expr K) (s : Bool) :
    addendsWeight (e.asAddends s) ≤ addendWeight ⟨e, s⟩ := by
  cases h : e.isSum with
  | true => have := addendsWeight_asAddends_lt h s; omega
  | false => cases e <;> first | exact Nat.le_refl _ | cases h

/-- Merging a product into the one around it takes the charges for its list off. -/
theorem factorsWeight_asFactors_lt {e : Expr K} (h : e.isProduct = true) :
    factorsWeight e.asFactors + 2 < e.factorWeight := by
  cases e with
  | product es =>
      rw [factorWeight_of_isFraction rfl]
      simp only [asFactors, weight]
      omega
  | _ => cases h

/-- A factor costs no more after its own factors, if it is a product, were put in its place. -/
theorem factorsWeight_asFactors_le (e : Expr K) : factorsWeight e.asFactors ≤ e.factorWeight := by
  cases h : e.isProduct with
  | true => have := factorsWeight_asFactors_lt h; omega
  | false => cases e <;> first | exact Nat.le_refl _ | cases h

omit [Scalar K] in
@[simp] theorem isFraction_normalize (e : Expr K) : e.normalize.isFraction = e.isFraction := by
  cases e <;> rfl

/-- A normalized entry costs no more, given that normalizing it adds no weight. -/
theorem addendWeight_normalize_le {e : Expr K} (h : e.normalize.weight ≤ e.weight) (s : Bool) :
    addendWeight ⟨e.normalize, s⟩ ≤ addendWeight ⟨e, s⟩ := by
  -- the charge is that of the weight, but for numbers, which are normalized already
  rcases eq_number_or e with ⟨v, rfl⟩ | ⟨hnum, _⟩
  · exact Nat.le_refl _
  · rw [addendWeight_of_not_isNumber hnum,
      addendWeight_of_not_isNumber ((isNumber_normalize e).trans hnum)]
    split <;> omega

/-- A normalized factor costs no more, since it is of the same kind. -/
theorem factorWeight_normalize_le {e : Expr K} (h : e.normalize.weight ≤ e.weight) :
    e.normalize.factorWeight ≤ e.factorWeight := by
  unfold factorWeight factorCharge
  rw [isFraction_normalize]
  omega

mutual

/-- Normalization adds no weight. -/
theorem weight_normalize_le (e : Expr K) : e.normalize.weight ≤ e.weight := by
  -- along the tree: entries are normalized first and merged into the list then
  match e with
  | number v => exact Nat.le_refl _
  | constant c => exact Nat.le_refl _
  | var name => exact Nat.le_refl _
  | sum as =>
    have := addendsWeight_normalizeAddends_le as
    have := endCharge_normalizeAddends_le as
    simp only [normalize, weight]
    omega
  | product es =>
    have := factorsWeight_normalizeFactors_le es
    have := endCharge_normalizeFactors_le es
    simp only [normalize, weight]
    omega
  | quotient a b | power a b =>
    have := weight_normalize_le a
    have := weight_normalize_le b
    simp only [normalize, weight]
    omega
  | call f a =>
    have := weight_normalize_le a
    simp only [normalize, weight]
    omega

theorem addendsWeight_normalizeAddends_le (as : List (Addend (Expr K))) :
    addendsWeight (normalizeAddends as) ≤ addendsWeight as := by
  match as with
  | [] => exact Nat.le_refl _
  | ⟨e, s⟩ :: as =>
    have := addendsWeight_asAddends_le e.normalize s
    have := addendWeight_normalize_le (weight_normalize_le e) s
    have := addendsWeight_normalizeAddends_le as
    simp only [normalizeAddends, addendsWeight_append, addendsWeight_cons]
    omega

theorem factorsWeight_normalizeFactors_le (es : List (Expr K)) :
    factorsWeight (normalizeFactors es) ≤ factorsWeight es := by
  match es with
  | [] => exact Nat.le_refl _
  | e :: es =>
    have := factorsWeight_asFactors_le e.normalize
    have := factorWeight_normalize_le (weight_normalize_le e)
    have := factorsWeight_normalizeFactors_le es
    simp only [normalizeFactors, factorsWeight_append, factorsWeight_cons]
    omega

end

/-- Normalization takes weight off a list that has a sum among its entries. -/
theorem addendsWeight_normalizeAddends_lt {as : List (Addend (Expr K))}
    (h : (as.any fun a => a.expr.isSum) = true) :
    addendsWeight (normalizeAddends as) < addendsWeight as := by
  induction as with
  | nil => cases h
  | cons a as ih =>
      obtain ⟨e, s⟩ := a
      have := addendWeight_normalize_le (weight_normalize_le e) s
      simp only [normalizeAddends, addendsWeight_append, addendsWeight_cons]
      rw [List.any_cons, Bool.or_eq_true] at h
      -- the sum is the first entry, or is found among the others
      rcases h with he | has
      · have := addendsWeight_asAddends_lt ((isSum_normalize e).trans he) s
        have := addendsWeight_normalizeAddends_le as
        omega
      · have := addendsWeight_asAddends_le e.normalize s
        have := ih has
        omega

/-- Normalization takes weight off a list that has a product among its factors. -/
theorem factorsWeight_normalizeFactors_lt {es : List (Expr K)}
    (h : es.any isProduct = true) : factorsWeight (normalizeFactors es) < factorsWeight es := by
  induction es with
  | nil => cases h
  | cons e es ih =>
      have := factorWeight_normalize_le (weight_normalize_le e)
      simp only [normalizeFactors, factorsWeight_append, factorsWeight_cons]
      rw [List.any_cons, Bool.or_eq_true] at h
      rcases h with he | hes
      · have := factorsWeight_asFactors_lt ((isProduct_normalize e).trans he)
        have := factorsWeight_normalizeFactors_le es
        omega
      · have := factorsWeight_asFactors_le e.normalize
        have := ih hes
        omega

/-! ## The product of a list -/

theorem productOf_of_two_le {es : List (Expr K)} (h : 2 ≤ es.length) :
    Fraction.productOf es = product es := by
  match es, h with
  | _ :: _ :: _, _ => rfl

/-- Either nothing is left to do about a product, or it collapses to something lighter. -/
theorem productOf_eq_or_lighter (es : List (Expr K)) :
    Fraction.productOf es = product es ∨ Lighter (Fraction.productOf es) (product es) := by
  -- the product of no factors is the number one, and that of one factor is this factor
  match es with
  | [] =>
    right
    refine Lighter.of_isFraction rfl ?_
    simp [Fraction.productOf, collapse, weight, endCharge]
  | [e] =>
    have := le_factorWeight e
    refine Or.inr (Lighter.of_isFraction rfl ?_)
    simp only [Fraction.productOf, collapse, weight, factorsWeight_cons]
    omega
  | _ :: _ :: _ => exact Or.inl rfl

/-- The weight of a product bounds that of what it collapses to. -/
theorem weight_productOf_le (es : List (Expr K)) :
    (Fraction.productOf es).weight ≤ factorsWeight es + 2 + endCharge es.getLast? := by
  rcases productOf_eq_or_lighter es with h | h
  · exact Nat.le_of_eq (congrArg weight h)
  · exact Nat.le_of_lt h.1

/-! ## Gathering factors -/

/-- The factors with their numbers multiplied into one at the end, unless that is one. -/
def gatherFactors (es : List (Expr K)) : List (Expr K) :=
  let value := Scalar.product (es.filterMap asNumber?)
  let rest := es.filter fun e => !e.isNumber
  if value == 1 then rest else rest ++ [number value]

/-- Every number among the factors costs 17 units, wherever it stands. -/
theorem factorsWeight_eq_filter (es : List (Expr K)) :
    factorsWeight es = factorsWeight (es.filter fun e => !e.isNumber) +
      17 * (es.filterMap asNumber?).length := by
  induction es with
  | nil => rfl
  | cons e es ih =>
      rw [factorsWeight_cons, ih]
      rcases eq_number_or e with ⟨v, rfl⟩ | ⟨hnum, hnone⟩
      · have hsome : asNumber? (number v) = some v := rfl
        rw [List.filterMap_cons_some hsome, List.filter_cons_of_neg (by simp [isNumber]),
          List.length_cons, factorWeight_number]
        omega
      · rw [List.filterMap_cons_none hnone, List.filter_cons_of_pos (by simp [hnum]),
          factorsWeight_cons]
        omega

/-- A number at the end of a list of factors takes the place of the charge for its end. -/
theorem weight_productOf_append_number_le (rest : List (Expr K)) (value : K) :
    (Fraction.productOf (if value == 1 then rest else rest ++ [number value])).weight ≤
      factorsWeight rest + 19 := by
  split
  · have := weight_productOf_le rest
    have := endCharge_le_one rest.getLast?
    omega
  · have := weight_productOf_le (rest ++ [number value])
    simp only [factorsWeight_append, factorsWeight_cons, factorsWeight_nil, factorWeight_number,
      List.getLast?_append, List.getLast?_singleton, Option.some_or, endCharge_number] at this
    omega

/-- However many numbers there were, one is left at most. -/
theorem weight_productOf_gatherFactors_le (es : List (Expr K)) :
    (Fraction.productOf (gatherFactors es)).weight ≤
      factorsWeight (es.filter fun e => !e.isNumber) + 19 :=
  weight_productOf_append_number_le _ _

section Laws

variable [UnitLaws K]

theorem product_beq_one_nil : (Scalar.product ([] : List K) == 1) = true := UnitLaws.one_beq_one

/-- Gathering leaves a single number at the end of the factors where it is. -/
theorem productOf_gatherFactors_of_last {rest : List (Expr K)} {v : K}
    (hrest : ∀ e ∈ rest, e.isNumber = false) :
    (Fraction.productOf (gatherFactors (rest ++ [number v]))).weight <
        (Fraction.productOf (rest ++ [number v])).weight ∨
      Alike (Fraction.productOf (gatherFactors (rest ++ [number v])))
        (Fraction.productOf (rest ++ [number v])) := by
  -- only the last entry is a number
  have hgather : gatherFactors (rest ++ [number v]) =
      if Scalar.product [v] == 1 then rest else rest ++ [number (Scalar.product [v])] := by
    have hnone : rest.filterMap asNumber? = [] :=
      List.filterMap_eq_nil_iff.mpr fun e he =>
        (eq_number_or e).elim (fun ⟨w, hw⟩ => by simpa [hw, isNumber] using hrest e he) And.right
    have hself : (rest.filter fun e => !e.isNumber) = rest :=
      List.filter_eq_self.mpr fun e he => by simp [hrest e he]
    simp [gatherFactors, List.filterMap_append, List.filter_append, hnone, hself]
  have hsame : Scalar.same (Scalar.product [v]) v := same_product_singleton v
  rw [hgather]
  cases rest with
  -- the number is all there is, and one is what an empty product collapses to
  | nil =>
      right
      split
      · next hone =>
          have hone : Scalar.same 1 v :=
            UnitLaws.same_trans (UnitLaws.same_symm (same_of_beq hone)) hsame
          exact alike_number_iff.mpr ⟨v, rfl, hone⟩
      · exact alike_number_iff.mpr ⟨v, rfl, hsame⟩
  | cons e es =>
      rw [productOf_of_two_le (show 2 ≤ (e :: es ++ [number v]).length by simp)]
      split
      · left
        have := weight_productOf_le (e :: es)
        have := endCharge_le_one (e :: es).getLast?
        simp only [weight, factorsWeight_append, factorsWeight_cons, factorsWeight_nil,
          factorWeight_number] at *
        omega
      · right
        rw [productOf_of_two_le (by simp)]
        have hlast : Alike (number (Scalar.product [v])) (number v) :=
          alike_number_iff.mpr ⟨v, rfl, hsame⟩
        exact alike_product_iff.mpr
          ⟨_, rfl, List.rel_append (Alike.refl_factors (e :: es)) (.cons hlast .nil)⟩

/-- Gathering factors takes weight off their product or leaves it as it is. -/
theorem productOf_gatherFactors (es : List (Expr K)) :
    (Fraction.productOf (gatherFactors es)).weight < (Fraction.productOf es).weight ∨
      Alike (Fraction.productOf (gatherFactors es)) (Fraction.productOf es) := by
  have hweight := factorsWeight_eq_filter es
  -- without a number nothing is gathered, a single number may already be last, and of several
  -- numbers only one is left
  match hnum : es.filterMap asNumber? with
  | [] =>
    right
    rw [gatherFactors, hnum, if_pos product_beq_one_nil, filter_eq_self_of_no_number hnum]
    exact Alike.refl _
  | [v] =>
    rw [hnum, List.length_singleton] at hweight
    by_cases hend : endCharge es.getLast? = 0
    · have hes := eq_filter_append_number hnum hend
      rw [hes]
      exact productOf_gatherFactors_of_last fun e he => by simpa using List.of_mem_filter he
    · left
      -- moving the number to the end saves what is charged for a list that does not end with one
      have hlen : 2 ≤ es.length := by
        match es, hnum, hend with
        | [e], hnum, hend =>
          rcases eq_number_or e with ⟨w, rfl⟩ | ⟨_, hnone⟩
          · exact absurd rfl hend
          · simp [hnone] at hnum
        | _ :: _ :: _, _, _ => simp
      have := endCharge_le_one es.getLast?
      have := weight_productOf_gatherFactors_le es
      rw [productOf_of_two_le hlen]
      simp only [weight]
      omega
  | v :: w :: vs =>
    left
    have hlen : 2 ≤ es.length := by
      have := List.length_filterMap_le asNumber? es
      rw [hnum] at this
      simp only [List.length_cons] at this
      omega
    have := weight_productOf_gatherFactors_le es
    rw [hnum] at hweight
    rw [productOf_of_two_le hlen]
    simp only [weight, List.length_cons] at hweight ⊢
    omega

/-- Gathering the numbers of a product makes it lighter or leaves it as it is. -/
theorem gatherProduct_lighter_or_alike (es : List (Expr K)) :
    Lighter (gatherProduct es) (product es) ∨ Alike (gatherProduct es) (product es) := by
  -- a product that is undefined or has only numbers becomes a number
  have hgather : (∃ v, gatherProduct es = number v) ∨
      gatherProduct es = Fraction.productOf (gatherFactors es) := by
    unfold gatherProduct gatherFactors
    dsimp only
    split
    · exact Or.inl ⟨_, rfl⟩
    · split
      · exact Or.inl ⟨_, rfl⟩
      · exact Or.inr rfl
  rcases hgather with ⟨v, hv⟩ | hgather
  · exact Or.inl (hv ▸ Lighter.number rfl v)
  · rw [hgather]
    rcases productOf_eq_or_lighter es with heq | hlt <;>
      rcases productOf_gatherFactors es with hgt | halike
    · exact Or.inl (Lighter.of_isFraction rfl (heq ▸ hgt))
    · exact Or.inr (heq ▸ halike)
    · exact Or.inl (Lighter.of_isFraction rfl (Nat.lt_trans hgt hlt.1))
    · exact Or.inl (Lighter.of_isFraction rfl (halike.weight_eq ▸ hlt.1))

end Laws

/-! ## Gathering the numbers of a sum -/

/-- Every number among the entries of a sum costs two units at least. -/
theorem addendsWeight_eq_filter (as : List (Addend (Expr K))) :
    addendsWeight (as.filter fun a => !a.expr.isNumber) +
        2 * (as.filterMap addendNumber?).length ≤ addendsWeight as := by
  induction as with
  | nil => exact Nat.le_refl _
  | cons a as ih =>
      have htwo := two_le_addendWeight a
      rcases hnum : a.expr.isNumber with _ | _
      · have hnone : addendNumber? a = none := by
          rw [← Option.isNone_iff_eq_none, isNone_addendNumber?, hnum, Bool.not_false]
        rw [List.filterMap_cons_none hnone, List.filter_cons_of_pos (by simp [hnum])]
        simp only [addendsWeight_cons]
        omega
      · obtain ⟨v, hsome⟩ : ∃ v, addendNumber? a = some v := by
          rw [← Option.isSome_iff_exists, ← Option.not_isNone, isNone_addendNumber?, hnum]
          rfl
        rw [List.filterMap_cons_some hsome, List.filter_cons_of_neg (by simp [hnum])]
        simp only [addendsWeight_cons, List.length_cons]
        omega

/-- Leaving the numbers of a sum out takes weight off it, if there are any. -/
theorem sum_filter_eq_or_lighter (as : List (Addend (Expr K))) :
    sum (as.filter fun a => !a.expr.isNumber) = sum as ∨
      Lighter (sum (as.filter fun a => !a.expr.isNumber)) (sum as) := by
  have hweight := addendsWeight_eq_filter as
  cases hnum : as.filterMap addendNumber? with
  | nil =>
      have hnone := List.filterMap_eq_nil_iff.mp hnum
      refine Or.inl (congrArg sum (List.filter_eq_self.mpr fun a ha => ?_))
      rw [← isNone_addendNumber?, hnone a ha, Option.isNone_none]
  | cons a nums =>
      rw [hnum, List.length_cons] at hweight
      have := endCharge_le_one ((as.filter fun a => !a.expr.isNumber).getLast?.map Addend.expr)
      refine Or.inr (Lighter.of_not_isFraction rfl ?_)
      rw [weight, weight]
      omega

theorem sumOfTerms_cons_cons (a b : Addend (Expr K)) (as : List (Addend (Expr K))) :
    sumOfTerms (a :: b :: as) = sum (a :: b :: as) := by
  simp [sumOfTerms, collapse]

theorem gatherSum_of_filter_eq_nil {as : List (Addend (Expr K))}
    (h : (as.filter fun a => !a.expr.isNumber) = []) :
    gatherSum as = number (Addend.total (as.filterMap addendNumber?)) := by
  simp only [gatherSum, h]

/-- The terms of a sum are rebuilt without its numbers if these add up to zero. Else their total
comes after the terms, and there are two entries at least. -/
theorem gatherSum_of_filter_ne_nil {as : List (Addend (Expr K))}
    (h : (as.filter fun a => !a.expr.isNumber) ≠ []) :
    gatherSum as =
      if Addend.total (as.filterMap addendNumber?) == 0 then
        sumOfTerms (as.filter fun a => !a.expr.isNumber)
      else
        sum ((as.filter fun a => !a.expr.isNumber) ++
          [signedAddend (Addend.total (as.filterMap addendNumber?))]) := by
  obtain ⟨t, ts, hterms⟩ := List.exists_cons_of_ne_nil h
  simp only [gatherSum, hterms]
  split
  · rfl
  · cases ts <;> exact sumOfTerms_cons_cons _ _ _

omit [Scalar K] in
theorem isNumber_of_mem_filter {as : List (Addend (Expr K))} :
    ∀ a ∈ as.filter fun a => !a.expr.isNumber, a.expr.isNumber = false := by
  intro a ha
  simpa using List.of_mem_filter ha

/-- Either nothing is left to do about a sum without numbers, or it becomes something lighter. -/
theorem sumOfTerms_eq_or_lighter {terms : List (Addend (Expr K))}
    (h : ∀ a ∈ terms, a.expr.isNumber = false) :
    sumOfTerms terms = sum terms ∨ Lighter (sumOfTerms terms) (sum terms) := by
  match terms, h with
  | [], _ =>
    exact Or.inr (Lighter.of_not_isFraction rfl (by simp [sumOfTerms, collapse, weight, endCharge]))
  | [⟨e, true⟩], h =>
    right
    have hnum : e.isNumber = false := h _ List.mem_cons_self
    have := three_le_weight hnum
    have := factorsWeight_asFactors_le e
    have := factorWeight_le e
    have := endCharge_le_one (number Scalar.minusOne :: e.asFactors).getLast?
    -- the charge for subtracting the only term pays for a product with minus one
    have hneg : sumOfTerms [⟨e, true⟩] = product (number Scalar.minusOne :: e.asFactors) := rfl
    rw [hneg]
    refine Lighter.of_add_three_le ?_
    simp only [weight, addendsWeight_cons, addendsWeight_nil, factorsWeight_cons,
      factorWeight_number, addendWeight_of_not_isNumber hnum, if_true]
    omega
  | [⟨e, false⟩], h =>
    right
    have hnum : e.isNumber = false := h _ List.mem_cons_self
    have hplus : sumOfTerms [⟨e, false⟩] = e := rfl
    rw [hplus]
    refine Lighter.of_add_three_le ?_
    simp only [weight, addendsWeight_cons, addendsWeight_nil, addendWeight_of_not_isNumber hnum,
      List.getLast?_singleton, Option.map_some, endCharge, Option.any_some, hnum,
      Bool.false_eq_true, if_false]
    omega
  | a :: b :: as, _ => exact Or.inl (sumOfTerms_cons_cons a b as)

omit [Scalar K] in
/-- A single number that comes last is where gathering puts it. -/
theorem eq_filter_append_addend {as : List (Addend (Expr K))} {v : K} {s : Bool}
    (hnum : as.filterMap addendNumber? = [⟨v, s⟩])
    (hend : endCharge (as.getLast?.map Addend.expr) = 0) :
    as = (as.filter fun a => !a.expr.isNumber) ++ [⟨number v, s⟩] := by
  rcases List.eq_nil_or_concat as with rfl | ⟨init, ⟨e, t⟩, rfl⟩
  · cases hnum
  · rw [List.concat_eq_append] at hnum hend ⊢
    rcases eq_number_or e with ⟨w, rfl⟩ | ⟨he, _⟩
    · obtain ⟨hfilter, hw⟩ := filter_isNone_of_filterMap_append hnum rfl
      cases hw
      simp only [isNone_addendNumber?] at hfilter
      rw [hfilter]
    · simp [endCharge, he] at hend

section Laws

variable [UnitLaws K]

/-- The sign of a total is put where it belongs, so the total is charged least. -/
theorem addendWeight_signedAddend (v : K) : addendWeight (signedAddend v) = 2 := by
  unfold signedAddend
  split
  -- a negative total is subtracted after its sign was taken off
  · next hneg =>
      have hsettled : isSettled (-v) true = true :=
        (UnitLaws.isNeg_congr (UnitLaws.neg_neg v)).trans hneg
      exact if_pos hsettled
  · next hneg =>
      have hsettled : isSettled v false = true := by simpa [isSettled] using hneg
      exact if_pos hsettled

omit [UnitLaws K] in
theorem isNumber_signedAddend (v : K) : (signedAddend v).expr.isNumber = true := by
  unfold signedAddend
  split <;> rfl

/-- A number whose sign is where it belongs is not changed by gathering. -/
theorem signedAddend_total_singleton {v : K} {s : Bool} (h : isSettled v s = true) :
    AddendRel Alike (signedAddend (Addend.total [⟨v, s⟩])) ⟨number v, s⟩ := by
  have htotal := same_total_singleton v s
  have hneg := UnitLaws.isNeg_congr htotal
  unfold signedAddend
  cases s with
  | false =>
      have hpos : isNeg v = false := by simpa [isSettled] using h
      rw [hneg, if_neg (by simp [hpos])]
      exact ⟨alike_number_iff.mpr ⟨v, rfl, htotal⟩, rfl⟩
  -- a subtracted number is taken from zero, and its sign is taken off again
  | true =>
      have hpos : isNeg (-v) = true := h
      rw [hneg, if_pos (by simp [hpos])]
      have hback : Scalar.same (-(Addend.total [⟨v, true⟩])) v :=
        UnitLaws.same_trans (UnitLaws.neg_congr htotal) (UnitLaws.neg_neg v)
      exact ⟨alike_number_iff.mpr ⟨v, rfl, hback⟩, rfl⟩

theorem weight_sum_append_signedAddend (terms : List (Addend (Expr K))) (v : K) :
    (sum (terms ++ [signedAddend v])).weight = addendsWeight terms + 4 := by
  simp [weight, addendWeight_signedAddend, endCharge, isNumber_signedAddend]

/-- A total that is not zero, put at the end of the other terms. -/
theorem sum_append_signedAddend_lighter_or_alike {as : List (Addend (Expr K))} {total : K}
    (htotal : Addend.total (as.filterMap addendNumber?) = total) (hzero : (total == 0) = false) :
    let e := sum ((as.filter fun a => !a.expr.isNumber) ++ [signedAddend total])
    Lighter e (sum as) ∨ Alike e (sum as) := by
  intro e
  have hweight := addendsWeight_eq_filter as
  have he : e.weight = addendsWeight (as.filter fun a => !a.expr.isNumber) + 4 :=
    weight_sum_append_signedAddend _ total
  -- there is no number, one, which may be where it belongs, or there are more, of which one is left
  match hnum : as.filterMap addendNumber? with
  | [] =>
    -- the total of no numbers is zero
    rw [hnum] at htotal
    have : (total == 0) = true := htotal ▸ UnitLaws.zero_beq_zero
    exact absurd hzero (by simp [this])
  | [⟨v, s⟩] =>
    rw [hnum] at htotal
    by_cases hend : endCharge (as.getLast?.map Addend.expr) = 0
    · have has := eq_filter_append_addend hnum hend
      -- where it is, the number can only change its sign, and it costs more with the wrong one
      by_cases hsettled : isSettled v s = true
      · right
        have hlast := htotal ▸ signedAddend_total_singleton hsettled
        rw [has]
        simp only [e]
        exact alike_sum_iff.mpr
          ⟨_, rfl, List.rel_append (Alike.refl_addends _) (.cons hlast .nil)⟩
      · left
        refine Lighter.of_not_isFraction rfl ?_
        rw [he, has]
        simp [weight, addendWeight_number, hsettled]
    · left
      rw [hnum, List.length_singleton] at hweight
      refine Lighter.of_not_isFraction rfl ?_
      rw [he, weight]
      omega
  | a :: b :: nums =>
    left
    rw [hnum] at hweight
    simp only [List.length_cons] at hweight
    refine Lighter.of_not_isFraction rfl ?_
    rw [he, weight]
    omega

/-- Gathering the numbers of a sum makes it lighter or leaves it as it is. -/
theorem gatherSum_lighter_or_alike (as : List (Addend (Expr K))) :
    Lighter (gatherSum as) (sum as) ∨ Alike (gatherSum as) (sum as) := by
  by_cases hterms : (as.filter fun a => !a.expr.isNumber) = []
  · rw [gatherSum_of_filter_eq_nil hterms]
    exact Or.inl (Lighter.number rfl _)
  · rw [gatherSum_of_filter_ne_nil hterms]
    split
    -- leaving the numbers out and rebuilding the terms are two steps, neither of which adds weight
    · rcases sumOfTerms_eq_or_lighter (@isNumber_of_mem_filter _ as) with heq | hlt <;>
        rcases sum_filter_eq_or_lighter as with hsum | hsum
      · exact Or.inr (heq.trans hsum ▸ Alike.refl _)
      · exact Or.inl (heq ▸ hsum)
      · exact Or.inl (hsum ▸ hlt)
      · exact Or.inl (hlt.trans hsum)
    · next hzero => exact sum_append_signedAddend_lighter_or_alike rfl (by simpa using hzero)

end Laws

end Expr

end SymbolicCalculus
