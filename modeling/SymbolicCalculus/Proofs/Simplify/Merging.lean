import SymbolicCalculus.Proofs.Simplify.Bases
import SymbolicCalculus.Proofs.Simplify.Reduction

/-!
# The weight of merged powers

A base and an exponent weigh as much as the factor they stand for. Adding an exponent to another
saves a base, and subtracting one saves a base below the bar. Both savings exceed what the sum of
the exponents costs.
-/

namespace SymbolicCalculus

open SymbolicCalculus.Expr Scalar

variable {K : Type} [Scalar K]

namespace Powers

/-- The weight of a base with an exponent as a factor. An exponent of one is not written. -/
def powerWeight (base exponent : Expr K) : Nat :=
  if exponent.isNumberEq 1 then base.factorWeight else (Expr.power base exponent).factorWeight

/-- The weight of a list of powers. -/
def powersWeight (powers : Powers K) : Nat :=
  powers.foldr (fun p weight => powerWeight p.1 p.2 + weight) 0

@[simp] theorem powersWeight_nil : powersWeight ([] : Powers K) = 0 := rfl

@[simp] theorem powersWeight_cons (p : Expr K × Expr K) (powers : Powers K) :
    powersWeight (p :: powers) = powerWeight p.1 p.2 + powersWeight powers := rfl

@[simp] theorem powersWeight_append (ps qs : Powers K) :
    powersWeight (ps ++ qs) = powersWeight ps + powersWeight qs := by
  induction ps with
  | nil => simp
  | cons p ps ih => simp [ih, Nat.add_assoc]

/-- A power is charged four units, and sixteen for being a factor. -/
theorem factorWeight_power (base exponent : Expr K) :
    (Expr.power base exponent).factorWeight = base.weight + exponent.weight + 20 := by
  rw [factorWeight_of_not_isFraction rfl, weight]
  omega

/-- The charge for a power lies between these bounds, whether its exponent is written or not. -/
theorem powerWeight_le (base exponent : Expr K) :
    powerWeight base exponent ≤ base.weight + exponent.weight + 20 := by
  have := factorWeight_le base
  unfold powerWeight
  split
  · omega
  · exact Nat.le_of_eq (factorWeight_power base exponent)

/-- An exponent that is not written weighs one unit, so that the lower bound is sixteen less that
unit. -/
theorem le_powerWeight (base exponent : Expr K) :
    base.weight + exponent.weight + 15 ≤ powerWeight base exponent := by
  have := le_factorWeight base
  unfold powerWeight
  split
  · next h =>
      cases exponent with
      | number v =>
          rw [weight]
          omega
      | _ => cases h
  · rw [factorWeight_power]
    omega

/-! ## Factors as powers -/

/-- Taking a factor for a power costs nothing. -/
theorem powerWeight_ofFactor_le [UnitLaws K] (e : Expr K) :
    powerWeight (ofFactor e).1 (ofFactor e).2 ≤ e.factorWeight := by
  have hone : (number (1 : K)).isNumberEq 1 = true := UnitLaws.one_beq_one
  cases e with
  | power b x =>
      have := powerWeight_le b x
      rw [factorWeight_power]
      exact this
  | _ => simp only [ofFactor, powerWeight, hone, if_true, Nat.le_refl]

/-- Writing a power down as a factor costs nothing. -/
theorem factorWeight_toFactor_le (base exponent : Expr K) :
    (toFactor base exponent).factorWeight ≤ powerWeight base exponent := by
  have := le_powerWeight base exponent
  have := one_le_weight base
  have := one_le_weight exponent
  unfold toFactor
  split
  -- an exponent of zero makes it the number one
  · rw [factorWeight_number]
    omega
  · unfold powerWeight
    split <;> exact Nat.le_refl _

/-- The factors that powers are written down as weigh no more than the powers. -/
theorem factorsWeight_toFactors_le (powers : Powers K) :
    factorsWeight (toFactors powers) ≤ powersWeight powers := by
  induction powers with
  | nil => exact Nat.le_refl _
  | cons p powers ih =>
      have := factorWeight_toFactor_le p.1 p.2
      simp only [toFactors, List.map_cons, factorsWeight_cons, powersWeight_cons] at ih ⊢
      omega

/-- A factor that is taken for a power and back stays as it is, or becomes simpler. -/
theorem toFactor_ofFactor_lightens [UnitLaws K] (e : Expr K) :
    Lightens e (toFactor (ofFactor e).1 (ofFactor e).2) := by
  have hone : (number (1 : K)).isNumberEq 1 = true := UnitLaws.one_beq_one
  have hzero : (number (1 : K)).isNumberEq 0 = false := UnitLaws.one_beq_zero
  cases e with
  | power b x =>
      unfold ofFactor toFactor
      dsimp only
      split
      -- a factor can be a power with the exponent zero or one, which is simplified on the way
      · exact Or.inr (Lighter.number rfl 1)
      · split
        · exact Or.inr (Lighter.of_add_three_le (by simp only [weight]; omega))
        · exact Or.inl rfl
  | _ => exact Or.inl (by simp [ofFactor, toFactor, hone, hzero])

/-! ## Adding exponents -/

/-- An entry with a plus costs two units besides its weight at most. -/
theorem addendWeight_plus_le (e : Expr K) : addendWeight (.plus e) ≤ e.weight + 2 := by
  rcases eq_number_or e with ⟨v, rfl⟩ | ⟨h, _⟩
  · exact addendWeight_number_le v false
  · rw [Addend.plus, addendWeight_of_not_isNumber h]
    simp

/-- Subtracting costs sixteenfold at most. -/
theorem addendWeight_le (e : Expr K) (s : Bool) : addendWeight ⟨e, s⟩ ≤ 16 * (e.weight + 1) := by
  rcases eq_number_or e with ⟨v, rfl⟩ | ⟨h, _⟩
  · have := addendWeight_number_le v s
    simp only [weight]
    omega
  · rw [addendWeight_of_not_isNumber h]
    split <;> omega

variable [UnitLaws K]

/-- The sum of two exponents weighs no more than its entries before they are gathered. -/
theorem weight_addExponents_le (a b : Expr K) (subtract : Bool) :
    (addExponents a b subtract).weight ≤
      addendWeight (.plus a) + addendWeight ⟨b, subtract⟩ + 3 := by
  -- neither merging nested sums nor gathering numbers adds weight
  have hnormalize : (sum (normalizeAddends [.plus a, ⟨b, subtract⟩])).weight ≤
      (sum [.plus a, ⟨b, subtract⟩]).weight := weight_normalize_le (sum [.plus a, ⟨b, subtract⟩])
  have hgather : (addExponents a b subtract).weight ≤
      (sum (normalizeAddends [.plus a, ⟨b, subtract⟩])).weight := by
    rcases gatherSum_lighter_or_alike (normalizeAddends [.plus a, ⟨b, subtract⟩]) with h | h
    · exact Nat.le_of_lt h.1
    · exact Nat.le_of_eq h.weight_eq
  have := endCharge_le_one (some b)
  have hsum : (sum [.plus a, ⟨b, subtract⟩]).weight =
      addendWeight (.plus a) + addendWeight ⟨b, subtract⟩ + 2 + endCharge (some b) := by
    simp [weight]
  omega

/-- One power of a sum of exponents weighs less than two powers of one base. -/
theorem powerWeight_addExponents_le {b b' : Expr K} (h : Alike b b') (x y : Expr K) :
    powerWeight b (addExponents x y false) + 4 ≤ powerWeight b x + powerWeight b' y := by
  have hadd := weight_addExponents_le x y false
  have hx := addendWeight_plus_le x
  have hy := addendWeight_plus_le y
  rw [Addend.plus] at hy
  have := powerWeight_le b (addExponents x y false)
  have := le_powerWeight b x
  have := le_powerWeight b' y
  have := one_le_weight b
  rw [← h.weight_eq] at *
  omega

/-- A power of a difference of exponents weighs less than two powers of one base, the second of
which is below a bar. -/
theorem powerWeight_subtractExponents_le {b b' : Expr K} (h : Alike b b') (x y : Expr K) :
    powerWeight b (addExponents x y true) + 500 ≤ powerWeight b x + 32 * powerWeight b' y := by
  have hadd := weight_addExponents_le x y true
  have hx := addendWeight_plus_le x
  have hy := addendWeight_le y true
  have := powerWeight_le b (addExponents x y true)
  have := le_powerWeight b x
  have := le_powerWeight b' y
  have := one_le_weight b
  have := one_le_weight y
  -- the subtracted exponent is charged sixteenfold here and thirty-two-fold below the bar
  rw [← h.weight_eq] at *
  omega

/-! ## Merging -/

/-- Multiplying by one more power adds it to the list or merges it, which takes weight off. -/
theorem insert_append_or_lighter (powers : Powers K) (p : Expr K × Expr K) :
    powers.insert p = powers ++ [p] ∨
      (powers.insert p).length = powers.length ∧
        powersWeight (powers.insert p) + 4 ≤ powersWeight powers + powerWeight p.1 p.2 := by
  cases hraise : raise? p.1 p.2 false powers with
  | none => exact Or.inl (by simp [insert, hraise])
  | some powers' =>
      obtain ⟨before, b, x, after, rfl, hb, rfl⟩ := raise?_eq_some hraise
      have := powerWeight_addExponents_le hb x p.2
      refine Or.inr ⟨by simp [insert, hraise], ?_⟩
      simp only [insert, hraise, Option.getD_some, powersWeight_append, powersWeight_cons]
      omega

/-- Inserting powers one after the other merges none of them, or makes the list shorter and lighter.
-/
theorem foldl_insert_append_or_lighter (ps powers : Powers K) :
    ps.foldl insert powers = powers ++ ps ∨
      (ps.foldl insert powers).length < powers.length + ps.length ∧
        powersWeight (ps.foldl insert powers) + 4 ≤ powersWeight powers + powersWeight ps := by
  induction ps generalizing powers with
  | nil => exact Or.inl (by simp)
  | cons p ps ih =>
      simp only [List.foldl_cons, List.length_cons, powersWeight_cons]
      -- the first power is added at the end or merged
      rcases insert_append_or_lighter powers p with hinsert | ⟨hlen, hweight⟩
      · rw [hinsert]
        refine (ih (powers ++ [p])).imp (fun h => by simpa using h) fun ⟨hlen, hweight⟩ => ?_
        simp only [List.length_append, List.length_singleton, powersWeight_append,
          powersWeight_cons, powersWeight_nil] at hlen hweight
        omega
      · right
        -- what is merged already pays, whatever becomes of the other powers
        rcases ih (powers.insert p) with h | ⟨hlen', hweight'⟩
        · rw [h, List.length_append, powersWeight_append]
          omega
        · omega

/-- As powers, factors weigh no more than before. -/
theorem powersWeight_map_ofFactor_le (factors : List (Expr K)) :
    powersWeight (factors.map ofFactor) ≤ factorsWeight factors := by
  induction factors with
  | nil => exact Nat.le_refl _
  | cons e es ih =>
      have := powerWeight_ofFactor_le e
      simp only [List.map_cons, powersWeight_cons, factorsWeight_cons]
      omega

/-- The list of powers is as long as the list of factors only if nothing was merged. -/
theorem ofFactors_eq_or_shorter (factors : List (Expr K)) :
    ofFactors factors = factors.map ofFactor ∨
      (ofFactors factors).length < factors.length ∧
        powersWeight (ofFactors factors) + 4 ≤ factorsWeight factors := by
  have hle := powersWeight_map_ofFactor_le factors
  refine (foldl_insert_append_or_lighter (factors.map ofFactor) []).imp id fun ⟨hlen, hweight⟩ => ?_
  simp only [List.length_nil, List.length_map, powersWeight_nil] at hlen hweight
  rw [ofFactors]
  omega

/-- Either every factor has a base of its own, or merging the powers takes weight off. -/
theorem ofFactors_eq_or_lighter (factors : List (Expr K)) :
    ofFactors factors = factors.map ofFactor ∨
      2 ≤ factors.length ∧ (ofFactors factors).length < factors.length ∧
        powersWeight (ofFactors factors) + 4 ≤ factorsWeight factors :=
  match factors with
  | [] => Or.inl rfl
  | [_] => Or.inl rfl
  | e :: f :: es => (ofFactors_eq_or_shorter (e :: f :: es)).imp_right fun h => ⟨by simp, h⟩

/-- Merged or not, the powers weigh no more than the factors. -/
theorem powersWeight_ofFactors_le (factors : List (Expr K)) :
    powersWeight (ofFactors factors) ≤ factorsWeight factors := by
  have hle := powersWeight_map_ofFactor_le factors
  rcases ofFactors_eq_or_lighter factors with h | h
  · rwa [h]
  · omega

/-- Either no base is both above and below the bar, or dividing takes weight off, most of it from
below the bar. -/
theorem divide_eq_or_lighter (num den : Powers K) :
    divide num den = (num, den) ∨
      (divide num den).2.length < den.length ∧
        powersWeight (divide num den).1 + 32 * powersWeight (divide num den).2 + 500 ≤
          powersWeight num + 32 * powersWeight den := by
  induction den generalizing num with
  | nil => exact Or.inl rfl
  | cons p den ih =>
      rw [divide]
      split
      · next num' hraise =>
          obtain ⟨before, b, x, after, rfl, hb, rfl⟩ := raise?_eq_some hraise
          have := powerWeight_subtractExponents_le hb x p.2
          right
          -- the exponent that was subtracted pays, whatever becomes of the other powers
          rcases ih (before ++ (b, addExponents x p.2 true) :: after) with h | ⟨hlen, hweight⟩
          · rw [h]
            simp only [List.length_cons, powersWeight_append, powersWeight_cons]
            omega
          · simp only [List.length_cons, powersWeight_append, powersWeight_cons] at hweight ⊢
            omega
      · rcases ih num with h | ⟨hlen, hweight⟩
        · exact Or.inl (by rw [h])
        · right
          simp only [List.length_cons, powersWeight_cons]
          omega

/-! ## The merged fraction -/

omit [UnitLaws K] in
/-- With fewer factors below the bar, what they weigh counts fully. -/
theorem denWeight_toFactors_le {powers : Powers K} {den : List (Expr K)}
    (h : powers.length < den.length) :
    Fraction.denWeight (toFactors powers) + 32 * factorsWeight den ≤
      Fraction.denWeight den + 32 * powersWeight powers + 32 := by
  have hne : den ≠ [] := by
    rintro rfl
    cases h
  have := factorsWeight_toFactors_le powers
  have := weight_productOf_le_add (toFactors powers)
  rw [Fraction.denWeight_of_ne_nil hne]
  cases powers with
  | nil =>
      have := factorsWeight_le_add den
      simp only [toFactors, List.map_nil, Fraction.denWeight_nil, powersWeight_nil]
      omega
  | cons p powers =>
      rw [List.length_cons] at h
      rw [productOf_of_two_le (show 2 ≤ den.length by omega), weight,
        Fraction.denWeight_of_ne_nil (by simp [toFactors])]
      omega

omit [UnitLaws K] in
/-- Leaving factors of one out of a product does not add weight. -/
theorem weight_productOf_filter_le (powers : Powers K) :
    (Fraction.productOf ((toFactors powers).filter fun e => !e.isNumberEq 1)).weight ≤
      powersWeight powers + 3 := by
  have := factorsWeight_toFactors_le powers
  have := weight_productOf_le_add ((toFactors powers).filter fun e => !e.isNumberEq 1)
  have hsub : ((toFactors powers).filter fun e => !e.isNumberEq 1).Sublist (toFactors powers) :=
    List.filter_sublist
  have := factorsWeight_sublist hsub
  have := hsub.length_le
  omega

/-- Factors with a base of their own come back as they were or simpler. -/
theorem toFactors_map_ofFactor_lightens (es : List (Expr K)) :
    List.Forall₂ Lightens es (toFactors (es.map ofFactor)) := by
  induction es with
  | nil => exact .nil
  | cons e es ih => exact .cons (toFactor_ofFactor_lightens e) ih

omit [UnitLaws K] in
/-- A product of factors that are lightened one by one stays as it is or weighs less. -/
theorem productOf_eq_or_lighter_of_lightens {es fs : List (Expr K)}
    (h : List.Forall₂ Lightens es fs) :
    fs = es ∨ (Fraction.productOf fs).weight < (Fraction.productOf es).weight := by
  have hlast := Lightens.endCharge_getLast?_le h
  -- with less than two factors there is no product around them
  match es, fs, h with
  | [], [], _ => exact Or.inl rfl
  | [e], [f], .cons hef .nil =>
    rcases hef with rfl | hef
    · exact Or.inl rfl
    · exact Or.inr hef.1
  | _ :: _ :: _, _ :: _ :: _, h =>
    refine (Lightens.factors h).imp_right fun hlt => ?_
    rw [productOf_of_two_le (by simp), productOf_of_two_le (by simp), weight, weight]
    omega

omit [UnitLaws K] in
/-- The same below the bar, where only the product of the factors counts. -/
theorem denWeight_eq_or_lighter_of_lightens {den den' : List (Expr K)}
    (h : List.Forall₂ Lightens den den') :
    den' = den ∨ Fraction.denWeight den' < Fraction.denWeight den := by
  refine (productOf_eq_or_lighter_of_lightens h).imp_right fun hlt => ?_
  cases h with
  | nil => exact absurd hlt (Nat.lt_irrefl _)
  | cons _ _ =>
      rw [Fraction.denWeight_of_ne_nil (by simp), Fraction.denWeight_of_ne_nil (by simp)]
      omega

/-- Above the bar, factors with a base of their own come out as they were, but for factors of
one. -/
theorem productOf_filter_lighter_or_alike {es fs : List (Expr K)}
    (h : List.Forall₂ Lightens es fs) :
    (Fraction.productOf (fs.filter fun e => !e.isNumberEq 1)).weight <
        (Fraction.productOf es).weight ∨
      Alike (Fraction.productOf (fs.filter fun e => !e.isNumberEq 1)) (Fraction.productOf es) := by
  by_cases hone : ∃ f ∈ fs, f.isNumberEq 1 = true
  -- a factor of one is left out, which takes weight off unless it was the only factor
  · have hsub : (fs.filter fun e => !e.isNumberEq 1).Sublist fs := List.filter_sublist
    have hlen : (fs.filter fun e => !e.isNumberEq 1).length < fs.length :=
      List.length_filter_lt_length_iff_exists.mpr (by simpa using hone)
    have hweight := factorsWeight_sublist hsub
    have hle : factorsWeight fs ≤ factorsWeight es := by
      rcases Lightens.factors h with rfl | hlt
      · exact Nat.le_refl _
      · exact Nat.le_of_lt hlt
    have := weight_productOf_le_add (fs.filter fun e => !e.isNumberEq 1)
    cases h with
    | nil => simp at hone
    | @cons e f es fs hef hes =>
      cases hes with
      | nil =>
          have hf : f.isNumberEq 1 = true := by simpa using hone
          cases f with
          | number v =>
              have hfilter : [number v].filter (fun e => !e.isNumberEq 1) = [] := by simp [hf]
              rw [hfilter]
              rcases hef with rfl | hef
              · exact Or.inr (alike_number_iff.mpr ⟨v, rfl, UnitLaws.same_symm (same_of_beq hf)⟩)
              · exact Or.inl hef.1
          | _ => cases hf
      | @cons e' f' es fs _ _ =>
          left
          rw [productOf_of_two_le (show 2 ≤ (e :: e' :: es).length by simp), weight]
          omega
  · have hfilter : (fs.filter fun e => !e.isNumberEq 1) = fs :=
      List.filter_eq_self.mpr (by simpa using hone)
    rw [hfilter]
    refine (productOf_eq_or_lighter_of_lightens h).symm.imp_right ?_
    rintro rfl
    exact Alike.refl _

/-- Every base occurs once in the fraction, so there is nothing to merge. -/
structure IsMerged (a : Fraction K) : Prop where
  num : ofFactors a.num = a.num.map ofFactor
  den : ofFactors a.den = a.den.map ofFactor
  divide : divide (a.num.map ofFactor) (a.den.map ofFactor) =
    (a.num.map ofFactor, a.den.map ofFactor)

/-- Merging takes weight off a fraction if there is something to merge. -/
theorem isMerged_or_lighter (a : Fraction K) :
    IsMerged a ∨ (mergedFraction a).toExpr.weight < a.toExpr.weight := by
  obtain ⟨num, den⟩ := a
  have hnum := powersWeight_ofFactors_le num
  have hden := powersWeight_ofFactors_le den
  have hsum := factorsWeight_le_add num
  have habove := weight_productOf_filter_le (divide (ofFactors num) (ofFactors den)).1
  have hmerged : (mergedFraction ⟨num, den⟩).toExpr.weight =
      (Fraction.productOf ((toFactors (divide (ofFactors num) (ofFactors den)).1).filter
        fun e => !e.isNumberEq 1)).weight +
      Fraction.denWeight (toFactors (divide (ofFactors num) (ofFactors den)).2) :=
    Fraction.weight_toExpr _ _
  rw [hmerged, Fraction.weight_toExpr]
  -- what is saved by dividing or below the bar pays for anything above it
  rcases divide_eq_or_lighter (ofFactors num) (ofFactors den) with hdivide | ⟨hlen, hdivide⟩
  · rw [hdivide] at habove ⊢
    dsimp only at habove ⊢
    rcases ofFactors_eq_or_lighter den with hfactors | ⟨-, hlen, hfactors⟩
    · rcases ofFactors_eq_or_lighter num with hnum | ⟨htwo, -, hweight⟩
      · exact Or.inl ⟨hnum, hfactors, hfactors ▸ hnum ▸ hdivide⟩
      · right
        have hbelow := denWeight_eq_or_lighter_of_lightens (toFactors_map_ofFactor_lightens den)
        have hle : Fraction.denWeight (toFactors (ofFactors den)) ≤ Fraction.denWeight den := by
          rw [hfactors]
          exact hbelow.elim (fun h => Nat.le_of_eq (congrArg _ h)) Nat.le_of_lt
        rw [productOf_of_two_le htwo, weight]
        omega
    · right
      have := denWeight_toFactors_le hlen
      omega
  · right
    have hle : (ofFactors den).length ≤ den.length := by
      rcases ofFactors_eq_or_lighter den with h | h
      · simp [h]
      · omega
    have := denWeight_toFactors_le (Nat.lt_of_lt_of_le hlen hle)
    omega

/-- Merging takes weight off a fraction or leaves it as it is. -/
theorem mergedFraction_lighter_or_alike (a : Fraction K) :
    (mergedFraction a).toExpr.weight < a.toExpr.weight ∨
      Alike (mergedFraction a).toExpr a.toExpr := by
  rcases isMerged_or_lighter a with h | h
  -- with nothing to merge, the factors only went through powers and back
  · have hmerge : merge a = (a.num.map ofFactor, a.den.map ofFactor) := by
      rw [merge, h.num, h.den, h.divide]
    rw [mergedFraction, hmerge]
    exact Fraction.lighter_or_alike_of_parts
      (productOf_filter_lighter_or_alike (toFactors_map_ofFactor_lightens a.num))
      (denWeight_eq_or_lighter_of_lightens (toFactors_map_ofFactor_lightens a.den))
  · exact Or.inl h

end Powers

end SymbolicCalculus
