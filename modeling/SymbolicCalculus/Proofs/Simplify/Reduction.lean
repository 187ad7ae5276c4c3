import SymbolicCalculus.Proofs.Simplify.Cancelling
import SymbolicCalculus.Proofs.Simplify.Gathering

/-!
# The weight of fractions

Products of quotients weigh more than the one fraction they stand for, since every bar is charged
for. Cancelling and gathering take factors from below the bar, where they are charged thirty-two
times what they could cost above it.
-/

namespace SymbolicCalculus

open SymbolicCalculus.Expr Scalar

variable {K : Type} [Scalar K]

namespace Expr

/-! ## Lists of factors -/

/-- The weight of a product is that of its factors, give or take a few units. -/
theorem weight_productOf_le_add (es : List (Expr K)) :
    (Fraction.productOf es).weight ≤ factorsWeight es + 3 := by
  have := weight_productOf_le es
  have := endCharge_le_one es.getLast?
  omega

/-- The other way round: a product weighs as much as its factors, but for the charge of a single
one. -/
theorem factorsWeight_le_add (es : List (Expr K)) :
    factorsWeight es ≤ (Fraction.productOf es).weight + 18 := by
  -- a product of one factor is written down as this factor
  match es with
  | [] => exact Nat.zero_le _
  | [e] => exact factorWeight_le e
  | _ :: _ :: _ =>
    rw [productOf_of_two_le (by simp), weight]
    omega

/-- A factor that is left out takes 17 units with it at least, one for itself and 16 for being a
factor. -/
theorem factorsWeight_sublist {es fs : List (Expr K)} (h : es.Sublist fs) :
    factorsWeight es + 17 * fs.length ≤ factorsWeight fs + 17 * es.length := by
  -- along the sublist, which keeps or leaves out one entry after the other
  induction h with
  | slnil => exact Nat.le_refl _
  | cons e _ ih =>
      have := one_le_weight e
      have := le_factorWeight e
      simp only [factorsWeight_cons, List.length_cons]
      omega
  | cons_cons e _ ih =>
      simp only [factorsWeight_cons, List.length_cons]
      omega

end Expr

namespace Fraction

/-! ## Below the bar -/

/-- What the factors below the bar of a fraction add to its weight. -/
def denWeight (den : List (Expr K)) : Nat :=
  if den.isEmpty then 0 else 2000 + 32 * (productOf den).weight

/-- An upper bound for the weight of a fraction that is an entry of a product. -/
def entryWeight (a : Fraction K) : Nat := factorsWeight a.num + denWeight a.den

theorem toExpr_nil (num : List (Expr K)) : toExpr ⟨num, []⟩ = productOf num := rfl

theorem toExpr_of_ne_nil {den : List (Expr K)} (h : den ≠ []) (num : List (Expr K)) :
    toExpr ⟨num, den⟩ = .quotient (productOf num) (productOf den) := by
  simp [toExpr, h]

/-- The two lists are charged for separately, which is why they can be compared one at a time. -/
theorem weight_toExpr (num den : List (Expr K)) :
    (toExpr ⟨num, den⟩).weight = (productOf num).weight + denWeight den := by
  by_cases h : den = []
  · rw [h]
    rfl
  · rw [toExpr_of_ne_nil h, denWeight, if_neg (by simp [h]), weight]
    omega

theorem denWeight_nil : denWeight ([] : List (Expr K)) = 0 := rfl

theorem denWeight_of_ne_nil {den : List (Expr K)} (h : den ≠ []) :
    denWeight den = 2000 + 32 * (productOf den).weight := by
  simp [denWeight, h]

/-- What is below a bar costs no more than a bar and thirty-two times its weight. -/
theorem denWeight_le (den : List (Expr K)) :
    denWeight den ≤ 2000 + 32 * (productOf den).weight := by
  unfold denWeight
  split <;> omega

/-- More factors below a bar do not need another one. -/
theorem denWeight_append_le_add {den₁ : List (Expr K)} (h : den₁ ≠ []) (den₂ : List (Expr K)) :
    denWeight (den₁ ++ den₂) ≤ denWeight den₁ + 32 * (productOf den₂).weight + 1248 := by
  have := weight_productOf_le_add (den₁ ++ den₂)
  have := factorsWeight_le_add den₁
  have := factorsWeight_le_add den₂
  rw [denWeight_of_ne_nil h, denWeight_of_ne_nil (by simp [h])]
  rw [factorsWeight_append] at *
  omega

/-- Factors below one bar cost less than factors below two. -/
theorem denWeight_append_le (den₁ den₂ : List (Expr K)) :
    denWeight (den₁ ++ den₂) ≤ denWeight den₁ + denWeight den₂ := by
  by_cases h₁ : den₁ = []
  · simp [h₁]
  by_cases h₂ : den₂ = []
  · simp [h₂]
  -- the second bar is saved, which outweighs joining the lists
  have := denWeight_append_le_add h₁ den₂
  rw [denWeight_of_ne_nil h₂]
  omega

/-- Taking factors out from below the bar outweighs anything else that happens to a fraction. -/
theorem denWeight_sublist {den den' : List (Expr K)} (h : den'.Sublist den)
    (hlen : den'.length < den.length) : denWeight den' + 500 ≤ denWeight den := by
  have hne : den ≠ [] := by
    rintro rfl
    cases hlen
  rw [denWeight_of_ne_nil hne]
  -- with the last factor the bar itself disappears
  by_cases hnil : den' = []
  · subst hnil
    rw [denWeight_nil]
    omega
  · have hpos := List.length_pos_of_ne_nil hnil
    have := factorsWeight_sublist h
    have := weight_productOf_le_add den'
    rw [denWeight_of_ne_nil hnil, productOf_of_two_le (show 2 ≤ den.length by omega), weight]
    omega

/-! ## Reading fractions off -/

/-- A fraction read off an expression weighs less than it, unless the expression is the
fraction. -/
def IsReading (a : Fraction K) (e : Expr K) : Prop :=
  a.toExpr = e ∨ a.toExpr.weight < e.weight

/-- Reading a fraction off never adds weight. -/
theorem IsReading.weight_le {a : Fraction K} {e : Expr K} (h : a.IsReading e) :
    a.toExpr.weight ≤ e.weight := by
  rcases h with rfl | h
  · exact Nat.le_refl _
  · exact Nat.le_of_lt h

/-- Multiplying fractions puts their lists together, so that at most one bar is left. -/
theorem entryWeight_mul_le (a b : Fraction K) :
    (a.mul b).entryWeight ≤ a.entryWeight + b.entryWeight := by
  have := denWeight_append_le a.den b.den
  simp only [entryWeight, mul, factorsWeight_append]
  omega

/-- If no operand has a bar, their quotient is the fraction it stands for. -/
theorem IsReading.quotient_of_num {num den : List (Expr K)} {a b : Expr K}
    (ha : IsReading ⟨num, []⟩ a) (hb : IsReading ⟨den, []⟩ b) :
    IsReading ⟨num, den⟩ (.quotient a b) := by
  have hwa := ha.weight_le
  have hwb := hb.weight_le
  rw [weight_toExpr] at hwa hwb
  -- without anything below, the bar of the quotient itself is saved
  by_cases hden : den = []
  · right
    rw [weight_toExpr, hden, denWeight_nil, weight]
    omega
  · rw [IsReading, toExpr_of_ne_nil hden, weight, weight]
    rw [IsReading, toExpr_nil] at ha hb
    rcases ha with rfl | ha <;> rcases hb with rfl | hb
    · exact Or.inl rfl
    all_goals
      right
      omega

/-- The fraction that a quotient stands for, if a fraction is read off each operand. -/
theorem IsReading.quotient {x y : Fraction K} {a b : Expr K} (hx : x.IsReading a)
    (hy : y.IsReading b) : (x.mul y.inverse).IsReading (.quotient a b) := by
  obtain ⟨na, da⟩ := x
  obtain ⟨nb, db⟩ := y
  have hwa := hx.weight_le
  have hwb := hy.weight_le
  have hnum := weight_productOf_le_add (na ++ db)
  have hna := factorsWeight_le_add na
  have hdb := factorsWeight_le_add db
  rw [weight_toExpr] at hwa hwb
  rw [factorsWeight_append] at hnum
  show IsReading ⟨na ++ db, da ++ nb⟩ _
  -- an operand with a bar of its own loses the charge for that bar
  by_cases hda : da = [] <;> by_cases hdb : db = []
  · subst hda hdb
    rw [List.append_nil, List.nil_append]
    exact hx.quotient_of_num hy
  · right
    have := denWeight_le nb
    rw [weight_toExpr, hda, List.nil_append, weight]
    rw [denWeight_of_ne_nil hdb] at hwb
    omega
  · right
    have := denWeight_append_le_add hda nb
    rw [weight_toExpr, weight, hdb, List.append_nil]
    omega
  · right
    have := denWeight_append_le_add hda nb
    rw [weight_toExpr, weight]
    rw [denWeight_of_ne_nil hdb] at hwb
    omega

/-- As an entry of a product, the fraction of a quotient costs no more than the quotient. -/
theorem entryWeight_quotient_le {x y : Fraction K} {a b : Expr K}
    (hx : x.entryWeight ≤ a.weight + 16) (hy : y.IsReading b) :
    (x.mul y.inverse).entryWeight ≤ (Expr.quotient a b).weight + 16 := by
  obtain ⟨na, da⟩ := x
  obtain ⟨nb, db⟩ := y
  have hwb := hy.weight_le
  have hdb := factorsWeight_le_add db
  rw [weight_toExpr] at hwb
  -- what is below the bar of the dividend and what is above that of the divisor come together
  have hden : denWeight (da ++ nb) ≤ denWeight da + 32 * (productOf nb).weight + 2000 := by
    by_cases hda : da = []
    · have := denWeight_le nb
      rw [hda, List.nil_append]
      omega
    · have := denWeight_append_le_add hda nb
      omega
  -- what is below two bars is above again, and was charged for more before
  have hnum : factorsWeight db ≤ denWeight db := by
    by_cases hnil : db = []
    · simp [hnil]
    · rw [denWeight_of_ne_nil hnil]
      omega
  simp only [entryWeight, mul, inverse, factorsWeight_append, weight] at *
  omega

omit [Scalar K] in
theorem ofExpr_of_not_isFraction {e : Expr K} (h : e.isFraction = false) :
    ofExpr e = ⟨[e], []⟩ := by
  cases e <;> first | rfl | cases h

omit [Scalar K] in
/-- Factors of which none is a product or quotient are taken as they are. -/
theorem ofFactors_of_not_isFraction {es : List (Expr K)} (h : ∀ e ∈ es, e.isFraction = false) :
    ofFactors es = ⟨es, []⟩ := by
  induction es with
  | nil => rfl
  | cons e es ih =>
      rw [ofFactors, ofExpr_of_not_isFraction (h e List.mem_cons_self),
        ih fun f hf => h f (List.mem_cons_of_mem e hf)]
      rfl

/-- The fraction that a product stands for, if its factors weigh enough. -/
theorem IsReading.product {es : List (Expr K)}
    (h : (ofFactors es).entryWeight + 2 * es.countP isFraction ≤ factorsWeight es) :
    (ofFactors es).IsReading (.product es) := by
  -- a product or quotient among the factors was charged for as such, twice two units in all
  by_cases hany : ∃ e ∈ es, e.isFraction = true
  · right
    have hcount : 0 < es.countP isFraction := List.countP_pos_iff.mpr hany
    have := weight_productOf_le_add (ofFactors es).num
    rw [entryWeight] at h
    rw [weight_toExpr, Expr.weight]
    omega
  · rw [ofFactors_of_not_isFraction (by simpa using hany), IsReading, toExpr_nil]
    exact (productOf_eq_or_lighter es).imp_right And.left

mutual

/-- The fraction of a tree is read off it, and costs no more as an entry of a product. -/
theorem ofExpr_isReading (e : Expr K) :
    (ofExpr e).IsReading e ∧ (ofExpr e).entryWeight ≤ e.weight + 16 := by
  match e with
  | .number _ | .constant _ | .var _ | .sum _ | .power _ _ | .call _ _ =>
    exact ⟨Or.inl rfl, Nat.le_refl _⟩
  | .quotient a b =>
    obtain ⟨ha, hae⟩ := ofExpr_isReading a
    obtain ⟨hb, _⟩ := ofExpr_isReading b
    rw [ofExpr]
    -- the bound for the dividend is needed as an entry, for the divisor as a reading
    exact ⟨ha.quotient hb, entryWeight_quotient_le hae hb⟩
  | .product es =>
    have hes := entryWeight_ofFactors_le es
    rw [ofExpr]
    refine ⟨IsReading.product hes, ?_⟩
    rw [Expr.weight]
    omega

/-- The fraction of a product costs no more than its factors, less two units for every factor that
is a product or a quotient. -/
theorem entryWeight_ofFactors_le (es : List (Expr K)) :
    (ofFactors es).entryWeight + 2 * es.countP isFraction ≤ factorsWeight es := by
  match es with
  | [] => exact Nat.le_refl _
  | e :: es =>
    have hes := entryWeight_ofFactors_le es
    have he := (ofExpr_isReading e).2
    have hmul := entryWeight_mul_le (ofExpr e) (ofFactors es)
    rw [ofFactors, List.countP_cons, factorsWeight_cons]
    -- the two units are the difference between the charges for the two kinds of factors
    cases hfraction : e.isFraction with
    | false =>
        have := factorWeight_of_not_isFraction hfraction
        simp only [Bool.false_eq_true, if_false]
        omega
    | true =>
        have := factorWeight_of_isFraction hfraction
        simp only [if_true]
        omega

end

/-! ## Cancelling and gathering -/

/-- Cancelling changes nothing, or it takes a factor from below the bar, which outweighs the rest.
-/
theorem cancel_eq_or_lighter (a : Fraction K) :
    a.cancel = a ∨ a.cancel.toExpr.weight < a.toExpr.weight := by
  obtain ⟨num, den⟩ := a
  obtain ⟨hnum, hden, hor⟩ := cancelFrom_sublist num den
  refine hor.imp_right fun hlen => ?_
  have := denWeight_sublist hden hlen
  have := factorsWeight_sublist hnum
  have := hnum.length_le
  have := weight_productOf_le_add (cancelFrom num den).num
  have := factorsWeight_le_add num
  show (toExpr ⟨(cancelFrom num den).num, (cancelFrom num den).den⟩).weight < _
  rw [weight_toExpr, weight_toExpr]
  omega

variable [UnitLaws K]

/-- A fraction weighs less if either of its lists does, and is alike if neither changes. -/
theorem lighter_or_alike_of_parts {num num' den den' : List (Expr K)}
    (hnum : (productOf num').weight < (productOf num).weight ∨
      Alike (productOf num') (productOf num))
    (hden : den' = den ∨ denWeight den' < denWeight den) :
    (toExpr ⟨num', den'⟩).weight < (toExpr ⟨num, den⟩).weight ∨
      Alike (toExpr ⟨num', den'⟩) (toExpr ⟨num, den⟩) := by
  rw [weight_toExpr, weight_toExpr]
  rcases hnum with hnum | hnum <;> rcases hden with rfl | hden
  · exact Or.inl (Nat.add_lt_add_right hnum _)
  · exact Or.inl (Nat.add_lt_add hnum hden)
  · right
    by_cases hnil : den' = []
    · subst hnil
      exact hnum
    · rw [toExpr_of_ne_nil hnil, toExpr_of_ne_nil hnil]
      exact alike_quotient_iff.mpr ⟨_, _, rfl, hnum, Alike.refl _⟩
  · exact Or.inl (hnum.weight_eq ▸ Nat.add_lt_add_left hden _)

omit [UnitLaws K] in
/-- A number that goes above the bar takes its weight below the bar off. -/
theorem gather_lighter_of_divisor {a : Fraction K} (h : a.den.filterMap divisor? ≠ []) :
    a.gather.toExpr.weight < a.toExpr.weight := by
  obtain ⟨num, den⟩ := a
  obtain ⟨v, hv⟩ := List.exists_mem_of_ne_nil _ h
  obtain ⟨e, he, hv⟩ := List.mem_filterMap.mp hv
  have hlen : (den.filter fun e => (divisor? e).isNone).length < den.length :=
    List.length_filter_lt_length_iff_exists.mpr ⟨e, he, by simp [hv]⟩
  have := denWeight_sublist List.filter_sublist hlen
  have := weight_productOf_append_number_le (num.filter fun e => !e.isNumber)
    ((den.filterMap divisor?).foldl (· / ·) (Scalar.product (num.filterMap Expr.asNumber?)))
  have := factorsWeight_eq_filter num
  have := factorsWeight_le_add num
  simp only [gather, weight_toExpr]
  omega

/-- Without a divisor below the bar, gathering is about the factors above it alone. -/
theorem gather_lighter_or_alike (a : Fraction K) :
    a.gather.toExpr.weight < a.toExpr.weight ∨ Alike a.gather.toExpr a.toExpr := by
  by_cases hdivisors : a.den.filterMap divisor? = []
  · have hden : (a.den.filter fun e => (divisor? e).isNone) = a.den :=
      List.filter_eq_self.mpr fun e he => by simp [List.filterMap_eq_nil_iff.mp hdivisors e he]
    have hgather : a.gather = ⟨gatherFactors a.num, a.den⟩ := by
      simp only [gather, hdivisors, hden, List.foldl_nil, gatherFactors]
    rw [hgather]
    exact lighter_or_alike_of_parts (productOf_gatherFactors a.num) (Or.inl rfl)
  · exact Or.inl (gather_lighter_of_divisor hdivisors)

/-- Reducing a fraction takes weight off it or leaves it as it is. -/
theorem cancel_gather_lighter_or_alike (a : Fraction K) :
    a.cancel.gather.toExpr.weight < a.toExpr.weight ∨ Alike a.cancel.gather.toExpr a.toExpr := by
  -- if cancelling took weight off, gathering adds none
  rcases cancel_eq_or_lighter a with heq | hlt
  · rw [heq]
    exact gather_lighter_or_alike a
  · left
    rcases gather_lighter_or_alike a.cancel with h | h
    · exact Nat.lt_trans h hlt
    · exact h.weight_eq ▸ hlt

end Fraction

end SymbolicCalculus
