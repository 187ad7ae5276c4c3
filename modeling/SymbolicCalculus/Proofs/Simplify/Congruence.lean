import SymbolicCalculus.Proofs.Expr.Congruence
import SymbolicCalculus.Proofs.Simplify.Convergence

/-!
# Passes respect structural equality

Structural equality takes the two zeros for one number, and a rule could treat them differently. No
rule does: the rules make structurally equal trees of structurally equal ones, and so does a pass.
The result of a simplification that ended because a pass changed nothing is therefore not changed
by simplifying it again.
-/

namespace SymbolicCalculus

open SymbolicCalculus.Expr Scalar

variable {K : Type} [Scalar K]

/-- The factors agree one by one. -/
abbrev AlikeFactors : List (Expr K) → List (Expr K) → Prop := List.Forall₂ Alike

/-- The fractions agree factor by factor. -/
structure AlikeFractions (a b : Fraction K) : Prop where
  num : AlikeFactors a.num b.num
  den : AlikeFactors a.den b.den

/-- The powers agree in base and exponent. -/
def AlikePower (p q : Expr K × Expr K) : Prop := Alike p.1 q.1 ∧ Alike p.2 q.2

/-- The powers agree one by one. -/
abbrev AlikePowers : Powers K → Powers K → Prop := List.Forall₂ AlikePower

/-! ## Reading fractions off -/

namespace AlikeFractions

variable {a b c d : Fraction K}

theorem mul (hab : AlikeFractions a b) (hcd : AlikeFractions c d) :
    AlikeFractions (a.mul c) (b.mul d) :=
  ⟨List.rel_append hab.num hcd.num, List.rel_append hab.den hcd.den⟩

theorem inverse (h : AlikeFractions a b) : AlikeFractions a.inverse b.inverse := ⟨h.den, h.num⟩

mutual

/-- The fraction that is read off a tree is alike for trees that are alike: only the kinds of nodes
decide what goes above the bar. -/
theorem ofExpr {e f : Expr K} (h : Alike e f) :
    AlikeFractions (Fraction.ofExpr e) (Fraction.ofExpr f) := by
  -- the fraction is read along products and quotients; anything else is a factor by itself
  match e with
  | .product es =>
    obtain ⟨fs, rfl, hes⟩ := alike_product_iff.mp h
    exact ofFactors hes
  | .quotient c d =>
    obtain ⟨c', d', rfl, hc, hd⟩ := alike_quotient_iff.mp h
    exact (ofExpr hc).mul (ofExpr hd).inverse
  | .number _ | .constant _ | .var _ | .sum _ | .power _ _ | .call _ _ =>
    cases f <;> first | exact ⟨.cons h .nil, .nil⟩ | cases h

theorem ofFactors {es fs : List (Expr K)} (h : AlikeFactors es fs) :
    AlikeFractions (Fraction.ofFactors es) (Fraction.ofFactors fs) := by
  match es, fs, h with
  | [], [], .nil => exact ⟨.nil, .nil⟩
  | _ :: _, _ :: _, .cons hef h => exact (ofExpr hef).mul (ofFactors h)

end

/-- Whether a product is read as a fraction depends on whether one of its factors is a quotient, on
which trees that are alike agree. -/
theorem ofExpr? {e f : Expr K} (h : Alike e f) :
    Option.Rel AlikeFractions (Fraction.ofExpr? e) (Fraction.ofExpr? f) := by
  cases e with
  | quotient c d =>
      obtain ⟨c', d', rfl, -, -⟩ := alike_quotient_iff.mp h
      exact .some (ofExpr h)
  | product es =>
      obtain ⟨fs, rfl, hes⟩ := alike_product_iff.mp h
      have hany : es.any isQuotient = fs.any isQuotient :=
        any_eq_of_forall₂ (fun hef => hef.isQuotient_eq) hes
      simp only [Fraction.ofExpr?, hany]
      split
      · exact .some (ofExpr h)
      · exact .none
  | _ => cases f <;> first | exact .none | cases h

/-- A product is taken as it is if it has no quotient among its factors. -/
theorem fractionToMerge? {e f : Expr K} (h : Alike e f) :
    Option.Rel AlikeFractions (Rule.fractionToMerge? e) (Rule.fractionToMerge? f) := by
  cases e with
  | product es =>
      obtain ⟨fs, rfl, hes⟩ := alike_product_iff.mp h
      -- the test for a quotient among the factors has the same answer on both sides
      have hany : es.any isQuotient = fs.any isQuotient :=
        any_eq_of_forall₂ (fun hef => hef.isQuotient_eq) hes
      simp only [Rule.fractionToMerge?, hany]
      split
      · exact ofExpr? h
      · exact .some ⟨hes, .nil⟩
  | quotient c d =>
      obtain ⟨c', d', rfl, -, -⟩ := alike_quotient_iff.mp h
      exact ofExpr? h
  | _ => cases f <;> first | exact .none | cases h

end AlikeFractions

section Tests

variable [TestLaws K]

theorem Alike.productOf {es fs : List (Expr K)} (h : AlikeFactors es fs) :
    Alike (Fraction.productOf es) (Fraction.productOf fs) :=
  Alike.collapse (alike_product_iff.mpr ⟨fs, rfl, h⟩)

/-- A fraction is written down with a bar if there is anything below it, which its length shows. -/
theorem AlikeFractions.toExpr {a b : Fraction K} (h : AlikeFractions a b) :
    Alike a.toExpr b.toExpr := by
  obtain ⟨num, den⟩ := a
  obtain ⟨num', den'⟩ := b
  obtain ⟨hnum, hden⟩ := h
  cases hden with
  | nil => exact Alike.productOf hnum
  | cons hd hds =>
      exact alike_quotient_iff.mpr ⟨_, _, rfl, Alike.productOf hnum, Alike.productOf (.cons hd hds)⟩

/-! ## Cancelling -/

namespace AlikeFactors

/-- A factor is found at the same place in lists that are alike, and what is left is alike. -/
theorem eraseFirst? {e f : Expr K} {es fs : List (Expr K)} (hef : Alike e f)
    (h : AlikeFactors es fs) :
    Option.Rel AlikeFactors (Fraction.eraseFirst? e es) (Fraction.eraseFirst? f fs) := by
  induction h with
  | nil => exact .none
  | cons hcd h ih =>
      -- alike factors are compared with the same result
      rw [Fraction.eraseFirst?, Fraction.eraseFirst?, hcd.beq_eq hef]
      split
      · exact .some h
      · exact map_of_rel (fun hrest => .cons hcd hrest) ih

/-- Cancelling takes the same factors out on both sides. -/
theorem cancelFrom {num num' den den' : List (Expr K)} (hnum : AlikeFactors num num')
    (hden : AlikeFactors den den') :
    AlikeFractions (Fraction.cancelFrom num den) (Fraction.cancelFrom num' den') := by
  induction hnum generalizing den den' with
  | nil => exact ⟨.nil, hden⟩
  | @cons e f es fs hef hnum ih =>
      -- numbers are left alone, others are looked for below the bar
      have herase : Option.Rel AlikeFactors
          (if e.isNumber then none else Fraction.eraseFirst? e den)
          (if f.isNumber then none else Fraction.eraseFirst? f den') := by
        rw [hef.isNumber_eq]
        split
        · exact .none
        · exact eraseFirst? hef hden
      rw [Fraction.cancelFrom, Fraction.cancelFrom]
      -- the two searches succeed together, so the cases of one are those of both
      revert herase
      generalize (if e.isNumber then none else Fraction.eraseFirst? e den) = o
      generalize (if f.isNumber then none else Fraction.eraseFirst? f den') = o'
      intro herase
      cases herase with
      | none => exact ⟨.cons hef (ih hden).num, (ih hden).den⟩
      | some hden => exact ih hden

end AlikeFactors

/-- Only numbers other than zero are divided by. This is where the two zeros have to be kept apart,
as the quotients by them differ. -/
theorem Alike.divisor? {e f : Expr K} (h : Alike e f) :
    Option.Rel (fun v w : K => SameNumber v w ∧ (v == 0) = false)
      (Fraction.divisor? e) (Fraction.divisor? f) := by
  cases e with
  | number v =>
      obtain ⟨w, rfl, hvw⟩ := alike_number_iff.mp h
      simp only [Fraction.divisor?, Expr.asNumber?]
      rw [← TestLaws.beq_congr hvw]
      split
      · exact .none
      · next hzero => exact .some ⟨hvw, by simpa using hzero⟩
  | _ => cases f <;> first | exact .none | cases h

end Tests

section Laws

variable [CongruenceLaws K]

/-- Gathering computes the same number, up to the sign of zero, from numbers that are the same. -/
theorem AlikeFractions.gather {a b : Fraction K} (h : AlikeFractions a b) :
    AlikeFractions a.gather b.gather := by
  -- the product of the numbers above, divided by those below one after the other
  have hvalue : SameNumber
      ((a.den.filterMap Fraction.divisor?).foldl (· / ·)
        (Scalar.product (a.num.filterMap Expr.asNumber?)))
      ((b.den.filterMap Fraction.divisor?).foldl (· / ·)
        (Scalar.product (b.num.filterMap Expr.asNumber?))) :=
    List.rel_foldl (P := SameNumber (K := K))
      (R := fun v w => SameNumber v w ∧ (v == 0) = false)
      (fun _ _ hv _ _ hw => CongruenceLaws.div_congr hv hw.1 hw.2)
      (Alike.product_congr (Alike.numbers h.num))
      (List.rel_filterMap (fun _ _ hef => hef.divisor?) h.den)
  refine ⟨Alike.append_number ?_ hvalue, ?_⟩
  · exact filter_of_forall₂ (fun hef => congrArg not (Alike.isNumber_eq hef)) h.num
  · refine filter_of_forall₂ (fun {e f} hef => ?_) h.den
    have hdivisor := Alike.divisor? hef
    -- either both entries are divisors or neither is
    cases he : Fraction.divisor? e <;> cases hf : Fraction.divisor? f <;>
      first | rfl | (rw [he, hf] at hdivisor; cases hdivisor)

/-! ## Merging powers -/

namespace AlikePowers

/-- A factor that is not a power is one with the exponent one. -/
theorem ofFactor {e f : Expr K} (h : Alike e f) :
    AlikePower (Powers.ofFactor e) (Powers.ofFactor f) := by
  cases e with
  | power b x =>
      obtain ⟨b', x', rfl, hb, hx⟩ := alike_power_iff.mp h
      exact ⟨hb, hx⟩
  | _ => cases f <;> first | exact ⟨h, Alike.refl _⟩ | cases h

/-- An exponent is compared with zero and one, which has the same result for exponents that are
alike. -/
theorem toFactor {b b' x x' : Expr K} (hb : Alike b b') (hx : Alike x x') :
    Alike (Powers.toFactor b x) (Powers.toFactor b' x') := by
  unfold Powers.toFactor
  rw [hx.isNumberEq_eq, hx.isNumberEq_eq]
  split
  · exact Alike.refl _
  · split
    · exact hb
    · exact alike_power_iff.mpr ⟨_, _, rfl, hb, hx⟩

theorem addExponents {x x' y y' : Expr K} (hx : Alike x x') (hy : Alike y y') (subtract : Bool) :
    Alike (Powers.addExponents x y subtract) (Powers.addExponents x' y' subtract) :=
  Alike.gatherSum (Alike.normalizeAddends (.cons ⟨hx, rfl⟩ (.cons ⟨hy, rfl⟩ .nil)))

/-- The exponent of the same base is changed on both sides. -/
theorem raise? {b b' y y' : Expr K} (hb : Alike b b') (hy : Alike y y') (subtract : Bool)
    {ps qs : Powers K} (h : AlikePowers ps qs) :
    Option.Rel AlikePowers (Powers.raise? b y subtract ps) (Powers.raise? b' y' subtract qs) := by
  induction h with
  | nil => exact .none
  | @cons p q ps qs hpq h ih =>
      rw [Powers.raise?, Powers.raise?, hpq.1.beq_eq hb]
      split
      · exact .some (.cons ⟨hpq.1, addExponents hpq.2 hy subtract⟩ h)
      · exact map_of_rel (fun hrest => .cons hpq hrest) ih

/-- A power is added to its base if this is there already, and otherwise comes last. -/
theorem insert {ps qs : Powers K} {p q : Expr K × Expr K} (h : AlikePowers ps qs)
    (hpq : AlikePower p q) : AlikePowers (ps.insert p) (qs.insert q) := by
  have hraise := raise? hpq.1 hpq.2 false h
  unfold Powers.insert
  -- the base is found on both sides or on neither
  cases hps : Powers.raise? p.1 p.2 false ps <;> cases hqs : Powers.raise? q.1 q.2 false qs <;>
    rw [hps, hqs] at hraise <;> cases hraise
  · exact List.rel_append h (.cons hpq .nil)
  · next hraise => exact hraise

theorem ofFactors {es fs : List (Expr K)} (h : AlikeFactors es fs) :
    AlikePowers (Powers.ofFactors es) (Powers.ofFactors fs) :=
  List.rel_foldl (P := AlikePowers (K := K)) (R := AlikePower (K := K))
    (fun _ _ hps _ _ hpq => insert hps hpq) .nil
    (List.rel_map (P := AlikePower (K := K)) (fun _ _ hef => ofFactor hef) h)

/-- Exponents below the bar are taken from those above where the base is found. -/
theorem divide {num num' den den' : Powers K} (hnum : AlikePowers num num')
    (hden : AlikePowers den den') :
    AlikePowers (Powers.divide num den).1 (Powers.divide num' den').1 ∧
      AlikePowers (Powers.divide num den).2 (Powers.divide num' den').2 := by
  induction hden generalizing num num' with
  | nil => exact ⟨hnum, .nil⟩
  | @cons p q den den' hpq hden ih =>
      have hraise := raise? hpq.1 hpq.2 true hnum
      rw [Powers.divide, Powers.divide]
      cases hps : Powers.raise? p.1 p.2 true num <;>
        cases hqs : Powers.raise? q.1 q.2 true num' <;> rw [hps, hqs] at hraise <;> cases hraise
      -- the base is not above the bar, so the power stays below
      · exact ⟨(ih hnum).1, .cons hpq (ih hnum).2⟩
      · next hraise => exact ih hraise

theorem toFactors {ps qs : Powers K} (h : AlikePowers ps qs) :
    AlikeFactors (Powers.toFactors ps) (Powers.toFactors qs) :=
  List.rel_map (P := Alike (K := K)) (fun _ _ hpq => toFactor hpq.1 hpq.2) h

/-- Merging the powers of fractions that are alike gives fractions that are alike. -/
theorem mergedFraction {a b : Fraction K} (h : AlikeFractions a b) :
    AlikeFractions (Powers.mergedFraction a) (Powers.mergedFraction b) := by
  obtain ⟨hnum, hden⟩ := divide (ofFactors h.num) (ofFactors h.den)
  refine ⟨filter_of_forall₂ (R := Alike) (fun hef => ?_) (toFactors hnum), toFactors hden⟩
  exact congrArg not (Alike.isNumberEq_eq hef 1)

end AlikePowers

/-! ## Rules -/

namespace Rule

/-- The rule makes structurally equal trees of structurally equal ones, or applies to neither. -/
def Congruent (r : Rule K) : Prop :=
  ∀ {a b}, Alike a b → Option.Rel Alike (r.replace? a) (r.replace? b)

omit [CongruenceLaws K] in
/-- A rule that makes one tree if a test succeeds. -/
theorem ite_congr_of_eq {s t : Bool} (hst : s = t) {a b : Expr K} (h : Alike a b) :
    Option.Rel Alike (if s then some a else none) (if t then some b else none) := by
  subst hst
  split
  · exact .some h
  · exact .none

/-- A candidate is compared with the tree it was made from, and the comparison has the same result
for trees that are alike. -/
theorem ifChanged_congr {e f c d : Expr K} (hef : Alike e f) (hcd : Alike c d) :
    Option.Rel Alike (ifChanged e c) (ifChanged f d) := by
  unfold ifChanged
  rw [hcd.beq_eq hef]
  split
  · exact .none
  · exact .some hcd

omit [CongruenceLaws K] in
/-- Of rules that respect structural equality, the same one is the first to apply. -/
theorem Congruent.firstOf {step : Step} {rules : List (Rule K)} (h : ∀ r ∈ rules, r.Congruent) :
    (firstOf step rules).Congruent := by
  intro a b hab
  show Option.Rel Alike (rules.findSome? fun r => r.replace? a)
    (rules.findSome? fun r => r.replace? b)
  induction rules with
  | nil => exact .none
  | cons r rules ih =>
      have hr := h r List.mem_cons_self hab
      rw [List.findSome?_cons, List.findSome?_cons]
      cases ha : r.replace? a <;> cases hb : r.replace? b <;> rw [ha, hb] at hr <;> cases hr
      · exact ih fun s hs => h s (List.mem_cons_of_mem r hs)
      · next hr => exact .some hr

omit [CongruenceLaws K] in
/-- The nested lists that a tree is tested for are seen by the kinds of its entries. -/
theorem flatten_congruent : (flatten (K := K)).Congruent := by
  intro a b h
  cases a with
  | sum as =>
      obtain ⟨bs, rfl, has⟩ := alike_sum_iff.mp h
      have hany : (as.any fun a => a.expr.isSum) = bs.any fun a => a.expr.isSum :=
        any_eq_of_forall₂ (fun hab => Alike.isSum_eq hab.1) has
      exact ite_congr_of_eq hany h.normalize
  | product es =>
      obtain ⟨fs, rfl, hes⟩ := alike_product_iff.mp h
      have hany : es.any isProduct = fs.any isProduct :=
        any_eq_of_forall₂ (fun hef => hef.isProduct_eq) hes
      exact ite_congr_of_eq hany h.normalize
  | _ => cases b <;> first | exact .none | cases h

theorem gatherSum_congruent : (gatherSum (K := K)).Congruent := by
  intro a b h
  cases a with
  | sum as =>
      obtain ⟨bs, rfl, has⟩ := alike_sum_iff.mp h
      exact ifChanged_congr h (Alike.gatherSum has)
  | _ => cases b <;> first | exact .none | cases h

theorem gatherProduct_congruent : (gatherProduct (K := K)).Congruent := by
  intro a b h
  cases a with
  | product es =>
      obtain ⟨fs, rfl, hes⟩ := alike_product_iff.mp h
      exact ifChanged_congr h (Alike.gatherProduct hes)
  | _ => cases b <;> first | exact .none | cases h

theorem divideByOne_congruent : (divideByOne (K := K)).Congruent := by
  intro a b h
  cases a with
  | quotient c d =>
      obtain ⟨c', d', rfl, hc, hd⟩ := alike_quotient_iff.mp h
      exact ite_congr_of_eq (hd.isNumberEq_eq 1) hc
  | _ => cases b <;> first | exact .none | cases h

theorem multiplyByZero_congruent : (multiplyByZero (K := K)).Congruent := by
  intro a b h
  cases a with
  | product es =>
      obtain ⟨fs, rfl, hes⟩ := alike_product_iff.mp h
      have hany : (es.any fun e => e.isNumberEq 0) = fs.any fun e => e.isNumberEq 0 :=
        any_eq_of_forall₂ (fun hef => hef.isNumberEq_eq 0) hes
      exact ite_congr_of_eq hany (Alike.refl _)
  | _ => cases b <;> first | exact .none | cases h

theorem divideZero_congruent : (divideZero (K := K)).Congruent := by
  intro a b h
  cases a with
  | quotient c d =>
      obtain ⟨c', d', rfl, hc, hd⟩ := alike_quotient_iff.mp h
      exact ite_congr_of_eq (hc.isNumberEq_eq 0) (Alike.refl _)
  | _ => cases b <;> first | exact .none | cases h

theorem exponentZero_congruent : (exponentZero (K := K)).Congruent := by
  intro a b h
  cases a with
  | power c d =>
      obtain ⟨c', d', rfl, hc, hd⟩ := alike_power_iff.mp h
      exact ite_congr_of_eq (hd.isNumberEq_eq 0) (Alike.refl _)
  | _ => cases b <;> first | exact .none | cases h

theorem exponentOne_congruent : (exponentOne (K := K)).Congruent := by
  intro a b h
  cases a with
  | power c d =>
      obtain ⟨c', d', rfl, hc, hd⟩ := alike_power_iff.mp h
      exact ite_congr_of_eq (hd.isNumberEq_eq 1) hc
  | _ => cases b <;> first | exact .none | cases h

theorem baseZero_congruent : (baseZero (K := K)).Congruent := by
  intro a b h
  cases a with
  | power c d =>
      obtain ⟨c', d', rfl, hc, hd⟩ := alike_power_iff.mp h
      exact ite_congr_of_eq (hc.isNumberEq_eq 0) (Alike.refl _)
  | _ => cases b <;> first | exact .none | cases h

theorem baseOne_congruent : (baseOne (K := K)).Congruent := by
  intro a b h
  cases a with
  | power c d =>
      obtain ⟨c', d', rfl, hc, hd⟩ := alike_power_iff.mp h
      exact ite_congr_of_eq (hc.isNumberEq_eq 1) (Alike.refl _)
  | _ => cases b <;> first | exact .none | cases h

/-- The rule asks for the constant `e` itself, not for a number of that value. -/
theorem expOfLn_congruent : (expOfLn (K := K)).Congruent := by
  intro a b h
  cases a with
  | power c d =>
      obtain ⟨c', d', rfl, hc, hd⟩ := alike_power_iff.mp h
      -- the base has to be a constant, and the right one
      cases c with
      | constant k =>
          obtain rfl := alike_constant_iff.mp hc
          cases k with
          | e => exact hd.powerOfLn?
          | pi => exact .none
      | _ => cases c' <;> first | exact .none | cases hc
  | _ => cases b <;> first | exact .none | cases h

/-- Both rules on fractions read one off, work on it, and write it down, each of which respects
structural equality. -/
theorem cancelFactors_congruent : (cancelFactors (K := K)).Congruent := by
  intro a b h
  refine bind_of_rel (R := AlikeFractions) (fun hcd => ?_) (AlikeFractions.ofExpr? h)
  exact ifChanged_congr h (AlikeFactors.cancelFrom hcd.num hcd.den).gather.toExpr

theorem mergePowers_congruent : (mergePowers (K := K)).Congruent := by
  intro a b h
  refine bind_of_rel (R := AlikeFractions) (fun hcd => ?_) (AlikeFractions.fractionToMerge? h)
  exact ifChanged_congr h (AlikePowers.mergedFraction hcd).toExpr

theorem fold_congruent : (fold (K := K)).Congruent := fun h =>
  map_of_rel (fun hvw => alike_number_iff.mpr ⟨_, rfl, hvw⟩) h.foldedValue?

/-! ### Stages -/

theorem identity_congruent : (identity (K := K)).Congruent := by
  refine Congruent.firstOf fun r hr => ?_
  simp only [List.mem_cons, List.not_mem_nil, or_false] at hr
  rcases hr with rfl | rfl | rfl
  · exact gatherSum_congruent
  · exact gatherProduct_congruent
  · exact divideByOne_congruent

theorem absorb_congruent : (absorb (K := K)).Congruent := by
  refine Congruent.firstOf fun r hr => ?_
  simp only [List.mem_cons, List.not_mem_nil, or_false] at hr
  rcases hr with rfl | rfl
  · exact multiplyByZero_congruent
  · exact divideZero_congruent

theorem power_congruent : (power (K := K)).Congruent := by
  refine Congruent.firstOf fun r hr => ?_
  simp only [List.mem_cons, List.not_mem_nil, or_false] at hr
  rcases hr with rfl | rfl | rfl | rfl | rfl
  · exact exponentZero_congruent
  · exact exponentOne_congruent
  · exact baseZero_congruent
  · exact baseOne_congruent
  · exact expOfLn_congruent

/-- Every stage of a pass respects structural equality. -/
theorem stages_congruent {r : Rule K} (hr : r ∈ (stages : List (Rule K))) : r.Congruent := by
  simp only [stages, List.mem_cons, List.not_mem_nil, or_false] at hr
  rcases hr with rfl | rfl | rfl | rfl | rfl | rfl | rfl
  · exact flatten_congruent
  · exact identity_congruent
  · exact absorb_congruent
  · exact power_congruent
  · exact cancelFactors_congruent
  · exact mergePowers_congruent
  · exact fold_congruent

end Rule

end Laws

/-! ## Passes -/

namespace Alike

/-- Stages apply to trees that are alike together, or not at all, so the results stay alike. -/
theorem applyStages {rules : List (Rule K)} (h : ∀ r ∈ rules, r.Congruent) {a b : Expr K}
    (hab : Alike a b) :
    Alike (SymbolicCalculus.applyStages rules a).1 (SymbolicCalculus.applyStages rules b).1 := by
  induction rules generalizing a b with
  | nil => exact hab
  | cons r rules ih =>
      have hrules : ∀ s ∈ rules, s.Congruent := fun s hs => h s (List.mem_cons_of_mem r hs)
      have hr := h r List.mem_cons_self hab
      rw [SymbolicCalculus.applyStages, SymbolicCalculus.applyStages]
      -- by the law of the first stage, it replaces both trees or neither
      cases ha : r.replace? a <;> cases hb : r.replace? b <;> rw [ha, hb] at hr <;> cases hr
      · exact ih hrules hab
      · next hnext => exact ih hrules hnext

/-- The changes that are recorded on the way do not matter for the tree. -/
theorem finishNode [CongruenceLaws K] {a b : Expr K} (h : Alike a b)
    (changes changes' : List (Change K)) :
    Alike (SymbolicCalculus.finishNode changes a).1 (SymbolicCalculus.finishNode changes' b).1 :=
  applyStages (fun _ hr => Rule.stages_congruent hr) h

mutual

/-- A pass makes structurally equal trees of structurally equal ones. -/
theorem pass [CongruenceLaws K] {a b : Expr K} (h : Alike a b) : Alike a.pass.1 b.pass.1 := by
  -- children first, then the stages at the node itself
  match a with
  | .number v =>
    obtain ⟨w, rfl, -⟩ := alike_number_iff.mp h
    exact h.finishNode [] []
  | .constant c =>
    obtain rfl := alike_constant_iff.mp h
    exact h.finishNode [] []
  | .var name =>
    obtain rfl := alike_var_iff.mp h
    exact h.finishNode [] []
  | .sum as =>
    obtain ⟨bs, rfl, has⟩ := alike_sum_iff.mp h
    exact finishNode (alike_sum_iff.mpr ⟨_, rfl, passAddends has⟩) _ _
  | .product es =>
    obtain ⟨fs, rfl, hes⟩ := alike_product_iff.mp h
    exact finishNode (alike_product_iff.mpr ⟨_, rfl, passFactors hes⟩) _ _
  | .quotient c d =>
    obtain ⟨c', d', rfl, hc, hd⟩ := alike_quotient_iff.mp h
    exact finishNode (alike_quotient_iff.mpr ⟨_, _, rfl, pass hc, pass hd⟩) _ _
  | .power c d =>
    obtain ⟨c', d', rfl, hc, hd⟩ := alike_power_iff.mp h
    exact finishNode (alike_power_iff.mpr ⟨_, _, rfl, pass hc, pass hd⟩) _ _
  | .call f c =>
    obtain ⟨c', rfl, hc⟩ := alike_call_iff.mp h
    exact finishNode (alike_call_iff.mpr ⟨_, rfl, pass hc⟩) _ _

theorem passAddends [CongruenceLaws K] {as bs : List (Addend (Expr K))} (h : AlikeAddends as bs) :
    AlikeAddends (Expr.passAddends as).1 (Expr.passAddends bs).1 := by
  match as, bs, h with
  | [], [], .nil => exact .nil
  | ⟨_, _⟩ :: _, ⟨_, _⟩ :: _, .cons hab h => exact .cons ⟨pass hab.1, hab.2⟩ (passAddends h)

theorem passFactors [CongruenceLaws K] {es fs : List (Expr K)} (h : AlikeFactors es fs) :
    AlikeFactors (Expr.passFactors es).1 (Expr.passFactors fs).1 := by
  match es, fs, h with
  | [], [], .nil => exact .nil
  | _ :: _, _ :: _, .cons hef h => exact .cons (pass hef) (passFactors h)

end

end Alike

/-! ## Simplifying again -/

/-- **Simplification is idempotent at fixed points.** A pass makes structurally equal trees of
structurally equal ones. If a simplification ended because a pass changed nothing, simplifying its
result again gives the same result, whatever the limits are. -/
theorem simplify_idempotent [CongruenceLaws K] :
    (∀ a b : Expr K, (a == b) = true → (a.pass.1 == b.pass.1) = true) ∧
      ∀ (limits : SimplifyLimits) (e : Expr K) (k : Nat),
        (simplifyReport limits e).outcome = .fixedPoint k →
          ∀ limits' : SimplifyLimits,
            (simplify limits' (simplify limits e) == simplify limits e) = true := by
  refine ⟨fun a b h => Alike.pass h, fun limits e k houtcome limits' => ?_⟩
  have hpass : (simplify limits e).pass.1 = simplify limits e := pass_simplify_eq houtcome
  -- the result is a fixed point, so whatever the limits are, nothing is left to do
  rw [simplify_of_pass_eq hpass]
  exact Alike.refl _

/-- The sums `x + 0` and `x + -0` of doubles are structurally equal and stay so, and the result of
simplifying `(x + -0) * 3 ^ 2` is not changed by simplifying it again. -/
theorem simplify_idempotent_zeros :
    letI := Binary64.withPow Binary64.squareOnly
    let a : Expr Float := .sum [.plus (.var "x"), .plus (.number 0)]
    let b : Expr Float := .sum [.plus (.var "x"), .plus (.number (-0))]
    let e : Expr Float := .product [b, .power (.number 3) (.number 2)]
    (a == b) = true ∧ (a.pass.1 == b.pass.1) = true ∧
      (simplifyReport {} e).outcome = .fixedPoint 2 ∧
        ∀ limits : SimplifyLimits, (simplify limits (simplify {} e) == simplify {} e) = true := by
  intro a b e
  let _ := Binary64.withPow Binary64.squareOnly
  have _ := Binary64.congruenceLaws_squareOnly
  have hab : (a == b) = true := by decide +kernel
  have houtcome : (simplifyReport {} e).outcome = .fixedPoint 2 := by decide +kernel
  obtain ⟨hpass, hsimplify⟩ := simplify_idempotent (K := Float)
  exact ⟨hab, hpass a b hab, houtcome, hsimplify {} e 2 houtcome⟩

end SymbolicCalculus
