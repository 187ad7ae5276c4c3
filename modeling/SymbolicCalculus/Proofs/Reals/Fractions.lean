import SymbolicCalculus.Proofs.Reals.Rules
import SymbolicCalculus.Proofs.Simplify.Bases
import SymbolicCalculus.Proofs.Simplify.Cancelling

/-!
# Fractions and merged powers keep real values

A fraction is defined when all its factors are and no factor below the bar is zero, and it is worth
the product above the bar over the product below. Splitting a tree into a fraction, cancelling,
gathering numbers and putting the fraction together again keep both.

Merged powers are treated alike: `Powers.Defined` says that every base has a power with its
exponent, and `Powers.value` multiplies these up. Adding exponents of one base is sound because a
base with several powers is positive, or zero with positive exponents only, or negative with
integral exponents only. Subtracting them needs the base to be other than zero, which holds because
the power below the bar is.
-/

namespace SymbolicCalculus

open SymbolicCalculus.Expr

variable {σ : String → ℝ}

/-! ## Fractions -/

namespace Fraction

/-- All factors are defined, and those below the bar do not multiply to zero. -/
def Defined (σ : String → ℝ) (a : Fraction ℝ) : Prop :=
  FactorsDefined σ a.num ∧ FactorsDefined σ a.den ∧ factorsValue σ a.den ≠ 0

/-- The product above the bar over the product below it. -/
noncomputable def value (σ : String → ℝ) (a : Fraction ℝ) : ℝ :=
  factorsValue σ a.num / factorsValue σ a.den

/-- The product of fractions is defined where both are, since neither divisor is zero. -/
theorem Defined.mul {a b : Fraction ℝ} (ha : a.Defined σ) (hb : b.Defined σ) :
    (a.mul b).Defined σ := by
  obtain ⟨hna, hda, hza⟩ := ha
  obtain ⟨hnb, hdb, hzb⟩ := hb
  have hnum : FactorsDefined σ (a.num ++ b.num) := (factorsDefined_append _ _).mpr ⟨hna, hnb⟩
  have hden : FactorsDefined σ (a.den ++ b.den) := (factorsDefined_append _ _).mpr ⟨hda, hdb⟩
  refine ⟨hnum, hden, ?_⟩
  show factorsValue σ (a.den ++ b.den) ≠ 0
  rw [factorsValue_append]
  exact mul_ne_zero hza hzb

theorem value_mul (a b : Fraction ℝ) : (a.mul b).value σ = a.value σ * b.value σ := by
  simp only [value, mul, factorsValue_append]
  exact mul_div_mul_comm _ _ _ _

theorem Defined.inverse {a : Fraction ℝ} (ha : a.Defined σ) (hvalue : a.value σ ≠ 0) :
    a.inverse.Defined σ :=
  ⟨ha.2.1, ha.1, (div_ne_zero_iff.mp hvalue).1⟩

theorem value_inverse (a : Fraction ℝ) : a.inverse.value σ = (a.value σ)⁻¹ :=
  (inv_div _ _).symm

/-! ### Splitting a tree -/

theorem ofExpr_leaf {e : Expr ℝ} (he : e.Defined σ) :
    (⟨[e], []⟩ : Fraction ℝ).Defined σ ∧ (⟨[e], []⟩ : Fraction ℝ).value σ = e.value σ := by
  simp [Defined, value, he]

mutual

/-- Splitting a tree keeps its value where it is defined. -/
theorem ofExpr_spec (e : Expr ℝ) (he : e.Defined σ) :
    (ofExpr e).Defined σ ∧ (ofExpr e).value σ = e.value σ := by
  cases e with
  | number v => exact ofExpr_leaf he
  | constant c => exact ofExpr_leaf he
  | var name => exact ofExpr_leaf he
  | sum addends => exact ofExpr_leaf he
  | product factors => exact ofFactors_spec factors he
  | quotient a b =>
      obtain ⟨ha, hb, hzero⟩ := he
      obtain ⟨hda, hva⟩ := ofExpr_spec a ha
      obtain ⟨hdb, hvb⟩ := ofExpr_spec b hb
      -- the divisor is not zero, so its own fraction may be turned over
      refine ⟨hda.mul (hdb.inverse (hvb ▸ hzero)), ?_⟩
      rw [ofExpr, value_mul, value_inverse, hva, hvb, Expr.value, div_eq_mul_inv]
  | power a b => exact ofExpr_leaf he
  | call f a => exact ofExpr_leaf he

/-- The fraction of a product is the product of the fractions of its factors. -/
theorem ofFactors_spec (es : List (Expr ℝ)) (hes : FactorsDefined σ es) :
    (ofFactors es).Defined σ ∧ (ofFactors es).value σ = factorsValue σ es := by
  match es with
  | [] => simp [ofFactors, Defined, value]
  | e :: es =>
    obtain ⟨hde, hve⟩ := ofExpr_spec e hes.1
    obtain ⟨hds, hvs⟩ := ofFactors_spec es hes.2
    exact ⟨hde.mul hds, by rw [ofFactors, value_mul, hve, hvs, factorsValue]⟩

end

/-! ### Putting a fraction together -/

/-- Putting a fraction together keeps its value. With nothing below the bar there is no quotient. -/
theorem toExpr_spec {a : Fraction ℝ} (ha : a.Defined σ) :
    a.toExpr.Defined σ ∧ a.toExpr.value σ = a.value σ := by
  obtain ⟨hnum, hden, hzero⟩ := ha
  unfold toExpr
  split
  · next hempty =>
      have hnil : a.den = [] := List.isEmpty_iff.mp hempty
      refine ⟨(defined_collapse _).mpr hnum, ?_⟩
      rw [productOf, value_collapse, value, hnil, factorsValue, div_one, Expr.value]
  · refine ⟨⟨(defined_collapse _).mpr hnum, (defined_collapse _).mpr hden, ?_⟩, ?_⟩
    · rw [productOf, value_collapse]
      exact hzero
    · rw [Expr.value, productOf, productOf, value_collapse, value_collapse]
      rfl

/-! ### Cancelling -/

/-- Cancelling keeps the value, since no factor below the bar is zero. -/
theorem cancelFrom_spec (num den : List (Expr ℝ)) (h : (⟨num, den⟩ : Fraction ℝ).Defined σ) :
    (cancelFrom num den).Defined σ ∧
      (cancelFrom num den).value σ = (⟨num, den⟩ : Fraction ℝ).value σ := by
  -- on the factors above the bar, each of which may take one out below
  induction num generalizing den with
  | nil => exact ⟨h, rfl⟩
  | cons e num ih =>
      obtain ⟨hnum, hden, hzero⟩ := h
      rcases cancelFrom_cons e num den with ⟨before, f, after, -, rfl, hf, heq⟩ | ⟨-, heq⟩
      · -- the factor below the bar that was taken out is `e` itself, so it is not zero
        obtain rfl := eq_of_beq_expr hf
        obtain ⟨hbefore, -, hafter⟩ := (factorsDefined_append before _).mp hden
        have hvalue : factorsValue σ (before ++ f :: after) =
            f.value σ * factorsValue σ (before ++ after) := by
          rw [factorsValue_append, factorsValue_append, factorsValue]
          ring
        rw [hvalue] at hzero
        obtain ⟨he, hrest⟩ := mul_ne_zero_iff.mp hzero
        obtain ⟨hd, hv⟩ :=
          ih _ ⟨hnum.2, (factorsDefined_append before after).mpr ⟨hbefore, hafter⟩, hrest⟩
        rw [heq]
        refine ⟨hd, ?_⟩
        rw [hv, value, value, hvalue, factorsValue]
        exact (mul_div_mul_left _ _ he).symm
      · obtain ⟨⟨hn, hd, hz⟩, hv⟩ := ih den ⟨hnum.2, hden, hzero⟩
        rw [heq]
        refine ⟨⟨⟨hnum.1, hn⟩, hd, hz⟩, ?_⟩
        simp only [value, factorsValue] at hv ⊢
        rw [mul_div_assoc, hv, mul_div_assoc]

theorem cancel_spec {a : Fraction ℝ} (ha : a.Defined σ) :
    a.cancel.Defined σ ∧ a.cancel.value σ = a.value σ :=
  cancelFrom_spec a.num a.den ha

/-! ### Gathering the numbers -/

/-- Dividing by numbers one after the other divides by their product. -/
theorem foldl_div_eq (vs : List ℝ) (start : ℝ) :
    vs.foldl (· / ·) start = start / Scalar.product vs := by
  induction vs generalizing start with
  | nil => simp
  | cons v vs ih => rw [List.foldl_cons, ih, Scalar.product_cons, div_div]

/-- Below the bar the numbers other than zero can be told from the rest. -/
theorem factorsValue_eq_divisors_mul (es : List (Expr ℝ)) :
    factorsValue σ es = Scalar.product (es.filterMap divisor?) *
      factorsValue σ (es.filter fun e => (divisor? e).isNone) := by
  induction es with
  | nil => simp
  | cons e es ih =>
      rw [factorsValue, ih]
      cases hdiv : divisor? e with
      | none =>
          rw [List.filterMap_cons_none hdiv, List.filter_cons_of_pos (by simp [hdiv]), factorsValue]
          ring
      | some v =>
          have hvalue : e.value σ = v := by
            unfold divisor? at hdiv
            split at hdiv
            · next w hw =>
                split at hdiv
                · cases hdiv
                · exact (value_of_asNumber hw).trans (Option.some.inj hdiv)
            · cases hdiv
          rw [List.filterMap_cons_some hdiv, List.filter_cons_of_neg (by simp [hdiv]),
            Scalar.product_cons, hvalue]
          ring

/-- Gathering the numbers of a fraction into one factor keeps its value. -/
theorem gather_spec {a : Fraction ℝ} (ha : a.Defined σ) :
    a.gather.Defined σ ∧ a.gather.value σ = a.value σ := by
  obtain ⟨hnum, hden, hzero⟩ := ha
  have hvnum := factorsValue_eq_product_mul (σ := σ) a.num
  have hvden := factorsValue_eq_divisors_mul (σ := σ) a.den
  have hnum' := FactorsDefined.filter hnum fun e => !e.isNumber
  have hden' := FactorsDefined.filter hden fun e => (divisor? e).isNone
  rw [hvden] at hzero
  simp only [gather, Defined, value, foldl_div_eq, hvnum, hvden]
  -- what matters are the two products of numbers and the factors that are left
  generalize Scalar.product (a.num.filterMap asNumber?) = n
  generalize Scalar.product (a.den.filterMap divisor?) = d at hzero ⊢
  generalize a.num.filter (fun e => !e.isNumber) = num at hnum' ⊢
  generalize a.den.filter (fun e => (divisor? e).isNone) = den at hzero hden' ⊢
  obtain ⟨hd, hden0⟩ := mul_ne_zero_iff.mp hzero
  -- a number of one is left out
  by_cases hone : n / d = 1
  · simp only [hone, beq_self_eq_true, if_true]
    refine ⟨⟨hnum', hden', hden0⟩, ?_⟩
    rw [mul_div_mul_comm, hone, one_mul]
  · simp only [beq_iff_eq, hone, if_false, factorsDefined_append, factorsValue_append]
    refine ⟨⟨⟨hnum', by simp⟩, hden', hden0⟩, ?_⟩
    rw [mul_div_mul_comm]
    simp only [factorsValue, Expr.value]
    ring

end Fraction

/-! ## Merging exponents -/

namespace Powers

/-- All bases and exponents are defined, and every base has a power with its exponent. -/
def Defined (σ : String → ℝ) (ps : Powers ℝ) : Prop :=
  ∀ p ∈ ps, p.1.Defined σ ∧ p.2.Defined σ ∧ PowDomain (p.1.value σ) (p.2.value σ)

/-- The product of the powers. -/
noncomputable def value (σ : String → ℝ) (ps : Powers ℝ) : ℝ :=
  (ps.map fun p => p.1.value σ ^ p.2.value σ).prod

@[simp] theorem defined_nil : Defined σ [] := by simp [Defined]

@[simp] theorem defined_cons {p : Expr ℝ × Expr ℝ} {ps : Powers ℝ} :
    Defined σ (p :: ps) ↔
      (p.1.Defined σ ∧ p.2.Defined σ ∧ PowDomain (p.1.value σ) (p.2.value σ)) ∧ Defined σ ps := by
  simp [Defined]

@[simp] theorem defined_append {ps qs : Powers ℝ} :
    Defined σ (ps ++ qs) ↔ Defined σ ps ∧ Defined σ qs :=
  List.forall_mem_append

@[simp] theorem value_nil : value σ [] = 1 := rfl

@[simp] theorem value_cons (p : Expr ℝ × Expr ℝ) (ps : Powers ℝ) :
    value σ (p :: ps) = p.1.value σ ^ p.2.value σ * value σ ps := by
  simp [value]

@[simp] theorem value_append (ps qs : Powers ℝ) :
    value σ (ps ++ qs) = value σ ps * value σ qs := by
  simp [value]

/-! ### Factors as powers -/

/-- A factor that is not a power counts as one to the exponent one. -/
theorem ofFactor_spec {e : Expr ℝ} (he : e.Defined σ) :
    Defined σ [ofFactor e] ∧ value σ [ofFactor e] = e.value σ := by
  unfold ofFactor
  split
  · simp [he.1, he.2.1, he.2.2]
  · simp [he, PowDomain.one]

/-- A power to the exponent zero or one is written as one or as its base. -/
theorem toFactor_spec {b x : Expr ℝ} (h : Defined σ [(b, x)]) :
    (toFactor b x).Defined σ ∧ (toFactor b x).value σ = b.value σ ^ x.value σ := by
  obtain ⟨⟨hb, hx, hpow⟩, _⟩ := defined_cons.mp h
  unfold toFactor
  split
  · next hzero => exact ⟨trivial, by rw [value_of_isNumberEq hzero, Real.rpow_zero]; rfl⟩
  · split
    · next hone => exact ⟨hb, by rw [value_of_isNumberEq hone, Real.rpow_one]⟩
    · exact ⟨⟨hb, hx, hpow⟩, rfl⟩

/-! ### Adding exponents -/

/-- The sum of two exponents is defined where both are, and is worth what it says, also when its
numbers are gathered. -/
theorem addExponents_spec (x y : Expr ℝ) (subtract : Bool) :
    ((addExponents x y subtract).Defined σ ↔ x.Defined σ ∧ y.Defined σ) ∧
      (addExponents x y subtract).value σ =
        x.value σ + if subtract then -y.value σ else y.value σ := by
  have hdefined := defined_normalize (σ := σ) (Expr.sum [.plus x, ⟨y, subtract⟩])
  have hvalue := value_normalize (σ := σ) (Expr.sum [.plus x, ⟨y, subtract⟩])
  have hdefined' : (Expr.sum [.plus x, ⟨y, subtract⟩]).Defined σ ↔ x.Defined σ ∧ y.Defined σ := by
    simp [Addend.plus]
  have hvalue' : (Expr.sum [.plus x, ⟨y, subtract⟩]).value σ =
      x.value σ + if subtract then -y.value σ else y.value σ := by
    simp [Addend.plus]
  -- only the gathering of the normal form is left to look at
  rw [← hdefined', ← hvalue', ← hdefined, ← hvalue]
  unfold addExponents
  split
  · next as heq =>
      rw [heq]
      exact gatherSum_spec as
  · exact ⟨Iff.rfl, rfl⟩

/-- A power with an exponent added to it, or with one subtracted if its base is not zero. -/
theorem addExponents_pow {b x y : Expr ℝ} {subtract : Bool} (hx : Defined σ [(b, x)])
    (hy : Defined σ [(b, y)]) (hzero : subtract = true → b.value σ ^ y.value σ ≠ 0) :
    Defined σ [(b, addExponents x y subtract)] ∧
      b.value σ ^ (addExponents x y subtract).value σ = b.value σ ^ x.value σ *
        if subtract then (b.value σ ^ y.value σ)⁻¹ else b.value σ ^ y.value σ := by
  obtain ⟨⟨hb, hx, hpx⟩, _⟩ := defined_cons.mp hx
  obtain ⟨⟨_, hy, hpy⟩, _⟩ := defined_cons.mp hy
  obtain ⟨hdefined, hv⟩ := addExponents_spec (σ := σ) x y subtract
  have hd := hdefined.mpr ⟨hx, hy⟩
  simp only [defined_cons, defined_nil, and_true]
  rw [hv]
  cases subtract with
  | false =>
      simp only [Bool.false_eq_true, if_false]
      exact ⟨⟨hb, hd, hpx.add hpy⟩, hpx.rpow_add hpy⟩
  | true =>
      simp only [if_true]
      -- with a base other than zero both signs of the exponent difference are allowed
      have hbase : b.value σ ≠ 0 := hpy.base_ne_zero (hzero rfl)
      rw [← sub_eq_add_neg, ← div_eq_mul_inv]
      exact ⟨⟨hb, hd, PowDomain.sub hbase hpx hpy⟩, PowDomain.rpow_sub hbase hpx hpy⟩

/-- Raising multiplies the product of the powers by one power, or divides it by one that is not
zero. -/
theorem raise_spec {b y : Expr ℝ} {subtract : Bool} {ps qs : Powers ℝ}
    (h : raise? b y subtract ps = some qs) (hps : Defined σ ps) (hy : Defined σ [(b, y)])
    (hzero : subtract = true → b.value σ ^ y.value σ ≠ 0) :
    Defined σ qs ∧ value σ qs = value σ ps *
      if subtract then (b.value σ ^ y.value σ)⁻¹ else b.value σ ^ y.value σ := by
  obtain ⟨before, c, x, after, rfl, hc, rfl⟩ := raise?_eq_some h
  -- a base that is found equal is the same over the reals
  obtain rfl := eq_of_beq_expr hc
  obtain ⟨hbefore, hrest⟩ := defined_append.mp hps
  obtain ⟨hp, hafter⟩ := defined_cons.mp hrest
  obtain ⟨hd, hv⟩ := addExponents_pow (defined_cons.mpr ⟨hp, defined_nil⟩) hy hzero
  refine ⟨defined_append.mpr ⟨hbefore, defined_cons.mpr ⟨(defined_cons.mp hd).1, hafter⟩⟩, ?_⟩
  rw [value_append, value_append, value_cons, value_cons, hv]
  ring

/-! ### Merging -/

/-- Inserting a power multiplies the product by it, whether or not its base is there already. -/
theorem insert_spec {ps : Powers ℝ} {p : Expr ℝ × Expr ℝ} (hps : Defined σ ps)
    (hp : Defined σ [p]) :
    Defined σ (insert ps p) ∧ value σ (insert ps p) = value σ ps * value σ [p] := by
  unfold insert
  cases hraise : raise? p.1 p.2 false ps with
  | none => exact ⟨defined_append.mpr ⟨hps, hp⟩, value_append ps [p]⟩
  | some qs =>
      obtain ⟨hd, hv⟩ := raise_spec hraise hps hp (by simp)
      refine ⟨hd, ?_⟩
      rw [Option.getD_some, hv]
      simp

/-- Inserting the powers of a list of factors multiplies by all of them. -/
theorem foldl_insert_spec (es : List (Expr ℝ)) (ps : Powers ℝ) (hes : FactorsDefined σ es)
    (hps : Defined σ ps) :
    Defined σ ((es.map ofFactor).foldl insert ps) ∧
      value σ ((es.map ofFactor).foldl insert ps) = value σ ps * factorsValue σ es := by
  induction es generalizing ps with
  | nil => exact ⟨hps, (mul_one _).symm⟩
  | cons e es ih =>
      obtain ⟨hd, hv⟩ := ofFactor_spec hes.1
      obtain ⟨hdi, hvi⟩ := insert_spec hps hd
      obtain ⟨hdr, hvr⟩ := ih _ hes.2 hdi
      refine ⟨hdr, ?_⟩
      rw [List.map_cons, List.foldl_cons, hvr, hvi, hv, factorsValue, mul_assoc]

theorem ofFactors_spec {es : List (Expr ℝ)} (hes : FactorsDefined σ es) :
    Defined σ (ofFactors es) ∧ value σ (ofFactors es) = factorsValue σ es := by
  obtain ⟨hd, hv⟩ := foldl_insert_spec es [] hes defined_nil
  exact ⟨hd, by rw [ofFactors, hv, value_nil, one_mul]⟩

/-- Dividing merged powers keeps the value of their quotient, and what stays below the bar is not
zero. -/
theorem divide_spec (num den : Powers ℝ) (hnum : Defined σ num) (hden : Defined σ den)
    (hzero : value σ den ≠ 0) :
    Defined σ (divide num den).1 ∧ Defined σ (divide num den).2 ∧
      value σ (divide num den).2 ≠ 0 ∧
      value σ (divide num den).1 / value σ (divide num den).2 = value σ num / value σ den := by
  induction den generalizing num with
  | nil => exact ⟨hnum, hden, hzero, rfl⟩
  | cons p den ih =>
      obtain ⟨hp, hrest⟩ := defined_cons.mp hden
      rw [value_cons] at hzero
      -- every power below the bar is other than zero, also the ones that are taken out
      obtain ⟨hp0, hrest0⟩ := mul_ne_zero_iff.mp hzero
      rw [divide]
      split
      · next qs hraise =>
          obtain ⟨hd, hv⟩ :=
            raise_spec hraise hnum (defined_cons.mpr ⟨hp, defined_nil⟩) (fun _ => hp0)
          obtain ⟨hd1, hd2, hz, hvalue⟩ := ih qs hd hrest hrest0
          refine ⟨hd1, hd2, hz, ?_⟩
          rw [hvalue, hv, value_cons, if_pos rfl, ← div_eq_mul_inv, div_div]
      · obtain ⟨hd1, hd2, hz, hvalue⟩ := ih num hnum hrest hrest0
        refine ⟨hd1, defined_cons.mpr ⟨hp, hd2⟩, ?_, ?_⟩
        · rw [value_cons]
          exact mul_ne_zero hp0 hz
        · rw [value_cons, value_cons, mul_comm, ← div_div, hvalue, div_div, mul_comm]

/-- Written as factors, powers keep their product. -/
theorem toFactors_spec {ps : Powers ℝ} (hps : Defined σ ps) :
    FactorsDefined σ (toFactors ps) ∧ factorsValue σ (toFactors ps) = value σ ps := by
  induction ps with
  | nil => exact ⟨trivial, rfl⟩
  | cons p ps ih =>
      obtain ⟨hp, hrest⟩ := defined_cons.mp hps
      obtain ⟨hd, hv⟩ := toFactor_spec (defined_cons.mpr ⟨hp, defined_nil⟩)
      obtain ⟨hdr, hvr⟩ := ih hrest
      exact ⟨⟨hd, hdr⟩, by rw [value_cons, ← hv, ← hvr]; rfl⟩

/-- Dropping factors of one changes no product. -/
theorem factorsValue_filter_ones (es : List (Expr ℝ)) :
    factorsValue σ (es.filter fun e => !e.isNumberEq 1) = factorsValue σ es := by
  induction es with
  | nil => rfl
  | cons e es ih =>
      by_cases hone : e.isNumberEq 1 = true
      · rw [List.filter_cons_of_neg (by simp [hone]), ih, factorsValue, value_of_isNumberEq hone,
          one_mul]
      · rw [List.filter_cons_of_pos (by simp [hone]), factorsValue, factorsValue, ih]

/-- Merging the powers of a fraction keeps its value. -/
theorem mergedFraction_spec {a : Fraction ℝ} (ha : a.Defined σ) :
    (mergedFraction a).Defined σ ∧ (mergedFraction a).value σ = a.value σ := by
  obtain ⟨hnum, hden, hzero⟩ := ha
  obtain ⟨hdn, hvn⟩ := ofFactors_spec hnum
  obtain ⟨hdd, hvd⟩ := ofFactors_spec hden
  obtain ⟨hd1, hd2, hz, hvalue⟩ := divide_spec _ _ hdn hdd (hvd ▸ hzero)
  obtain ⟨hf1, hv1⟩ := toFactors_spec hd1
  obtain ⟨hf2, hv2⟩ := toFactors_spec hd2
  refine ⟨⟨FactorsDefined.filter hf1 _, hf2, hv2 ▸ hz⟩, ?_⟩
  show factorsValue σ (List.filter _ (toFactors (divide _ _).1)) /
    factorsValue σ (toFactors (divide _ _).2) = _
  rw [factorsValue_filter_ones, hv1, hv2]
  exact hvalue.trans (by rw [hvn, hvd]; rfl)

end Powers

/-! ## Soundness of the rules -/

namespace Rule

/-- Taking a tree apart, changing the fraction and putting it together keeps the value, if the
change does. -/
theorem preserves_ofFraction {e : Expr ℝ} {a b : Fraction ℝ}
    (ha : e.Defined σ → a.Defined σ ∧ a.value σ = e.value σ)
    (hb : a.Defined σ → b.Defined σ ∧ b.value σ = a.value σ) : Preserves σ e b.toExpr := by
  intro he
  obtain ⟨hda, hva⟩ := ha he
  obtain ⟨hdb, hvb⟩ := hb hda
  obtain ⟨hd, hv⟩ := Fraction.toExpr_spec hdb
  exact ⟨hd, hv.trans (hvb.trans hva)⟩

/-- Cancelling factors is sound. -/
theorem sound_cancelFactors : (cancelFactors : Rule ℝ).Sound := by
  intro σ e e' h
  obtain ⟨a, ha, h⟩ := Option.bind_eq_some_iff.mp h
  rw [eq_of_ifChanged h, Fraction.ofExpr?_eq_some ha]
  refine preserves_ofFraction (Fraction.ofExpr_spec e) fun hd => ?_
  obtain ⟨hdc, hvc⟩ := Fraction.cancel_spec hd
  obtain ⟨hdg, hvg⟩ := Fraction.gather_spec hdc
  exact ⟨hdg, hvg.trans hvc⟩

/-- The fraction that is merged has the value of the tree. A product without quotients has nothing
below the bar. -/
theorem fractionToMerge_spec {e : Expr ℝ} {a : Fraction ℝ} (h : fractionToMerge? e = some a)
    (he : e.Defined σ) : a.Defined σ ∧ a.value σ = e.value σ := by
  unfold fractionToMerge? at h
  split at h
  · next factors =>
      split at h
      · exact Fraction.ofExpr?_eq_some h ▸ Fraction.ofExpr_spec _ he
      · cases h
        exact ⟨⟨he, trivial, one_ne_zero⟩, div_one _⟩
  · exact Fraction.ofExpr?_eq_some h ▸ Fraction.ofExpr_spec _ he

/-- Merging powers is sound. -/
theorem sound_mergePowers : (mergePowers : Rule ℝ).Sound := by
  intro σ e e' h
  obtain ⟨a, ha, h⟩ := Option.bind_eq_some_iff.mp h
  rw [eq_of_ifChanged h]
  exact preserves_ofFraction (fractionToMerge_spec ha) Powers.mergedFraction_spec

end Rule

end SymbolicCalculus
