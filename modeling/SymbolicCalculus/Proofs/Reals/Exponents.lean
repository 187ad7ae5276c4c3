import SymbolicCalculus.Proofs.Reals.Fractions
import SymbolicCalculus.Proofs.Scalar.Binary64

/-!
# Merging conserves exponents

The exponents that a base has above the bar, less those that it has below it, add up to the same
exact number before and after powers are merged (`Powers.merge_conserves_exponents`). Nothing is
asked of the base here, since only exponents are added and subtracted. What the powers are worth is
another matter, for which the base may have to be other than zero.

The sum of exponents is read as an expression, `Powers.netExponent`. So it has a value wherever all
of the exponents are defined, and merging does not change where that is.
-/

namespace SymbolicCalculus

open SymbolicCalculus.Expr Scalar

namespace Powers

section Sums

variable {K : Type} [Scalar K]

/-- The sum of the exponents that a base has. -/
def exponentSum (b : Expr K) (powers : Powers K) : Expr K :=
  .sum ((powers.filter fun p => p.1 == b).map fun p => .plus p.2)

/-- The sum of the exponents that a base has above the bar, less those that it has below it. -/
def netExponent (b : Expr K) (powers : Powers K × Powers K) : Expr K :=
  exponentSum b powers.1 - exponentSum b powers.2

end Sums

variable {σ : String → ℝ} {b : Expr ℝ}

/-! ## Exponents one by one -/

@[simp] theorem value_exponentSum_nil : (exponentSum b []).value σ = 0 := rfl

@[simp] theorem defined_exponentSum_nil : (exponentSum b []).Defined σ ↔ True := Iff.rfl

@[simp] theorem value_exponentSum_cons (p : Expr ℝ × Expr ℝ) (ps : Powers ℝ) :
    (exponentSum b (p :: ps)).value σ =
      (if p.1 == b then p.2.value σ else 0) + (exponentSum b ps).value σ := by
  by_cases h : (p.1 == b) = true <;> simp [exponentSum, h, Addend.plus]

@[simp] theorem defined_exponentSum_cons (p : Expr ℝ × Expr ℝ) (ps : Powers ℝ) :
    (exponentSum b (p :: ps)).Defined σ ↔
      ((p.1 == b) = true → p.2.Defined σ) ∧ (exponentSum b ps).Defined σ := by
  by_cases h : (p.1 == b) = true <;> simp [exponentSum, h, Addend.plus]

@[simp] theorem value_exponentSum_append (ps qs : Powers ℝ) :
    (exponentSum b (ps ++ qs)).value σ =
      (exponentSum b ps).value σ + (exponentSum b qs).value σ := by
  simp [exponentSum]

@[simp] theorem defined_exponentSum_append (ps qs : Powers ℝ) :
    (exponentSum b (ps ++ qs)).Defined σ ↔
      (exponentSum b ps).Defined σ ∧ (exponentSum b qs).Defined σ := by
  simp [exponentSum]

/-- The difference of the sums is written by the operator of subtraction. -/
@[simp] theorem value_netExponent (powers : Powers ℝ × Powers ℝ) :
    (netExponent b powers).value σ =
      (exponentSum b powers.1).value σ - (exponentSum b powers.2).value σ := by
  show addendsValue σ ((exponentSum b powers.1).asAddends false ++
    (exponentSum b powers.2).asAddends true) = _
  simp [sub_eq_add_neg]

@[simp] theorem defined_netExponent (powers : Powers ℝ × Powers ℝ) :
    (netExponent b powers).Defined σ ↔
      (exponentSum b powers.1).Defined σ ∧ (exponentSum b powers.2).Defined σ := by
  show AddendsDefined σ ((exponentSum b powers.1).asAddends false ++
    (exponentSum b powers.2).asAddends true) ↔ _
  simp

/-! ## Sums that are worth the same -/

/-- The expressions are defined alike and have the same value. -/
def SameWorth (σ : String → ℝ) (e e' : Expr ℝ) : Prop :=
  (e.Defined σ ↔ e'.Defined σ) ∧ e.value σ = e'.value σ

namespace SameWorth

theorem refl (e : Expr ℝ) : SameWorth σ e e := ⟨Iff.rfl, rfl⟩

theorem trans {e₁ e₂ e₃ : Expr ℝ} (h : SameWorth σ e₁ e₂) (h' : SameWorth σ e₂ e₃) :
    SameWorth σ e₁ e₃ :=
  ⟨h.1.trans h'.1, h.2.trans h'.2⟩

/-- More powers may be put after powers that are worth the same. -/
theorem append {ps ps' : Powers ℝ} (h : SameWorth σ (exponentSum b ps) (exponentSum b ps'))
    (qs : Powers ℝ) : SameWorth σ (exponentSum b (ps ++ qs)) (exponentSum b (ps' ++ qs)) := by
  simp only [SameWorth, defined_exponentSum_append, value_exponentSum_append]
  rw [h.1, h.2]
  exact ⟨Iff.rfl, rfl⟩

/-- The sums above and below the bar may be replaced one by one. -/
theorem net {num num' den den' : Powers ℝ}
    (hnum : SameWorth σ (exponentSum b num) (exponentSum b num'))
    (hden : SameWorth σ (exponentSum b den) (exponentSum b den')) :
    SameWorth σ (netExponent b (num, den)) (netExponent b (num', den')) := by
  simp only [SameWorth, defined_netExponent, value_netExponent]
  rw [hnum.1, hnum.2, hden.1, hden.2]
  exact ⟨Iff.rfl, rfl⟩

/-- One more power on both sides of the comparison, below both bars. -/
theorem net_cons {num num' den den' : Powers ℝ}
    (h : SameWorth σ (netExponent b (num, den)) (netExponent b (num', den')))
    (p : Expr ℝ × Expr ℝ) :
    SameWorth σ (netExponent b (num, p :: den)) (netExponent b (num', p :: den')) := by
  obtain ⟨hdefined, hvalue⟩ := h
  simp only [defined_netExponent, value_netExponent] at hdefined hvalue
  simp only [SameWorth, defined_netExponent, value_netExponent, defined_exponentSum_cons,
    value_exponentSum_cons]
  exact ⟨by tauto, by linarith⟩

end SameWorth

/-! ## Merging -/

/-- Raising adds an exponent to those of its base, or subtracts it. -/
theorem exponentSum_raise? {c y : Expr ℝ} {subtract : Bool} {ps qs : Powers ℝ}
    (h : raise? c y subtract ps = some qs) :
    ((exponentSum b qs).Defined σ ↔
        (exponentSum b ps).Defined σ ∧ (exponentSum b [(c, y)]).Defined σ) ∧
      (exponentSum b qs).value σ = (exponentSum b ps).value σ +
        if subtract then -(exponentSum b [(c, y)]).value σ
        else (exponentSum b [(c, y)]).value σ := by
  obtain ⟨before, d, x, after, rfl, hd, rfl⟩ := raise?_eq_some h
  -- the base that is raised is the same, which may or may not be `b`
  obtain rfl := eq_of_beq_expr hd
  obtain ⟨hdefined, hvalue⟩ := addExponents_spec (σ := σ) x y subtract
  constructor
  · simp only [defined_exponentSum_append, defined_exponentSum_cons, defined_exponentSum_nil,
      hdefined]
    tauto
  · simp only [value_exponentSum_append, value_exponentSum_cons, value_exponentSum_nil, hvalue]
    cases subtract <;> by_cases hbase : (d == b) = true <;> simp [hbase] <;> ring

/-- For the sum of exponents it makes no difference whether an inserted power is merged. -/
theorem exponentSum_insert (ps : Powers ℝ) (p : Expr ℝ × Expr ℝ) :
    SameWorth σ (exponentSum b (insert ps p)) (exponentSum b (ps ++ [p])) := by
  unfold insert
  cases hraise : raise? p.1 p.2 false ps with
  | none => exact .refl _
  | some qs =>
      obtain ⟨hdefined, hvalue⟩ := exponentSum_raise? (σ := σ) (b := b) hraise
      exact ⟨hdefined.trans (defined_exponentSum_append ps [p]).symm,
        hvalue.trans (value_exponentSum_append ps [p]).symm⟩

/-- Nor does it for a whole list of powers. -/
theorem exponentSum_foldl_insert (qs ps : Powers ℝ) :
    SameWorth σ (exponentSum b (qs.foldl insert ps)) (exponentSum b (ps ++ qs)) := by
  induction qs generalizing ps with
  | nil =>
      rw [List.append_nil]
      exact .refl _
  | cons q qs ih =>
      -- one power moves from the list that is inserted to the powers before it
      rw [List.foldl_cons, List.append_cons]
      exact (ih (insert ps q)).trans ((exponentSum_insert ps q).append qs)

/-- An exponent that is subtracted above the bar was one below it. -/
theorem netExponent_raise? {num num' : Powers ℝ} {p : Expr ℝ × Expr ℝ}
    (h : raise? p.1 p.2 true num = some num') (den : Powers ℝ) :
    SameWorth σ (netExponent b (num', den)) (netExponent b (num, p :: den)) := by
  obtain ⟨hdefined, hvalue⟩ := exponentSum_raise? (σ := σ) (b := b) h
  simp only [defined_exponentSum_cons, defined_exponentSum_nil, and_true] at hdefined
  simp only [value_exponentSum_cons, value_exponentSum_nil, add_zero, if_true] at hvalue
  simp only [SameWorth, defined_netExponent, value_netExponent, defined_exponentSum_cons,
    value_exponentSum_cons, hdefined, hvalue]
  exact ⟨and_assoc, by ring⟩

/-- Dividing merged powers keeps the exponents of every base. -/
theorem netExponent_divide (num den : Powers ℝ) :
    SameWorth σ (netExponent b (divide num den)) (netExponent b (num, den)) := by
  induction den generalizing num with
  | nil => exact .refl _
  | cons p den ih =>
      rw [divide]
      cases hraise : raise? p.1 p.2 true num with
      | none => exact (ih num).net_cons p
      | some num' => exact (ih num').trans (netExponent_raise? hraise den)

/-- **Merging conserves exponents.** The bases of merged powers are pairwise different, on one side
of the bar as well as across it, and they are the bases that the factors of the fraction have. Above
the bar stand all bases that occur there, in the order of their first occurrences, and below it
those that occur below it only, in theirs. Read over the real numbers, the exponents of every base
above the bar, less those below it, add up to what they added up to before, and are defined where
they were defined before. A base without powers adds up to zero. -/
theorem merge_conserves_exponents :
    (∀ (K : Type) [Scalar K] [UnitLaws K] (a : Fraction K),
      (bases (merge a).1 ++ bases (merge a).2).Pairwise (fun b c => ¬ Alike b c) ∧
      (∀ b, (bases (merge a).1 ++ bases (merge a).2).contains b =
        (bases (ofFraction a).1 ++ bases (ofFraction a).2).contains b) ∧
      bases (merge a).1 = (bases (ofFraction a).1).eraseDups ∧
      bases (merge a).2 = (bases (ofFraction a).2).eraseDups.filter fun b =>
        !(bases (ofFraction a).1).contains b) ∧
    ∀ (a : Fraction ℝ) (b : Expr ℝ) (σ : String → ℝ),
      (netExponent b (merge a)).value σ = (netExponent b (ofFraction a)).value σ ∧
      ((netExponent b (merge a)).Defined σ ↔ (netExponent b (ofFraction a)).Defined σ) := by
  constructor
  · intro K _ _ a
    obtain ⟨hnum, hden⟩ := bases_merge a
    refine ⟨(pairwise_bases_merge a).imp fun h => ?_, contains_bases_merge a, hnum, hden⟩
    exact Bool.eq_false_iff.mp h
  · intro a b σ
    have hnum : SameWorth σ (exponentSum b (ofFactors a.num)) (exponentSum b (ofFraction a).1) :=
      exponentSum_foldl_insert (a.num.map ofFactor) []
    have hden : SameWorth σ (exponentSum b (ofFactors a.den)) (exponentSum b (ofFraction a).2) :=
      exponentSum_foldl_insert (a.den.map ofFactor) []
    obtain ⟨hdefined, hvalue⟩ := (netExponent_divide _ _).trans (hnum.net hden)
    exact ⟨hvalue, hdefined⟩

/-- In `x * y ^ 2 * x / (y ^ n * z * z)` the bases `x` and `y` stay above the bar and `z` below it.
Where all of the bases are zero and `n` is five, the exponents of `y` add up to minus three. -/
theorem merge_conserves_exponents_shared :
    let a : Fraction Float := ⟨[.var "x", .power (.var "y") (.number 2), .var "x"],
      [.power (.var "y") (.var "n"), .var "z", .var "z"]⟩
    let a' : Fraction ℝ := ⟨[.var "x", .power (.var "y") (.number 2), .var "x"],
      [.power (.var "y") (.var "n"), .var "z", .var "z"]⟩
    bases (merge a).1 = [.var "x", .var "y"] ∧ bases (merge a).2 = [.var "z"] ∧
      (netExponent (.var "y") (merge a')).value (fun name => if name = "n" then 5 else 0) = -3 := by
  intro a a'
  obtain ⟨hbases, hexponents⟩ := merge_conserves_exponents
  obtain ⟨-, -, hnum, hden⟩ := hbases Float a
  obtain ⟨hvalue, -⟩ := hexponents a' (.var "y") fun name => if name = "n" then 5 else 0
  refine ⟨hnum.trans rfl, hden.trans rfl, hvalue.trans ?_⟩
  have hx : ((.var "x" : Expr ℝ) == .var "y") = false := rfl
  have hy : ((.var "y" : Expr ℝ) == .var "y") = true := rfl
  have hz : ((.var "z" : Expr ℝ) == .var "y") = false := rfl
  simp [a', ofFraction, ofFactor, hx, hy, hz]
  norm_num

end Powers

end SymbolicCalculus
