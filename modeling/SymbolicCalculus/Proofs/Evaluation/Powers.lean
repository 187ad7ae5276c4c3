import SymbolicCalculus.Evaluation.Evaluate
import SymbolicCalculus.Proofs.Reals.Extended
import SymbolicCalculus.Proofs.Results
import SymbolicCalculus.Proofs.Simplify.Stages

/-!
# The rules for powers and the values of powers

The rules for powers look at the form of the base and of the exponent, evaluation at their values.
Here the two are compared over exact numbers, wherever the power has a finite value. Base and
exponent may have infinite values on the way to it.

Four of the five rules keep the value. The fifth, `0 ^ a = 0`, keeps it unless the exponent has the
value zero without being the number zero, since the power then is one: `0 ^ x` becomes zero, and is
one where `x` is zero.
-/

namespace SymbolicCalculus

open SymbolicCalculus.Expr Extended

variable {lookup : String → Except EvalError Extended}

/-! ## Numbers -/

/-- A tree that the rules take for a number is that number. -/
theorem eq_number_of_isNumberEq {e : Expr Extended} {x : Extended}
    (h : e.isNumberEq x = true) : e = number x := by
  cases e with
  | number y => exact congrArg number (Extended.eq_of_beq h)
  | _ => cases h

/-! ## Values of powers and products -/

/-- A power has a value only if base and exponent have one. -/
theorem exists_of_valueWith_power {a b : Expr Extended} {z : Extended}
    (h : (power a b).valueWith lookup = .ok z) :
    ∃ x y, a.valueWith lookup = .ok x ∧ b.valueWith lookup = .ok y ∧ Extended.pow x y = z := by
  rw [valueWith] at h
  obtain ⟨x, hx, h⟩ := bind_eq_ok_iff.mp h
  obtain ⟨y, hy, h⟩ := bind_eq_ok_iff.mp h
  exact ⟨x, y, hx, hy, Except.ok.inj h⟩

/-- A product has a value only if its factors have one. -/
theorem exists_of_valueWith_product {es : List (Expr Extended)} {z : Extended}
    (h : (product es).valueWith lookup = .ok z) :
    ∃ xs, factorValues lookup es = .ok xs ∧ Scalar.product xs = z := by
  rw [valueWith] at h
  obtain ⟨xs, hxs, h⟩ := bind_eq_ok_iff.mp h
  exact ⟨xs, hxs, Except.ok.inj h⟩

/-- A call has a value only if its argument has one. -/
theorem exists_of_valueWith_call {f : Fn} {u : Expr Extended} {z : Extended}
    (h : (call f u).valueWith lookup = .ok z) :
    ∃ x, u.valueWith lookup = .ok x ∧ Extended.apply f x = z := by
  rw [valueWith] at h
  obtain ⟨x, hx, h⟩ := bind_eq_ok_iff.mp h
  exact ⟨x, hx, Except.ok.inj h⟩

/-- Factors have values only if the first one has one and the others have. -/
theorem exists_of_factorValues_cons {e : Expr Extended} {es : List (Expr Extended)}
    {zs : List Extended} (h : factorValues lookup (e :: es) = .ok zs) :
    ∃ x xs, e.valueWith lookup = .ok x ∧ factorValues lookup es = .ok xs ∧ x :: xs = zs := by
  rw [factorValues] at h
  obtain ⟨x, hx, h⟩ := bind_eq_ok_iff.mp h
  obtain ⟨xs, hxs, h⟩ := bind_eq_ok_iff.mp h
  exact ⟨x, xs, hx, hxs, Except.ok.inj h⟩

/-- A product in its simplest form has the value of the product. -/
theorem valueWith_collapse_product {es : List (Expr Extended)} {xs : List Extended}
    (h : factorValues lookup es = .ok xs) :
    (product es).collapse.valueWith lookup = .ok (Scalar.product xs) := by
  match es with
  | [] =>
    cases h
    rfl
  | [e] =>
    obtain ⟨x, xs, hx, hxs, rfl⟩ := exists_of_factorValues_cons h
    cases hxs
    show e.valueWith lookup = _
    rw [hx, product_cons, product_nil, mul_one]
  | e :: f :: es =>
    show (product (e :: f :: es)).valueWith lookup = _
    rw [valueWith, h]
    rfl

/-- Taking a logarithm out of a product leaves the other factor of its value. -/
theorem exists_of_extractLn? {es rest : List (Expr Extended)} {u : Expr Extended}
    {xs : List Extended} (h : extractLn? es = some (u, rest))
    (hxs : factorValues lookup es = .ok xs) :
    ∃ x ys, u.valueWith lookup = .ok x ∧ factorValues lookup rest = .ok ys ∧
      Scalar.product xs = ln x * Scalar.product ys := by
  -- induction on the factors; the ones before the logarithm change places with it
  induction es generalizing rest xs with
  | nil => cases h
  | cons e es ih =>
      obtain ⟨y, ys, hy, hys, rfl⟩ := exists_of_factorValues_cons hxs
      rw [extractLn?] at h
      split at h
      · next w hw =>
        obtain ⟨rfl, rfl⟩ := Prod.mk.inj (Option.some.inj h)
        unfold lnArg? at hw
        split at hw
        · cases hw
          obtain ⟨x, hx, rfl⟩ := exists_of_valueWith_call hy
          exact ⟨x, ys, hx, hys, product_cons _ _⟩
        · cases hw
      · obtain ⟨⟨w, others⟩, hw, heq⟩ := Option.map_eq_some_iff.mp h
        obtain ⟨rfl, rfl⟩ := Prod.mk.inj heq
        obtain ⟨x, zs, hx, hzs, hproduct⟩ := ih hw hys
        refine ⟨x, y :: zs, hx, ?_, ?_⟩
        · rw [factorValues, hy, hzs]
          rfl
        · rw [product_cons, product_cons, hproduct, mul_left_comm]

/-! ## Powers of `e` -/

/-- What undoes a power of `e` to a logarithm has the value of the power. -/
theorem valueWith_powerOfLn {b e' : Expr Extended} (h : b.powerOfLn? = some e') {y : Extended}
    {v : ℝ} (hy : b.valueWith lookup = .ok y)
    (hv : Extended.pow (real (Real.exp 1)) y = real v) :
    e'.valueWith lookup = .ok (real v) := by
  unfold powerOfLn? at h
  split at h
  · next u =>
    cases h
    obtain ⟨x, hx, rfl⟩ := exists_of_valueWith_call hy
    rw [hx, pow_e_ln hv]
  · next es =>
    obtain ⟨⟨u, rest⟩, hextract, heq⟩ := Option.map_eq_some_iff.mp h
    dsimp only at heq
    obtain ⟨xs, hxs, rfl⟩ := exists_of_valueWith_product hy
    obtain ⟨x, ys, hx, hys, hproduct⟩ := exists_of_extractLn? hextract hxs
    have hexponent := valueWith_collapse_product hys
    rw [hproduct] at hv
    have hpower := pow_e_ln_mul hv
    -- an exponent one is not written, and otherwise a power takes the place of the argument
    by_cases hone : (product rest).collapse.isNumberEq 1 = true
    · rw [if_pos hone] at heq
      subst heq
      rw [eq_number_of_isNumberEq hone] at hexponent
      rw [← Except.ok.inj hexponent, Extended.pow_one] at hpower
      rw [hx, hpower]
    · rw [if_neg hone] at heq
      subst heq
      rw [valueWith, hx, hexponent]
      exact congrArg Except.ok hpower
  · cases h

/-! ## The rules -/

/-- **The rules for powers keep the values of powers, but for one.** If a power has a finite value
and a rule for powers replaces it, what takes its place has the same value, unless the base is the
number zero and the exponent, which is not the number zero, has the value zero: the power then is
one, and zero takes its place. -/
theorem evaluate_power_rule {context : Context Extended} {a b e' : Expr Extended} {v : ℝ}
    (hv : evaluate context (power a b) = .ok (real v))
    (h : Rule.power.replace? (power a b) = some e') :
    evaluate context e' = .ok (real v) ∨
      (a.isNumberEq 0 = true ∧ b.isNumberEq 0 = false ∧ evaluate context b = .ok 0 ∧ v = 1 ∧
        evaluate context e' = .ok 0) := by
  obtain ⟨x, y, hx, hy, hpow⟩ := exists_of_valueWith_power hv
  -- the rules are tried in order: exponent zero, exponent one, base zero, base one, base `e`
  rw [replace?_power] at h
  split at h
  · next hb =>
    left
    obtain rfl := Option.some.inj h
    rw [eq_number_of_isNumberEq hb] at hy
    obtain rfl : 0 = y := Except.ok.inj hy
    rw [← hpow, Extended.pow_zero]
    rfl
  split at h
  · next hb =>
    left
    obtain rfl := Option.some.inj h
    rw [eq_number_of_isNumberEq hb] at hy
    obtain rfl : 1 = y := Except.ok.inj hy
    rw [← hpow, Extended.pow_one]
    exact hx
  split at h
  · next hb _ ha =>
    obtain rfl := Option.some.inj h
    rw [eq_number_of_isNumberEq ha] at hx
    obtain rfl : 0 = x := Except.ok.inj hx
    -- with base zero, the power is finite if the exponent is positive or zero, and in the second
    -- case it is one
    rcases zero_pow_eq_real hpow with rfl | ⟨rfl, rfl⟩
    · exact Or.inl rfl
    · exact Or.inr ⟨ha, Bool.eq_false_iff.mpr hb, hy, rfl, rfl⟩
  split at h
  · next ha =>
    left
    obtain rfl := Option.some.inj h
    rw [eq_number_of_isNumberEq ha] at hx
    obtain rfl : 1 = x := Except.ok.inj hx
    rw [← hpow, Extended.one_pow]
    rfl
  · left
    cases a with
    | constant c =>
        cases c with
        | e =>
            obtain rfl : real (Real.exp 1) = x := Except.ok.inj hx
            exact valueWith_powerOfLn h hy hpow
        | pi => cases h
    | _ => cases h

/-- The power `e ^ (ln x * 2)` is zero where `x` is, although the logarithm is infinite there, and
`x ^ 2` takes its place. -/
theorem evaluate_power_rule_logarithm :
    let context : Context Extended := [⟨"x", .number 0⟩]
    let b : Expr Extended := .product [.call .ln (.var "x"), .number (real 2)]
    evaluate context (.power (.constant .e) b) = .ok (real 0) ∧
      Rule.power.replace? (.power (.constant .e) b) = some (.power (.var "x") (.number (real 2))) ∧
      evaluate context (.power (.var "x") (.number (real 2))) = .ok (real 0) := by
  intro context b
  have he : 1 < Real.exp 1 := Real.one_lt_exp_iff.mpr one_pos
  have hvalue : evaluate context (.power (.constant .e) b) = .ok (real 0) := by
    have hproduct : Scalar.product [ln (real 0), real 2] = infinite true := by
      rw [ln_zero, product_cons, product_cons, product_nil, mul_one, infinite_mul_real,
        scale_of_ne_zero true two_ne_zero, decide_eq_false two_pos.not_gt]
      rfl
    show Except.ok (Extended.pow (real (Real.exp 1)) (Scalar.product [ln (real 0), real 2])) = _
    rw [hproduct, pow_infinite (Real.exp_pos 1).le he.ne', if_pos (decide_eq_true he).symm]
    rfl
  have hreplace : Rule.power.replace? (.power (.constant .e) b) =
      some (.power (.var "x") (.number (real 2))) := by
    have htwo : ¬ (number (real 2)).isNumberEq 1 = true := by
      intro h
      exact OfNat.ofNat_ne_one 2 (of_decide_eq_true h)
    rw [replace?_power]
    show some (if (number (real 2)).isNumberEq 1 then _ else _) = _
    rw [if_neg htwo]
    rfl
  refine ⟨hvalue, hreplace, ?_⟩
  rcases evaluate_power_rule hvalue hreplace with h | ⟨h, -⟩
  · exact h
  · cases h

/-- The rules for powers do not keep all values of powers: where `x` is zero, `0 ^ x` is one. -/
theorem not_forall_evaluate_power_rule :
    ¬ ∀ (context : Context Extended) (a b e' : Expr Extended) (v : ℝ),
      evaluate context (power a b) = .ok (real v) →
        Rule.power.replace? (power a b) = some e' → evaluate context e' = .ok (real v) := by
  intro h
  have hvalue : evaluate [⟨"x", .number 0⟩] (power (number 0) (var "x")) = .ok (real 1) :=
    congrArg Except.ok (Extended.pow_zero 0)
  have hreplace : Rule.power.replace? (power (number 0) (var "x")) =
      some (number (0 : Extended)) := by
    have hzero : (number (0 : Extended)).isNumberEq 0 = true := decide_eq_true rfl
    rw [replace?_power, if_pos hzero]
    rfl
  -- the two would differ, since a power that is one is made zero
  have hzero : (Except.ok 0 : Except EvalError Extended) = .ok (real 1) :=
    h [⟨"x", .number 0⟩] (number 0) (var "x") (number 0) 1 hvalue hreplace
  exact zero_ne_one (real_eq_one_iff.mp (Except.ok.inj hzero))

end SymbolicCalculus
