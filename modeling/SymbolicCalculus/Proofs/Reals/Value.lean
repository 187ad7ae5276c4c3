import SymbolicCalculus.Proofs.Reals.Scalar
import SymbolicCalculus.Evaluation.Evaluate
import SymbolicCalculus.Expr.Equality
import SymbolicCalculus.Expr.Normal

/-!
# The real value of an expression

`Expr.value` reads an expression as a real number when real numbers are assigned to its variables.
It is total, as real division and the real functions are, and `Expr.Defined` says when nothing in
the expression leaves its domain. `valueWith_eq_value` ties the reading to evaluation: over the
reals, evaluation succeeds and gives this value.

What only rearranges lists keeps the value and stays defined: `normalize` and `collapse`, and the
views of a tree as addends or as factors.
-/

namespace SymbolicCalculus

/-! ## Totals and products of real numbers -/

namespace Addend

/-- The loop of a sum adds the total of its addends to whatever it starts with. -/
theorem foldl_signed (as : List (Addend ℝ)) (start : ℝ) :
    as.foldl (fun sum a => if a.subtract then sum - a.expr else sum + a.expr) start =
      start + total as := by
  unfold total
  induction as generalizing start with
  | nil => simp
  | cons a as ih =>
      simp only [List.foldl_cons]
      rw [ih, ih (if a.subtract then _ else _)]
      cases a.subtract <;> simp <;> ring

@[simp] theorem total_nil : total ([] : List (Addend ℝ)) = 0 := rfl

@[simp] theorem total_cons (v : ℝ) (s : Bool) (as : List (Addend ℝ)) :
    total (⟨v, s⟩ :: as) = (if s then -v else v) + total as := by
  rw [total, List.foldl_cons, foldl_signed]
  cases s <;> simp

end Addend

namespace Scalar

@[simp] theorem product_nil : product ([] : List ℝ) = 1 := rfl

@[simp] theorem product_cons (v : ℝ) (vs : List ℝ) :
    product (v :: vs) = v * product vs := by
  have hprod : ∀ ws : List ℝ, product ws = ws.prod := fun ws => List.prod_eq_foldl.symm
  rw [hprod, hprod, List.prod_cons]

end Scalar

namespace Expr

/-! ## Value and definedness -/

section

variable (σ : String → ℝ)

mutual

/-- The real value of an expression whose variables have the values `σ`. -/
noncomputable def value : Expr ℝ → ℝ
  | number v => v
  | constant c => Scalar.constant c
  | var name => σ name
  | sum addends => addendsValue addends
  | product factors => factorsValue factors
  | quotient a b => value a / value b
  | power a b => value a ^ value b
  | call f a => Scalar.apply f (value a)

/-- The value of a list of addends. -/
noncomputable def addendsValue : List (Addend (Expr ℝ)) → ℝ
  | [] => 0
  | ⟨e, s⟩ :: as => (if s then -value e else value e) + addendsValue as

/-- The value of a list of factors. -/
noncomputable def factorsValue : List (Expr ℝ) → ℝ
  | [] => 1
  | e :: es => value e * factorsValue es

end

mutual

/-- Every divisor is other than zero, and every power and every call is inside its domain. -/
def Defined : Expr ℝ → Prop
  | number _ => True
  | constant _ => True
  | var _ => True
  | sum addends => AddendsDefined addends
  | product factors => FactorsDefined factors
  | quotient a b => Defined a ∧ Defined b ∧ b.value σ ≠ 0
  | power a b => Defined a ∧ Defined b ∧ PowDomain (a.value σ) (b.value σ)
  | call f a => Defined a ∧ f.Domain (a.value σ)

/-- All addends of a list are defined. -/
def AddendsDefined : List (Addend (Expr ℝ)) → Prop
  | [] => True
  | ⟨e, _⟩ :: as => Defined e ∧ AddendsDefined as

/-- All factors of a list are defined. -/
def FactorsDefined : List (Expr ℝ) → Prop
  | [] => True
  | e :: es => Defined e ∧ FactorsDefined es

end

end

variable {σ : String → ℝ}

attribute [simp] value addendsValue factorsValue Defined AddendsDefined FactorsDefined

/-! ## Lists of addends and of factors -/

@[simp] theorem addendsValue_append (as bs : List (Addend (Expr ℝ))) :
    addendsValue σ (as ++ bs) = addendsValue σ as + addendsValue σ bs := by
  induction as with
  | nil => simp
  | cons a as ih => simp [ih, add_assoc]

@[simp] theorem addendsDefined_append (as bs : List (Addend (Expr ℝ))) :
    AddendsDefined σ (as ++ bs) ↔ AddendsDefined σ as ∧ AddendsDefined σ bs := by
  induction as with
  | nil => simp
  | cons a as ih => simp [ih, and_assoc]

@[simp] theorem factorsValue_append (es fs : List (Expr ℝ)) :
    factorsValue σ (es ++ fs) = factorsValue σ es * factorsValue σ fs := by
  induction es with
  | nil => simp
  | cons e es ih => simp [ih, mul_assoc]

@[simp] theorem factorsDefined_append (es fs : List (Expr ℝ)) :
    FactorsDefined σ (es ++ fs) ↔ FactorsDefined σ es ∧ FactorsDefined σ fs := by
  induction es with
  | nil => simp
  | cons e es ih => simp [ih, and_assoc]

/-- Turning the signs of all addends turns the sign of the sum. -/
@[simp] theorem addendsValue_negateIf (s : Bool) (as : List (Addend (Expr ℝ))) :
    addendsValue σ (as.map (Addend.negateIf s)) =
      if s then -addendsValue σ as else addendsValue σ as := by
  cases s with
  | false =>
      simp only [Bool.false_eq_true, if_false]
      congr 1
      exact List.map_id' as
  | true =>
      simp only [if_true]
      induction as with
      | nil => simp
      | cons a as ih =>
          obtain ⟨e, t⟩ := a
          cases t <;> simp [Addend.negateIf, Addend.negate] at ih ⊢ <;> rw [ih] <;> ring

/-- Whether addends are defined does not depend on their signs. -/
@[simp] theorem addendsDefined_negateIf (s : Bool) (as : List (Addend (Expr ℝ))) :
    AddendsDefined σ (as.map (Addend.negateIf s)) ↔ AddendsDefined σ as := by
  induction as with
  | nil => simp
  | cons a as ih => cases s <;> simp_all [Addend.negateIf, Addend.negate]

@[simp] theorem addendsValue_asAddends (s : Bool) (e : Expr ℝ) :
    addendsValue σ (e.asAddends s) = if s then -e.value σ else e.value σ := by
  cases e <;> simp [asAddends]

@[simp] theorem addendsDefined_asAddends (s : Bool) (e : Expr ℝ) :
    AddendsDefined σ (e.asAddends s) ↔ e.Defined σ := by
  cases e <;> simp [asAddends]

@[simp] theorem factorsValue_asFactors (e : Expr ℝ) :
    factorsValue σ e.asFactors = e.value σ := by
  cases e <;> simp [asFactors]

@[simp] theorem factorsDefined_asFactors (e : Expr ℝ) :
    FactorsDefined σ e.asFactors ↔ e.Defined σ := by
  cases e <;> simp [asFactors]

/-! ## Evaluation over the reals -/

/-- The loop of a sum computes what `addendsValue` says. -/
theorem total_map_value (as : List (Addend (Expr ℝ))) :
    Addend.total (as.map (Addend.map (value σ))) = addendsValue σ as := by
  induction as with
  | nil => rfl
  | cons a as ih => simp [Addend.map, ih]

/-- The loop of a product computes what `factorsValue` says. -/
theorem product_map_value (es : List (Expr ℝ)) :
    Scalar.product (es.map (value σ)) = factorsValue σ es := by
  induction es with
  | nil => rfl
  | cons e es ih => simp [ih]

mutual

/-- Over the reals evaluation succeeds, and what it gives is the value of the tree. -/
theorem valueWith_eq_value (e : Expr ℝ) :
    e.valueWith (fun name => .ok (σ name)) = .ok (e.value σ) := by
  cases e with
  | number v => rfl
  | constant c => rfl
  | var name => rfl
  | sum addends =>
      rw [valueWith, addendValues_eq_map addends]
      exact congrArg Except.ok (total_map_value addends)
  | product factors =>
      rw [valueWith, factorValues_eq_map factors]
      exact congrArg Except.ok (product_map_value factors)
  | quotient a b => rw [valueWith, valueWith_eq_value a, valueWith_eq_value b]; rfl
  | power a b => rw [valueWith, valueWith_eq_value a, valueWith_eq_value b]; rfl
  | call f a => rw [valueWith, valueWith_eq_value a]; rfl

/-- All addends have values, in their order. -/
theorem addendValues_eq_map (as : List (Addend (Expr ℝ))) :
    addendValues (fun name => .ok (σ name)) as = .ok (as.map (Addend.map (value σ))) := by
  match as with
  | [] => rfl
  | ⟨e, s⟩ :: as => rw [addendValues, valueWith_eq_value e, addendValues_eq_map as]; rfl

/-- All factors have values, in their order. -/
theorem factorValues_eq_map (es : List (Expr ℝ)) :
    factorValues (fun name => .ok (σ name)) es = .ok (es.map (value σ)) := by
  match es with
  | [] => rfl
  | e :: es => rw [factorValues, valueWith_eq_value e, factorValues_eq_map es]; rfl

end

/-! ## Normal form and collapse -/

mutual

/-- The normal form only merges sums into sums and products into products, which keeps the value. -/
theorem value_normalize (e : Expr ℝ) : e.normalize.value σ = e.value σ := by
  cases e with
  | number v => rfl
  | constant c => rfl
  | var name => rfl
  | sum addends => exact addendsValue_normalizeAddends addends
  | product factors => exact factorsValue_normalizeFactors factors
  | quotient a b => simp only [normalize, value, value_normalize a, value_normalize b]
  | power a b => simp only [normalize, value, value_normalize a, value_normalize b]
  | call f a => simp only [normalize, value, value_normalize a]

/-- Merging the addends of a sum that is an addend keeps the total. -/
theorem addendsValue_normalizeAddends (as : List (Addend (Expr ℝ))) :
    addendsValue σ (normalizeAddends as) = addendsValue σ as := by
  match as with
  | [] => rfl
  | ⟨e, s⟩ :: as =>
    rw [normalizeAddends, addendsValue_append, addendsValue_asAddends, value_normalize e,
      addendsValue_normalizeAddends as, addendsValue]

/-- Merging the factors of a product that is a factor keeps the product. -/
theorem factorsValue_normalizeFactors (es : List (Expr ℝ)) :
    factorsValue σ (normalizeFactors es) = factorsValue σ es := by
  match es with
  | [] => rfl
  | e :: es =>
    rw [normalizeFactors, factorsValue_append, factorsValue_asFactors, value_normalize e,
      factorsValue_normalizeFactors es, factorsValue]

end

mutual

/-- The normal form has the same divisors, powers and calls, at the same values. -/
theorem defined_normalize (e : Expr ℝ) : e.normalize.Defined σ ↔ e.Defined σ := by
  cases e with
  | number v => rfl
  | constant c => rfl
  | var name => rfl
  | sum addends => exact addendsDefined_normalizeAddends addends
  | product factors => exact factorsDefined_normalizeFactors factors
  | quotient a b =>
      simp only [normalize, Defined, defined_normalize a, defined_normalize b, value_normalize b]
  | power a b =>
      simp only [normalize, Defined, defined_normalize a, defined_normalize b, value_normalize a,
        value_normalize b]
  | call f a => simp only [normalize, Defined, defined_normalize a, value_normalize a]

/-- The addends of a sum that is an addend are defined where the sum is. -/
theorem addendsDefined_normalizeAddends (as : List (Addend (Expr ℝ))) :
    AddendsDefined σ (normalizeAddends as) ↔ AddendsDefined σ as := by
  match as with
  | [] => rfl
  | ⟨e, s⟩ :: as =>
    rw [normalizeAddends, addendsDefined_append, addendsDefined_asAddends, defined_normalize e,
      addendsDefined_normalizeAddends as, AddendsDefined]

/-- The factors of a product that is a factor are defined where the product is. -/
theorem factorsDefined_normalizeFactors (es : List (Expr ℝ)) :
    FactorsDefined σ (normalizeFactors es) ↔ FactorsDefined σ es := by
  match es with
  | [] => rfl
  | e :: es =>
    rw [normalizeFactors, factorsDefined_append, factorsDefined_asFactors, defined_normalize e,
      factorsDefined_normalizeFactors es, FactorsDefined]

end

/-- A sum or product without entries is worth zero or one, and one with a single entry is worth this
entry. -/
theorem value_collapse (e : Expr ℝ) : e.collapse.value σ = e.value σ := by
  unfold collapse
  split <;> simp

theorem defined_collapse (e : Expr ℝ) : e.collapse.Defined σ ↔ e.Defined σ := by
  unfold collapse
  split <;> simp

/-! ## Structural equality -/

mutual

/-- Over the reals structurally equal expressions are the same, since no scalar is undefined. -/
theorem eq_of_same (a b : Expr ℝ) (h : same a b = true) : a = b := by
  match a, b with
  | number v, number w => exact congrArg number (Reals.same_iff.mp h)
  | constant c, constant d => exact congrArg constant (eq_of_beq h)
  | var x, var y => exact congrArg var (eq_of_beq h)
  | sum as, sum bs => exact congrArg sum (eq_of_sameAddends as bs h)
  | product as, product bs => exact congrArg product (eq_of_sameFactors as bs h)
  | quotient a b, quotient c d =>
    obtain ⟨hac, hbd⟩ := Bool.and_eq_true_iff.mp h
    rw [eq_of_same a c hac, eq_of_same b d hbd]
  | power a b, power c d =>
    obtain ⟨hac, hbd⟩ := Bool.and_eq_true_iff.mp h
    rw [eq_of_same a c hac, eq_of_same b d hbd]
  | call f a, call g b =>
    obtain ⟨hfg, hab⟩ := Bool.and_eq_true_iff.mp h
    rw [eq_of_beq hfg, eq_of_same a b hab]

/-- Signs are compared as well, so equal lists of addends are the same. -/
theorem eq_of_sameAddends (as bs : List (Addend (Expr ℝ))) (h : sameAddends as bs = true) :
    as = bs := by
  match as, bs with
  | [], [] => rfl
  | ⟨a, s⟩ :: as, ⟨b, t⟩ :: bs =>
    obtain ⟨hst, has⟩ := Bool.and_eq_true_iff.mp h
    obtain ⟨hab, hst⟩ := Bool.and_eq_true_iff.mp hst
    rw [eq_of_same a b hab, eq_of_beq hst, eq_of_sameAddends as bs has]

theorem eq_of_sameFactors (as bs : List (Expr ℝ)) (h : sameFactors as bs = true) : as = bs := by
  match as, bs with
  | [], [] => rfl
  | a :: as, b :: bs =>
    obtain ⟨hab, has⟩ := Bool.and_eq_true_iff.mp h
    rw [eq_of_same a b hab, eq_of_sameFactors as bs has]

end

theorem eq_of_beq_expr {a b : Expr ℝ} (h : (a == b) = true) : a = b := eq_of_same a b h

end Expr

end SymbolicCalculus
