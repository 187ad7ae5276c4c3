import SymbolicCalculus.Proofs.Scalar.Laws
import SymbolicCalculus.Proofs.Simplify.Rewriting

/-!
# Structural equality as a relation

`Alike a b` says that `a == b`. A node is alike only to nodes of its own kind, with alike children
in the same places; one lemma for each kind says so. If `Scalar.same` is an equivalence on the
numbers then so is `Alike` on the trees.
-/

namespace SymbolicCalculus

variable {K : Type} [Scalar K]

/-- The expressions are structurally equal. -/
def Alike (a b : Expr K) : Prop := (a == b) = true

/-- The addends agree entry by entry, signs included. -/
abbrev AlikeAddends : List (Addend (Expr K)) → List (Addend (Expr K)) → Prop :=
  List.Forall₂ (AddendRel Alike)

namespace Expr

/-! ## One kind of node at a time -/

attribute [local simp] same sameAddends sameFactors

theorem alike_iff {a b : Expr K} : Alike a b ↔ same a b = true := Iff.rfl

/-- The comparison of sums compares addends place by place, signs included. -/
theorem sameAddends_iff {as bs : List (Addend (Expr K))} :
    sameAddends as bs = true ↔ AlikeAddends as bs := by
  induction as generalizing bs with
  | nil => cases bs <;> simp
  | cons a as ih =>
      cases bs with
      | nil => simp
      | cons b bs => simp [ih, AddendRel, alike_iff]

/-- The comparison of products compares factors place by place. -/
theorem sameFactors_iff {es fs : List (Expr K)} :
    sameFactors es fs = true ↔ List.Forall₂ Alike es fs := by
  induction es generalizing fs with
  | nil => cases fs <;> simp
  | cons e es ih =>
      cases fs with
      | nil => simp
      | cons f fs => simp [ih, alike_iff]

/-- Numbers are alike if they are the same number, where all values that are not numbers count as
one. -/
theorem alike_number_iff {v : K} {e : Expr K} :
    Alike (number v) e ↔ ∃ w, e = number w ∧ Scalar.same v w := by
  cases e <;> simp [alike_iff]

theorem alike_constant_iff {c : Constant} {e : Expr K} :
    Alike (constant c) e ↔ e = constant c := by
  rw [eq_comm]
  cases e <;> simp [alike_iff]

theorem alike_var_iff {name : String} {e : Expr K} : Alike (var name) e ↔ e = var name := by
  rw [eq_comm]
  cases e <;> simp [alike_iff]

theorem alike_sum_iff {as : List (Addend (Expr K))} {e : Expr K} :
    Alike (sum as) e ↔ ∃ bs, e = sum bs ∧ AlikeAddends as bs := by
  cases e <;> simp [alike_iff, sameAddends_iff]

theorem alike_product_iff {es : List (Expr K)} {e : Expr K} :
    Alike (product es) e ↔ ∃ fs, e = product fs ∧ List.Forall₂ Alike es fs := by
  cases e <;> simp [alike_iff, sameFactors_iff]

theorem alike_quotient_iff {a b e : Expr K} :
    Alike (quotient a b) e ↔ ∃ c d, e = quotient c d ∧ Alike a c ∧ Alike b d := by
  cases e <;> simp [alike_iff]

theorem alike_power_iff {a b e : Expr K} :
    Alike (power a b) e ↔ ∃ c d, e = power c d ∧ Alike a c ∧ Alike b d := by
  cases e <;> simp [alike_iff]

/-- Only a call of the same function is alike to a call. -/
theorem alike_call_iff {f : Fn} {a e : Expr K} :
    Alike (call f a) e ↔ ∃ b, e = call f b ∧ Alike a b := by
  cases e with
  -- the functions are compared as well, so `g` has to be identified with `f`
  | call g b =>
      simp only [alike_iff, same, Bool.and_eq_true, beq_iff_eq, call.injEq]
      grind
  | _ => simp [alike_iff]

end Expr

/-! ## Kinds of nodes -/

namespace Alike

variable {a b : Expr K}

theorem isNumber_eq (h : Alike a b) : a.isNumber = b.isNumber := by
  cases a <;> cases b <;> first | rfl | cases h

theorem isSum_eq (h : Alike a b) : a.isSum = b.isSum := by
  cases a <;> cases b <;> first | rfl | cases h

theorem isProduct_eq (h : Alike a b) : a.isProduct = b.isProduct := by
  cases a <;> cases b <;> first | rfl | cases h

theorem isQuotient_eq (h : Alike a b) : a.isQuotient = b.isQuotient := by
  cases a <;> cases b <;> first | rfl | cases h

end Alike

/-! ## An equivalence -/

open SymbolicCalculus.Expr Scalar

namespace Alike

mutual

/-- Structural equality is reflexive, undefined numbers included. -/
theorem refl [UnitLaws K] (e : Expr K) : Alike e e := by
  match e with
  | .number v => exact alike_number_iff.mpr ⟨v, rfl, UnitLaws.same_refl v⟩
  | .constant c => exact alike_constant_iff.mpr rfl
  | .var name => exact alike_var_iff.mpr rfl
  | .sum addends => exact alike_sum_iff.mpr ⟨addends, rfl, refl_addends addends⟩
  | .product factors => exact alike_product_iff.mpr ⟨factors, rfl, refl_factors factors⟩
  | .quotient a b => exact alike_quotient_iff.mpr ⟨a, b, rfl, refl a, refl b⟩
  | .power a b => exact alike_power_iff.mpr ⟨a, b, rfl, refl a, refl b⟩
  | .call f a => exact alike_call_iff.mpr ⟨a, rfl, refl a⟩

theorem refl_addends [UnitLaws K] (as : List (Addend (Expr K))) : AlikeAddends as as := by
  match as with
  | [] => exact .nil
  | ⟨e, s⟩ :: as => exact .cons ⟨refl e, rfl⟩ (refl_addends as)

theorem refl_factors [UnitLaws K] (es : List (Expr K)) : List.Forall₂ Alike es es := by
  match es with
  | [] => exact .nil
  | e :: es => exact .cons (refl e) (refl_factors es)

end

mutual

/-- Structural equality is symmetric. -/
theorem symm [UnitLaws K] {a b : Expr K} (h : Alike a b) : Alike b a := by
  -- the kind of the first tree decides what the other one looks like
  match a with
  | .number v =>
    obtain ⟨w, rfl, hvw⟩ := alike_number_iff.mp h
    exact alike_number_iff.mpr ⟨v, rfl, UnitLaws.same_symm hvw⟩
  | .constant c => exact alike_constant_iff.mp h ▸ refl (.constant c)
  | .var name => exact alike_var_iff.mp h ▸ refl (.var name)
  | .sum as =>
    obtain ⟨bs, rfl, hab⟩ := alike_sum_iff.mp h
    exact alike_sum_iff.mpr ⟨as, rfl, symm_addends hab⟩
  | .product es =>
    obtain ⟨fs, rfl, hef⟩ := alike_product_iff.mp h
    exact alike_product_iff.mpr ⟨es, rfl, symm_factors hef⟩
  | .quotient c d =>
    obtain ⟨c', d', rfl, hc, hd⟩ := alike_quotient_iff.mp h
    exact alike_quotient_iff.mpr ⟨c, d, rfl, symm hc, symm hd⟩
  | .power c d =>
    obtain ⟨c', d', rfl, hc, hd⟩ := alike_power_iff.mp h
    exact alike_power_iff.mpr ⟨c, d, rfl, symm hc, symm hd⟩
  | .call f c =>
    obtain ⟨c', rfl, hc⟩ := alike_call_iff.mp h
    exact alike_call_iff.mpr ⟨c, rfl, symm hc⟩

theorem symm_addends [UnitLaws K] {as bs : List (Addend (Expr K))} (h : AlikeAddends as bs) :
    AlikeAddends bs as := by
  match as, bs, h with
  | [], [], .nil => exact .nil
  | ⟨_, _⟩ :: _, _ :: _, .cons hab h => exact .cons ⟨symm hab.1, hab.2.symm⟩ (symm_addends h)

theorem symm_factors [UnitLaws K] {es fs : List (Expr K)} (h : List.Forall₂ Alike es fs) :
    List.Forall₂ Alike fs es := by
  match es, fs, h with
  | [], [], .nil => exact .nil
  | _ :: _, _ :: _, .cons hef h => exact .cons (symm hef) (symm_factors h)

end

mutual

/-- Structural equality is transitive. -/
theorem trans [UnitLaws K] {a b c : Expr K} (hab : Alike a b) (hbc : Alike b c) :
    Alike a c := by
  match a with
  | .number u =>
    obtain ⟨v, rfl, huv⟩ := alike_number_iff.mp hab
    obtain ⟨w, rfl, hvw⟩ := alike_number_iff.mp hbc
    exact alike_number_iff.mpr ⟨w, rfl, UnitLaws.same_trans huv hvw⟩
  | .constant d => exact alike_constant_iff.mp hab ▸ hbc
  | .var name => exact alike_var_iff.mp hab ▸ hbc
  | .sum as =>
    obtain ⟨bs, rfl, has⟩ := alike_sum_iff.mp hab
    obtain ⟨cs, rfl, hbs⟩ := alike_sum_iff.mp hbc
    exact alike_sum_iff.mpr ⟨cs, rfl, trans_addends has hbs⟩
  | .product es =>
    obtain ⟨fs, rfl, hes⟩ := alike_product_iff.mp hab
    obtain ⟨gs, rfl, hfs⟩ := alike_product_iff.mp hbc
    exact alike_product_iff.mpr ⟨gs, rfl, trans_factors hes hfs⟩
  | .quotient d e =>
    obtain ⟨d', e', rfl, hd, he⟩ := alike_quotient_iff.mp hab
    obtain ⟨d'', e'', rfl, hd', he'⟩ := alike_quotient_iff.mp hbc
    exact alike_quotient_iff.mpr ⟨d'', e'', rfl, trans hd hd', trans he he'⟩
  | .power d e =>
    obtain ⟨d', e', rfl, hd, he⟩ := alike_power_iff.mp hab
    obtain ⟨d'', e'', rfl, hd', he'⟩ := alike_power_iff.mp hbc
    exact alike_power_iff.mpr ⟨d'', e'', rfl, trans hd hd', trans he he'⟩
  | .call f d =>
    obtain ⟨d', rfl, hd⟩ := alike_call_iff.mp hab
    obtain ⟨d'', rfl, hd'⟩ := alike_call_iff.mp hbc
    exact alike_call_iff.mpr ⟨d'', rfl, trans hd hd'⟩

theorem trans_addends [UnitLaws K] {as bs cs : List (Addend (Expr K))} (hab : AlikeAddends as bs)
    (hbc : AlikeAddends bs cs) : AlikeAddends as cs := by
  match as, bs, cs, hab, hbc with
  | [], [], [], .nil, .nil => exact .nil
  | ⟨_, _⟩ :: _, _ :: _, _ :: _, .cons hab has, .cons hbc hbs =>
    exact .cons ⟨trans hab.1 hbc.1, hab.2.trans hbc.2⟩ (trans_addends has hbs)

theorem trans_factors [UnitLaws K] {es fs gs : List (Expr K)} (hef : List.Forall₂ Alike es fs)
    (hfg : List.Forall₂ Alike fs gs) : List.Forall₂ Alike es gs := by
  match es, fs, gs, hef, hfg with
  | [], [], [], .nil, .nil => exact .nil
  | _ :: _, _ :: _, _ :: _, .cons hef hes, .cons hfg hfs =>
    exact .cons (trans hef hfg) (trans_factors hes hfs)

end

end Alike

instance [UnitLaws K] : EquivBEq (Expr K) where
  rfl := Alike.refl _
  symm := Alike.symm
  trans := Alike.trans

end SymbolicCalculus
