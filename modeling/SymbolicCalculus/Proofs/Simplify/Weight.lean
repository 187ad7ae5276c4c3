import SymbolicCalculus.Proofs.Expr.Alike
import SymbolicCalculus.Proofs.Expr.Numbers

/-!
# The weight of an expression

Passes come to an end because every rule takes weight off the tree. Nodes do not count alike, since
rules may add nodes: `x * x` becomes `x ^ 2`, `-x` becomes `-1 * x`, `x ^ a / x ^ b` becomes
`x ^ (a - b)`, and a number below the bar goes above it, where it may need a product of its own. So

* an entry of a product is charged for being a factor, which pays for the power or the sum of
  exponents that it is merged into, and once more if it is itself a product or a quotient;
* what is subtracted is charged sixteenfold, which pays for a factor of minus one;
* what is below a bar is charged thirty-two-fold, which pays for what is subtracted from an exponent
  above the bar;
* a quotient is charged for its bar more than any product that putting fractions together makes.

Two charges are for things that are moved but not removed: a list that does not end in a number,
and a number in a sum whose sign is not where it belongs.
-/

namespace SymbolicCalculus

variable {K : Type}

namespace Expr

/-- The expression is a product or a quotient. -/
def isFraction : Expr K → Bool
  | product _ => true
  | quotient _ _ => true
  | _ => false

/-- The charge for a list whose last entry, if there is one, is given. -/
def endCharge (last : Option (Expr K)) : Nat := if last.any isNumber then 0 else 1

/-- What an expression of the given weight is charged as a factor. -/
def factorCharge (e : Expr K) (weight : Nat) : Nat :=
  weight + if e.isFraction then 18 else 16

variable [Scalar K]

/-- The sign of a number in a sum is where it belongs: the number itself is not negative. -/
def isSettled (v : K) (subtract : Bool) : Bool :=
  if subtract then Scalar.isNeg (-v) else !Scalar.isNeg v

/-- What an expression of the given weight is charged as an entry of a sum. -/
def addendCharge (subtract : Bool) (e : Expr K) (weight : Nat) : Nat :=
  match e with
  | number v => if isSettled v subtract then 2 else 3
  | _ => if subtract then 16 * (weight + 1) else weight + 1

mutual

/-- The weight of an expression. -/
def weight : Expr K → Nat
  | number _ => 1
  | constant _ => 3
  | var _ => 3
  | sum addends => addendsWeight addends + 2 + endCharge (addends.getLast?.map Addend.expr)
  | product factors => factorsWeight factors + 2 + endCharge factors.getLast?
  | quotient a b => 2000 + weight a + 32 * weight b
  | power a b => 4 + weight a + weight b
  | call _ a => 2 + weight a

/-- The weight of the entries of a sum. -/
def addendsWeight : List (Addend (Expr K)) → Nat
  | [] => 0
  | ⟨e, s⟩ :: as => addendCharge s e (weight e) + addendsWeight as

/-- The weight of the factors of a product. -/
def factorsWeight : List (Expr K) → Nat
  | [] => 0
  | e :: es => factorCharge e (weight e) + factorsWeight es

end

/-- The weight of an expression as a factor. -/
def factorWeight (e : Expr K) : Nat := factorCharge e e.weight

/-- The weight of an expression as an entry of a sum. -/
def addendWeight (a : Addend (Expr K)) : Nat := addendCharge a.subtract a.expr a.expr.weight

/-! ## Lists -/

@[simp] theorem addendsWeight_nil : addendsWeight ([] : List (Addend (Expr K))) = 0 := rfl

@[simp] theorem addendsWeight_cons (a : Addend (Expr K)) (as : List (Addend (Expr K))) :
    addendsWeight (a :: as) = addendWeight a + addendsWeight as := rfl

@[simp] theorem factorsWeight_nil : factorsWeight ([] : List (Expr K)) = 0 := rfl

@[simp] theorem factorsWeight_cons (e : Expr K) (es : List (Expr K)) :
    factorsWeight (e :: es) = e.factorWeight + factorsWeight es := rfl

@[simp] theorem addendsWeight_append (as bs : List (Addend (Expr K))) :
    addendsWeight (as ++ bs) = addendsWeight as + addendsWeight bs := by
  induction as with
  | nil => simp
  | cons a as ih => simp [ih, Nat.add_assoc]

@[simp] theorem factorsWeight_append (es fs : List (Expr K)) :
    factorsWeight (es ++ fs) = factorsWeight es + factorsWeight fs := by
  induction es with
  | nil => simp
  | cons e es ih => simp [ih, Nat.add_assoc]

omit [Scalar K] in
theorem endCharge_le_one (last : Option (Expr K)) : endCharge last ≤ 1 := by
  unfold endCharge
  split <;> omega

omit [Scalar K] in
@[simp] theorem endCharge_number (v : K) : endCharge (some (number v)) = 0 := rfl

/-! ## Bounds -/

@[simp] theorem factorWeight_number (v : K) : (number v).factorWeight = 17 := rfl

/-- Being a factor costs eighteen units at most, whatever kind the factor is of. -/
theorem factorWeight_le (e : Expr K) : e.factorWeight ≤ e.weight + 18 := by
  unfold factorWeight factorCharge
  split <;> omega

/-- Being a factor costs sixteen units at least. They pay for a power or for an exponent that is
made of the factor. -/
theorem le_factorWeight (e : Expr K) : e.weight + 16 ≤ e.factorWeight := by
  unfold factorWeight factorCharge
  split <;> omega

theorem factorWeight_of_not_isFraction {e : Expr K} (h : e.isFraction = false) :
    e.factorWeight = e.weight + 16 := by
  simp [factorWeight, factorCharge, h]

theorem factorWeight_of_isFraction {e : Expr K} (h : e.isFraction = true) :
    e.factorWeight = e.weight + 18 := by
  simp [factorWeight, factorCharge, h]

/-- No expression is for free, so what stands below a bar or is subtracted always costs its
multiple. -/
theorem one_le_weight (e : Expr K) : 1 ≤ e.weight := by
  cases e <;> simp only [weight] <;> omega

theorem addendWeight_number (v : K) (s : Bool) :
    addendWeight ⟨number v, s⟩ = if isSettled v s then 2 else 3 := rfl

theorem two_le_addendWeight_number (v : K) (s : Bool) : 2 ≤ addendWeight ⟨number v, s⟩ := by
  rw [addendWeight_number]
  split <;> omega

theorem addendWeight_number_le (v : K) (s : Bool) : addendWeight ⟨number v, s⟩ ≤ 3 := by
  rw [addendWeight_number]
  split <;> omega

/-- An entry that is not a number is charged for its weight alone, whatever kind it is of. -/
theorem addendWeight_of_not_isNumber {e : Expr K} (h : e.isNumber = false) (s : Bool) :
    addendWeight ⟨e, s⟩ = if s then 16 * (e.weight + 1) else e.weight + 1 := by
  cases e <;> first | rfl | cases h

/-- No entry of a sum costs less than a number whose sign is where it belongs. -/
theorem two_le_addendWeight (a : Addend (Expr K)) : 2 ≤ addendWeight a := by
  obtain ⟨e, s⟩ := a
  have := one_le_weight e
  -- the charge looks at numbers, so they are told apart first
  rcases eq_number_or e with ⟨v, rfl⟩ | ⟨h, _⟩
  · exact two_le_addendWeight_number v s
  · rw [addendWeight_of_not_isNumber h]
    split <;> omega

/-- Only numbers weigh less than three. -/
theorem three_le_weight {e : Expr K} (h : e.isNumber = false) : 3 ≤ e.weight := by
  cases e with
  | number v => cases h
  | constant | var => simp [weight]
  | sum as =>
      -- an empty list is charged for not ending in a number
      cases as with
      | nil => simp [weight, endCharge]
      | cons a as =>
          have := two_le_addendWeight a
          simp only [weight, addendsWeight_cons]
          omega
  | product es =>
      cases es with
      | nil => simp [weight, endCharge]
      | cons e es =>
          have := le_factorWeight e
          simp only [weight, factorsWeight_cons]
          omega
  | quotient a b | power a b =>
      have := one_le_weight a
      have := one_le_weight b
      simp only [weight]
      omega
  | call f a =>
      have := one_le_weight a
      simp only [weight]
      omega

/-! ## Taking weight off -/

/-- The first expression weighs less than the second, also as a factor. -/
def Lighter (a b : Expr K) : Prop := a.weight < b.weight ∧ a.factorWeight < b.factorWeight

/-- The second expression takes the place of the first: it is the same, or it weighs less. -/
def Lightens (a b : Expr K) : Prop := b = a ∨ Lighter b a

namespace Lighter

variable {a b c : Expr K}

/-- Both orders are strict orders on natural numbers, and so is their conjunction. -/
theorem trans (hab : Lighter a b) (hbc : Lighter b c) : Lighter a c :=
  ⟨Nat.lt_trans hab.1 hbc.1, Nat.lt_trans hab.2 hbc.2⟩

/-- This is what makes every chain of lighter trees come to an end. -/
theorem not_self (h : Lighter a a) : False := Nat.lt_irrefl _ h.1

/-- A product or a quotient is charged as a factor already. -/
theorem of_isFraction (hb : b.isFraction = true) (h : a.weight < b.weight) : Lighter a b := by
  have := factorWeight_le a
  rw [Lighter, factorWeight_of_isFraction hb]
  omega

/-- What is neither a product nor a quotient is charged least as a factor, so its weight decides. -/
theorem of_not_isFraction (ha : a.isFraction = false) (h : a.weight < b.weight) :
    Lighter a b := by
  have := le_factorWeight b
  rw [Lighter, factorWeight_of_not_isFraction ha]
  omega

/-- Three units less are enough, whatever the expressions are. -/
theorem of_add_three_le (h : a.weight + 3 ≤ b.weight) : Lighter a b := by
  have := factorWeight_le a
  have := le_factorWeight b
  rw [Lighter]
  omega

/-- Nothing is lighter than a number. -/
theorem isNumber_eq_false (h : Lighter a b) : b.isNumber = false := by
  cases b with
  | number v =>
      have := one_le_weight a
      exact absurd h.1 (by simp only [weight]; omega)
  | _ => rfl

theorem number {e : Expr K} (h : e.isNumber = false) (v : K) : Lighter (.number v) e := by
  have := three_le_weight h
  -- a number weighs one unit, and everything else three or more
  exact of_not_isFraction rfl (by simp only [weight]; omega)

/-- An entry of a sum gets cheaper with its expression, on either side of the sign. -/
theorem addend (h : Lighter a b) (s : Bool) : addendWeight ⟨a, s⟩ < addendWeight ⟨b, s⟩ := by
  have hb := h.isNumber_eq_false
  have hweight := h.1
  have := three_le_weight hb
  rw [addendWeight_of_not_isNumber hb]
  -- the lighter expression may be a number, whose charge depends on its sign
  rcases eq_number_or a with ⟨v, rfl⟩ | ⟨ha, _⟩
  · have := addendWeight_number_le v s
    split <;> omega
  · rw [addendWeight_of_not_isNumber ha]
    split <;> omega

end Lighter

namespace Lightens

theorem refl (a : Expr K) : Lightens a a := Or.inl rfl

theorem trans {a b c : Expr K} (hab : Lightens a b) (hbc : Lightens b c) : Lightens a c := by
  rcases hab with rfl | hab
  · exact hbc
  · rcases hbc with rfl | hbc
    · exact Or.inr hab
    · exact Or.inr (hbc.trans hab)

/-- The charge for the end of a list does not rise: a number is lightened to itself only. -/
theorem endCharge_le {a b : Expr K} (h : Lightens a b) :
    endCharge (some b) ≤ endCharge (some a) := by
  rcases h with rfl | h
  · exact Nat.le_refl _
  · rw [endCharge, endCharge]
    simp [h.isNumber_eq_false]
    split <;> omega

/-- Entries that are lightened one by one stay what they are or cost less together. -/
theorem addends {as bs : List (Addend (Expr K))}
    (h : List.Forall₂ (AddendRel Lightens) as bs) :
    bs = as ∨ addendsWeight bs < addendsWeight as := by
  induction h with
  | nil => exact Or.inl rfl
  | @cons a b as bs hab h ih =>
      obtain ⟨e, s⟩ := a
      obtain ⟨f, t⟩ := b
      obtain ⟨hef, rfl⟩ : Lightens e f ∧ s = t := hab
      simp only [addendsWeight_cons]
      -- the first entry and the others, each the same or lighter
      rcases hef with rfl | hef <;> rcases ih with rfl | ih
      · exact Or.inl rfl
      · exact Or.inr (by omega)
      · have := hef.addend s
        exact Or.inr (by omega)
      · have := hef.addend s
        exact Or.inr (by omega)

/-- Factors that are lightened one by one stay what they are or cost less together. -/
theorem factors {es fs : List (Expr K)} (h : List.Forall₂ Lightens es fs) :
    fs = es ∨ factorsWeight fs < factorsWeight es := by
  induction h with
  | nil => exact Or.inl rfl
  | @cons e f es fs hef h ih =>
      simp only [factorsWeight_cons]
      rcases hef with rfl | hef <;> rcases ih with rfl | ih
      · exact Or.inl rfl
      · exact Or.inr (by omega)
      · have := hef.2
        exact Or.inr (by omega)
      · have := hef.2
        exact Or.inr (by omega)

/-- Only the last entry decides about the charge for the end of a list. -/
theorem endCharge_getLast?_le {es fs : List (Expr K)} (h : List.Forall₂ Lightens es fs) :
    endCharge fs.getLast? ≤ endCharge es.getLast? := by
  induction h with
  | nil => exact Nat.le_refl _
  | cons hef h ih =>
      cases h with
      | nil => simpa using hef.endCharge_le
      | cons _ _ => simpa only [List.getLast?_cons_cons] using ih

/-- A sum whose entries are lightened is lightened, since its own charge does not rise. -/
theorem sum {as bs : List (Addend (Expr K))} (h : List.Forall₂ (AddendRel Lightens) as bs) :
    Lightens (.sum as) (.sum bs) := by
  have hlast : endCharge (bs.map Addend.expr).getLast? ≤ endCharge (as.map Addend.expr).getLast? :=
    endCharge_getLast?_le
      (List.forall₂_map_left_iff.mpr (List.forall₂_map_right_iff.mpr (h.imp fun _ _ hab => hab.1)))
  rw [List.getLast?_map, List.getLast?_map] at hlast
  -- a sum is no fraction, so as a factor it loses as much as by itself
  rcases addends h with rfl | hlt
  · exact refl _
  · refine Or.inr (Lighter.of_not_isFraction rfl ?_)
    simp only [weight]
    omega

/-- A product whose factors are lightened is lightened. -/
theorem product {es fs : List (Expr K)} (h : List.Forall₂ Lightens es fs) :
    Lightens (.product es) (.product fs) := by
  have hlast := endCharge_getLast?_le h
  rcases factors h with rfl | hlt
  · exact refl _
  · refine Or.inr (Lighter.of_isFraction rfl ?_)
    simp only [weight]
    omega

/-- A quotient whose parts are lightened is lightened. The factor for what is below the bar does not
matter here. -/
theorem quotient {a b c d : Expr K} (hac : Lightens a c) (hbd : Lightens b d) :
    Lightens (.quotient a b) (.quotient c d) := by
  rcases hac with rfl | hac <;> rcases hbd with rfl | hbd
  · exact refl _
  all_goals
    refine Or.inr (Lighter.of_isFraction rfl ?_)
    simp only [weight]
  · have := hbd.1; omega
  · have := hac.1; omega
  · have := hac.1; have := hbd.1; omega

/-- A power whose parts are lightened is lightened. -/
theorem power {a b c d : Expr K} (hac : Lightens a c) (hbd : Lightens b d) :
    Lightens (.power a b) (.power c d) := by
  rcases hac with rfl | hac <;> rcases hbd with rfl | hbd
  · exact refl _
  all_goals
    refine Or.inr (Lighter.of_not_isFraction rfl ?_)
    simp only [weight]
  · have := hbd.1; omega
  · have := hac.1; omega
  · have := hac.1; have := hbd.1; omega

theorem call {f : Fn} {a b : Expr K} (hab : Lightens a b) :
    Lightens (.call f a) (.call f b) := by
  rcases hab with rfl | hab
  · exact refl _
  · refine Or.inr (Lighter.of_not_isFraction rfl ?_)
    have := hab.1
    simp only [weight]
    omega

/-- A part of a tree that loses weight takes it off the whole tree. -/
theorem isRewriting : IsRewriting (Lightens (K := K)) where
  refl := refl
  trans := trans
  sum := sum
  product := product
  quotient := quotient
  power := power
  call := call

end Lightens

end Expr

/-! ## Alike expressions weigh the same -/

namespace Alike

open SymbolicCalculus.Expr Scalar

theorem isFraction_eq [Scalar K] {a b : Expr K} (h : Alike a b) :
    a.isFraction = b.isFraction := by
  cases a <;> cases b <;> first | rfl | cases h

theorem endCharge_getLast?_eq [Scalar K] {es fs : List (Expr K)}
    (h : List.Forall₂ Alike es fs) : endCharge es.getLast? = endCharge fs.getLast? := by
  induction h with
  | nil => rfl
  | cons hef h ih =>
      cases h with
      | nil => rw [List.getLast?_singleton, List.getLast?_singleton, endCharge, endCharge,
          Option.any_some, Option.any_some, hef.isNumber_eq]
      | cons _ _ => simpa only [List.getLast?_cons_cons] using ih

theorem isSettled_eq [Scalar K] [UnitLaws K] {v w : K} (h : same v w) (s : Bool) :
    isSettled v s = isSettled w s := by
  rw [isSettled, isSettled, UnitLaws.isNeg_congr h, UnitLaws.isNeg_congr (UnitLaws.neg_congr h)]

/-- Alike entries with the same sign are charged alike. -/
theorem addendWeight_eq [Scalar K] [UnitLaws K] {a b : Expr K} (h : Alike a b) (s : Bool)
    (hweight : a.weight = b.weight) : addendWeight ⟨a, s⟩ = addendWeight ⟨b, s⟩ := by
  -- numbers that are alike need not be equal, so their charge is compared by their signs
  rcases eq_number_or a with ⟨v, rfl⟩ | ⟨ha, _⟩
  · obtain ⟨w, rfl, hvw⟩ := alike_number_iff.mp h
    rw [addendWeight_number, addendWeight_number, isSettled_eq hvw]
  · rw [addendWeight_of_not_isNumber ha, addendWeight_of_not_isNumber (h.isNumber_eq ▸ ha),
      hweight]

mutual

/-- Alike expressions weigh the same, so that no rule can go on for ever by replacing a tree
with one that is alike. -/
theorem weight_eq [Scalar K] [UnitLaws K] {a b : Expr K} (h : Alike a b) :
    a.weight = b.weight := by
  -- along the tree on the left, which decides the kind of the tree on the right
  match a with
  | .number v =>
    obtain ⟨w, rfl, _⟩ := alike_number_iff.mp h
    rfl
  | .constant c => rw [alike_constant_iff.mp h]
  | .var name => rw [alike_var_iff.mp h]
  | .sum as =>
    obtain ⟨bs, rfl, has⟩ := alike_sum_iff.mp h
    have hexprs : List.Forall₂ Alike (as.map Addend.expr) (bs.map Addend.expr) :=
      List.forall₂_map_left_iff.mpr (List.forall₂_map_right_iff.mpr (has.imp fun _ _ hab => hab.1))
    have hlast := endCharge_getLast?_eq hexprs
    rw [List.getLast?_map, List.getLast?_map] at hlast
    rw [weight, weight, addendsWeight_eq has, hlast]
  | .product es =>
    obtain ⟨fs, rfl, hes⟩ := alike_product_iff.mp h
    rw [weight, weight, factorsWeight_eq hes, endCharge_getLast?_eq hes]
  | .quotient c d =>
    obtain ⟨c', d', rfl, hc, hd⟩ := alike_quotient_iff.mp h
    rw [weight, weight, weight_eq hc, weight_eq hd]
  | .power c d =>
    obtain ⟨c', d', rfl, hc, hd⟩ := alike_power_iff.mp h
    rw [weight, weight, weight_eq hc, weight_eq hd]
  | .call f c =>
    obtain ⟨c', rfl, hc⟩ := alike_call_iff.mp h
    rw [weight, weight, weight_eq hc]

theorem addendsWeight_eq [Scalar K] [UnitLaws K] {as bs : List (Addend (Expr K))}
    (h : AlikeAddends as bs) : addendsWeight as = addendsWeight bs := by
  match as, bs, h with
  | [], [], .nil => rfl
  | ⟨a, s⟩ :: as, ⟨b, t⟩ :: bs, .cons hab h =>
    obtain ⟨hab, rfl⟩ : Alike a b ∧ s = t := hab
    rw [addendsWeight_cons, addendsWeight_cons, addendWeight_eq hab s (weight_eq hab),
      addendsWeight_eq h]

theorem factorsWeight_eq [Scalar K] [UnitLaws K] {es fs : List (Expr K)}
    (h : List.Forall₂ Alike es fs) : factorsWeight es = factorsWeight fs := by
  match es, fs, h with
  | [], [], .nil => rfl
  | e :: es, f :: fs, .cons hef h =>
    rw [factorsWeight_cons, factorsWeight_cons, factorWeight, factorWeight, factorCharge,
      factorCharge, weight_eq hef, hef.isFraction_eq, factorsWeight_eq h]

end

theorem not_lighter [Scalar K] [UnitLaws K] {a b : Expr K} (h : Alike a b) : ¬ Lighter a b :=
  fun hlt => Nat.lt_irrefl _ (h.weight_eq ▸ hlt.1)

end Alike

end SymbolicCalculus
