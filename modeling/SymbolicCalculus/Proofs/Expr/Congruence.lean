import SymbolicCalculus.Proofs.Expr.Alike
import SymbolicCalculus.Simplify.Fold
import SymbolicCalculus.Simplify.Gather
import SymbolicCalculus.Simplify.Power

/-!
# Operations respect structural equality

Structurally equal trees may differ in the sign of a zero, so it has to be shown of every operation
on trees that it gives structurally equal results for them. Here are the operations that look at a
single list or a single operator.
-/

namespace SymbolicCalculus

open SymbolicCalculus.Expr Scalar

variable {K : Type}

section Lists

variable {α β γ δ : Type} {R : α → β → Prop} {S : γ → δ → Prop}

/-- Tests that agree on related entries agree on related lists. -/
theorem any_eq_of_forall₂ {p : α → Bool} {q : β → Bool} (hpq : ∀ {a b}, R a b → p a = q b)
    {as : List α} {bs : List β} (h : List.Forall₂ R as bs) : as.any p = bs.any q := by
  induction h with
  | nil => rfl
  | cons hab _ ih => rw [List.any_cons, List.any_cons, hpq hab, ih]

theorem filter_of_forall₂ {p : α → Bool} {q : β → Bool} (hpq : ∀ {a b}, R a b → p a = q b)
    {as : List α} {bs : List β} (h : List.Forall₂ R as bs) :
    List.Forall₂ R (as.filter p) (bs.filter q) :=
  List.rel_filter (fun _ _ hab => Bool.eq_iff_iff.mp (hpq hab)) h

/-- Partial functions that agree on related entries agree on related lists. -/
theorem mapM_of_forall₂ {f : α → Option γ} {g : β → Option δ}
    (hfg : ∀ {a b}, R a b → Option.Rel S (f a) (g b)) {as : List α} {bs : List β}
    (h : List.Forall₂ R as bs) : Option.Rel (List.Forall₂ S) (as.mapM f) (bs.mapM g) := by
  induction h with
  | nil => exact .some .nil
  | @cons a b as bs hab _ ih =>
      have hhead := hfg hab
      rw [List.mapM_cons, List.mapM_cons]
      -- the partial functions are defined on both heads or on none of them
      cases hfa : f a <;> cases hgb : g b <;> rw [hfa, hgb] at hhead <;> cases hhead
      · exact .none
      · next hcd =>
        cases hfas : as.mapM f <;> cases hgbs : bs.mapM g <;> rw [hfas, hgbs] at ih <;> cases ih
        · exact .none
        · next htail => exact .some (.cons hcd htail)

/-- Functions that relate related values relate optional results. -/
theorem map_of_rel {f : α → γ} {g : β → δ} (hfg : ∀ {a b}, R a b → S (f a) (g b))
    {a : Option α} {b : Option β} (h : Option.Rel R a b) : Option.Rel S (a.map f) (b.map g) := by
  cases h with
  | none => exact .none
  | some hab => exact .some (hfg hab)

/-- Partial functions that relate related values may be chained. -/
theorem bind_of_rel {f : α → Option γ} {g : β → Option δ}
    (hfg : ∀ {a b}, R a b → Option.Rel S (f a) (g b)) {a : Option α} {b : Option β}
    (h : Option.Rel R a b) : Option.Rel S (a.bind f) (b.bind g) := by
  cases h with
  | none => exact .none
  | some hab => exact hfg hab

end Lists

variable [Scalar K]

/-- The numbers are the same. -/
def SameNumber (v w : K) : Prop := Scalar.same v w = true

/-- The addends are the same number with the same sign. -/
def SameAddend (a b : Addend K) : Prop := SameNumber a.expr b.expr ∧ a.subtract = b.subtract

namespace Alike

variable {a b : Expr K}

/-! ## Numbers -/

/-- Alike trees are the same number, or none of them is a number. -/
theorem asNumber? (h : Alike a b) :
    Option.Rel SameNumber a.asNumber? b.asNumber? := by
  cases a with
  | number v =>
      obtain ⟨w, rfl, hvw⟩ := alike_number_iff.mp h
      exact .some hvw
  | _ => cases b <;> first | exact .none | cases h

theorem addendNumber? {a b : Addend (Expr K)} (h : AddendRel Alike a b) :
    Option.Rel SameAddend (Expr.addendNumber? a) (Expr.addendNumber? b) :=
  map_of_rel (fun hvw => ⟨hvw, h.2⟩) h.1.asNumber?

theorem numbers {es fs : List (Expr K)} (h : List.Forall₂ Alike es fs) :
    List.Forall₂ SameNumber (es.filterMap Expr.asNumber?) (fs.filterMap Expr.asNumber?) :=
  List.rel_filterMap (fun _ _ hef => hef.asNumber?) h

/-! ## Lists -/

/-- Alike trees are spliced into a sum alike. -/
theorem asAddends (h : Alike a b) (s : Bool) : AlikeAddends (a.asAddends s) (b.asAddends s) := by
  cases a with
  | sum as =>
      obtain ⟨bs, rfl, hab⟩ := alike_sum_iff.mp h
      refine List.rel_map (fun a b hab => ?_) hab
      cases s with
      | false => exact hab
      | true => exact ⟨hab.1, congrArg not hab.2⟩
  | _ => cases b <;> first | exact .cons ⟨h, rfl⟩ .nil | cases h

/-- Alike trees are spliced into a product alike. -/
theorem asFactors (h : Alike a b) : List.Forall₂ Alike a.asFactors b.asFactors := by
  cases a with
  | product es =>
      obtain ⟨fs, rfl, hef⟩ := alike_product_iff.mp h
      exact hef
  | _ => cases b <;> first | exact .cons h .nil | cases h

mutual

/-- Alike trees have alike normal forms. -/
theorem normalize {a b : Expr K} (h : Alike a b) : Alike a.normalize b.normalize := by
  -- the kind of the first tree decides what the other one looks like, and the recursion is that of
  -- `normalize`
  match a with
  | .number _ =>
    obtain ⟨w, rfl, hvw⟩ := alike_number_iff.mp h
    exact h
  | .constant _ =>
    obtain rfl := alike_constant_iff.mp h
    exact h
  | .var _ =>
    obtain rfl := alike_var_iff.mp h
    exact h
  | .sum as =>
    obtain ⟨bs, rfl, has⟩ := alike_sum_iff.mp h
    exact alike_sum_iff.mpr ⟨_, rfl, normalizeAddends has⟩
  | .product es =>
    obtain ⟨fs, rfl, hes⟩ := alike_product_iff.mp h
    exact alike_product_iff.mpr ⟨_, rfl, normalizeFactors hes⟩
  | .quotient c d =>
    obtain ⟨c', d', rfl, hc, hd⟩ := alike_quotient_iff.mp h
    exact alike_quotient_iff.mpr ⟨_, _, rfl, normalize hc, normalize hd⟩
  | .power c d =>
    obtain ⟨c', d', rfl, hc, hd⟩ := alike_power_iff.mp h
    exact alike_power_iff.mpr ⟨_, _, rfl, normalize hc, normalize hd⟩
  | .call f c =>
    obtain ⟨c', rfl, hc⟩ := alike_call_iff.mp h
    exact alike_call_iff.mpr ⟨_, rfl, normalize hc⟩

theorem normalizeAddends {as bs : List (Addend (Expr K))} (h : AlikeAddends as bs) :
    AlikeAddends (Expr.normalizeAddends as) (Expr.normalizeAddends bs) := by
  match as, bs, h with
  | [], [], .nil => exact .nil
  | ⟨a, s⟩ :: as, ⟨b, t⟩ :: bs, .cons hab h =>
    obtain ⟨hab, rfl⟩ : Alike a b ∧ s = t := hab
    exact List.rel_append ((normalize hab).asAddends s) (normalizeAddends h)

theorem normalizeFactors {es fs : List (Expr K)} (h : List.Forall₂ Alike es fs) :
    List.Forall₂ Alike (Expr.normalizeFactors es) (Expr.normalizeFactors fs) := by
  match es, fs, h with
  | [], [], .nil => exact .nil
  | _ :: _, _ :: _, .cons hef h =>
    exact List.rel_append (normalize hef).asFactors (normalizeFactors h)

end

/-! ## Logarithms -/

theorem lnArg? (h : Alike a b) : Option.Rel Alike a.lnArg? b.lnArg? := by
  cases a with
  | call f c =>
      obtain ⟨d, rfl, hcd⟩ := alike_call_iff.mp h
      cases f with
      | ln => exact .some hcd
      | _ => exact .none
  | _ => cases b <;> first | exact .none | cases h

/-- A logarithm is taken out of alike lists of factors at the same place. -/
theorem extractLn? {es fs : List (Expr K)} (h : List.Forall₂ Alike es fs) :
    Option.Rel (fun p q => Alike p.1 q.1 ∧ List.Forall₂ Alike p.2 q.2)
      (Expr.extractLn? es) (Expr.extractLn? fs) := by
  induction h with
  | nil => exact .none
  | @cons e f es fs hef h ih =>
      have hln := hef.lnArg?
      rw [Expr.extractLn?, Expr.extractLn?]
      cases hu : e.lnArg? <;> cases hw : f.lnArg? <;> rw [hu, hw] at hln <;> cases hln
      · exact map_of_rel (fun hpq => ⟨hpq.1, .cons hef hpq.2⟩) ih
      · next huw => exact .some ⟨huw, h⟩

/-! ## Tests -/

section Tests

variable [TestLaws K]

/-- The trees cannot be told apart by comparing them with others. -/
theorem beq_eq {c d : Expr K} (hab : Alike a b) (hcd : Alike c d) : (a == c) = (b == d) :=
  (BEq.congr_left hab).trans (BEq.congr_right hcd)

/-- Alike trees pass the same comparisons with numbers. -/
theorem isNumberEq_eq (h : Alike a b) (v : K) : a.isNumberEq v = b.isNumberEq v := by
  cases a with
  | number u =>
      obtain ⟨w, rfl, huw⟩ := alike_number_iff.mp h
      exact TestLaws.beq_congr huw v
  | _ => cases b <;> first | rfl | cases h

/-- Alike trees collapse alike. -/
theorem collapse (h : Alike a b) : Alike a.collapse b.collapse := by
  cases a with
  | sum as =>
      obtain ⟨bs, rfl, has⟩ := alike_sum_iff.mp h
      -- a sum of no term, of one that is added, of one that is subtracted, of several
      match as, bs, has with
      | [], [], .nil => exact Alike.refl _
      | [⟨c, false⟩], [⟨d, t⟩], .cons hcd .nil =>
        obtain ⟨hcd, rfl⟩ : Alike c d ∧ false = t := hcd
        exact hcd
      | [⟨c, true⟩], [⟨d, t⟩], .cons hcd .nil =>
        obtain ⟨hcd, rfl⟩ : Alike c d ∧ true = t := hcd
        exact h
      | _ :: _ :: _, _ :: _ :: _, _ => simpa only [Expr.collapse] using h
  | product es =>
      obtain ⟨fs, rfl, hes⟩ := alike_product_iff.mp h
      match es, fs, hes with
      | [], [], .nil => exact Alike.refl _
      | [_], [_], .cons hcd .nil => exact hcd
      | _ :: _ :: _, _ :: _ :: _, _ => exact h
  | _ => cases b <;> first | exact h | cases h

end Tests

/-! ## Gathering -/

variable [CongruenceLaws K]

theorem product_congr {vs ws : List K} (h : List.Forall₂ SameNumber vs ws) :
    SameNumber (Scalar.product vs) (Scalar.product ws) :=
  List.rel_foldl (P := SameNumber (K := K)) (R := SameNumber (K := K))
    (fun _ _ hprod _ _ hvw => CongruenceLaws.mul_congr hprod hvw) (UnitLaws.same_refl 1) h

/-- The same numbers with the same signs have the same total. -/
theorem total_congr {as bs : List (Addend K)} (h : List.Forall₂ SameAddend as bs) :
    SameNumber (Addend.total as) (Addend.total bs) := by
  refine List.rel_foldl (P := SameNumber) (fun u w hsum a b hab => ?_) (UnitLaws.same_refl 0) h
  obtain ⟨hab, hsign⟩ := hab
  rw [hsign]
  split
  · exact CongruenceLaws.sub_congr hsum hab
  · exact CongruenceLaws.add_congr hsum hab

/-- The same number is added or subtracted in the same way. -/
theorem signedAddend {v w : K} (h : SameNumber v w) :
    AddendRel Alike (Expr.signedAddend v) (Expr.signedAddend w) := by
  unfold Expr.signedAddend
  rw [UnitLaws.isNeg_congr h]
  split
  · exact ⟨alike_number_iff.mpr ⟨_, rfl, UnitLaws.neg_congr h⟩, rfl⟩
  · exact ⟨alike_number_iff.mpr ⟨_, rfl, h⟩, rfl⟩

theorem neg (h : Alike a b) : Alike (-a) (-b) :=
  alike_product_iff.mpr ⟨_, rfl, .cons (Alike.refl _) h.asFactors⟩

/-- Alike terms make alike sums. -/
theorem sumOfTerms {as bs : List (Addend (Expr K))} (h : AlikeAddends as bs) :
    Alike (Expr.sumOfTerms as) (Expr.sumOfTerms bs) := by
  have hsum : Alike (sum as) (sum bs) := alike_sum_iff.mpr ⟨bs, rfl, h⟩
  match as, bs, h with
  | [⟨c, true⟩], [⟨d, t⟩], .cons hcd .nil =>
    obtain ⟨hcd, rfl⟩ : Alike c d ∧ true = t := hcd
    exact hcd.neg
  | [⟨c, false⟩], [⟨d, t⟩], .cons hcd .nil =>
    obtain ⟨hcd, rfl⟩ : Alike c d ∧ false = t := hcd
    exact hcd
  | [], [], .nil => exact hsum.collapse
  | _ :: _ :: _, _ :: _ :: _, _ => simpa only [Expr.sumOfTerms] using hsum.collapse

/-- The numbers of alike sums are gathered alike. -/
theorem gatherSum {as bs : List (Addend (Expr K))} (h : AlikeAddends as bs) :
    Alike (Expr.gatherSum as) (Expr.gatherSum bs) := by
  have htotal : SameNumber (Addend.total (as.filterMap Expr.addendNumber?))
      (Addend.total (bs.filterMap Expr.addendNumber?)) :=
    total_congr (List.rel_filterMap (fun _ _ hab => addendNumber? hab) h)
  have hterms : AlikeAddends (as.filter fun a => !a.expr.isNumber)
      (bs.filter fun a => !a.expr.isNumber) :=
    filter_of_forall₂ (fun hab => congrArg not hab.1.isNumber_eq) h
  unfold Expr.gatherSum
  -- the total and the other terms are all that counts from here on
  revert htotal hterms
  generalize Addend.total (as.filterMap Expr.addendNumber?) = v
  generalize Addend.total (bs.filterMap Expr.addendNumber?) = w
  generalize (as.filter fun a => !a.expr.isNumber) = ts
  generalize (bs.filter fun a => !a.expr.isNumber) = us
  intro hvw htu
  cases htu with
  | nil => exact alike_number_iff.mpr ⟨w, rfl, hvw⟩
  | cons htu htus =>
      dsimp only
      rw [TestLaws.beq_congr hvw]
      refine sumOfTerms ?_
      split
      · exact .cons htu htus
      · exact List.rel_append (.cons htu htus) (.cons (signedAddend hvw) .nil)

/-- A number at the end of a list of factors, unless it is one. -/
theorem append_number {es fs : List (Expr K)} {v w : K} (h : List.Forall₂ Alike es fs)
    (hvw : SameNumber v w) :
    List.Forall₂ Alike (if v == 1 then es else es ++ [number v])
      (if w == 1 then fs else fs ++ [number w]) := by
  rw [TestLaws.beq_congr hvw]
  split
  · exact h
  · exact List.rel_append h (.cons (alike_number_iff.mpr ⟨w, rfl, hvw⟩) .nil)

/-- The numbers of alike products are gathered alike. -/
theorem gatherProduct {es fs : List (Expr K)} (h : List.Forall₂ Alike es fs) :
    Alike (Expr.gatherProduct es) (Expr.gatherProduct fs) := by
  have hnan := any_eq_of_forall₂ (fun hvw => TestLaws.isNaN_congr hvw) (numbers h)
  have hvalue := product_congr (numbers h)
  have hrest : List.Forall₂ Alike (es.filter fun e => !e.isNumber)
      (fs.filter fun e => !e.isNumber) :=
    filter_of_forall₂ (fun hef => congrArg not hef.isNumber_eq) h
  unfold Expr.gatherProduct
  dsimp only
  rw [hnan]
  split
  -- a product with an undefined number is undefined, whatever its other factors
  · exact Alike.refl _
  · revert hrest
    generalize (es.filter fun e => !e.isNumber) = es'
    generalize (fs.filter fun e => !e.isNumber) = fs'
    intro hrest
    cases hrest with
    | nil => exact alike_number_iff.mpr ⟨_, rfl, hvalue⟩
    | cons hef hrest =>
        exact collapse (alike_product_iff.mpr ⟨_, rfl, append_number (.cons hef hrest) hvalue⟩)

/-! ## Powers and folding -/

/-- A power of `e` is undone for alike exponents alike. -/
theorem powerOfLn? (h : Alike a b) : Option.Rel Alike a.powerOfLn? b.powerOfLn? := by
  cases a with
  | call f c =>
      obtain ⟨d, rfl, hcd⟩ := alike_call_iff.mp h
      cases f with
      | ln => exact .some hcd
      | _ => exact .none
  | product es =>
      obtain ⟨fs, rfl, hes⟩ := alike_product_iff.mp h
      refine map_of_rel (fun {p q} hpq => ?_) (extractLn? hes)
      have hexponent : Alike (product p.2).collapse (product q.2).collapse :=
        collapse (alike_product_iff.mpr ⟨q.2, rfl, hpq.2⟩)
      dsimp only
      rw [hexponent.isNumberEq_eq]
      split
      · exact hpq.1
      · exact alike_power_iff.mpr ⟨_, _, rfl, hpq.1, hexponent⟩
  | _ => cases b <;> first | exact .none | cases h

/-- Alike operators on numbers fold to the same number, or none of them folds. -/
theorem foldedValue? (h : Alike a b) : Option.Rel SameNumber a.foldedValue? b.foldedValue? := by
  cases a with
  | sum as =>
      obtain ⟨bs, rfl, hab⟩ := alike_sum_iff.mp h
      have hvalues := mapM_of_forall₂ (fun hab => addendNumber? hab) hab
      exact bind_of_rel (S := SameNumber) (fun hvs => .some (total_congr hvs)) hvalues
  | product es =>
      obtain ⟨fs, rfl, hef⟩ := alike_product_iff.mp h
      have hvalues := mapM_of_forall₂ (fun hef => asNumber? hef) hef
      exact bind_of_rel (S := SameNumber) (fun hvs => .some (product_congr hvs)) hvalues
  | quotient c d =>
      obtain ⟨c', d', rfl, hc, hd⟩ := alike_quotient_iff.mp h
      refine bind_of_rel (fun hv => bind_of_rel (fun {w w'} hw => ?_) hd.asNumber?) hc.asNumber?
      -- a divisor zero is not folded, and division by the two zeros would differ
      rw [← TestLaws.beq_congr hw]
      split
      · exact .none
      · next hzero => exact .some (CongruenceLaws.div_congr hv hw (by simpa using hzero))
  | power c d =>
      obtain ⟨c', d', rfl, hc, hd⟩ := alike_power_iff.mp h
      refine bind_of_rel (fun hv => bind_of_rel (fun hw => ?_) hd.asNumber?) hc.asNumber?
      dsimp only
      rw [← CongruenceLaws.isFinite_pow_congr hv hw]
      split
      · next hfinite => exact .some (CongruenceLaws.pow_congr hv hw hfinite)
      · exact .none
  | _ => cases b <;> first | exact .none | cases h

end Alike

end SymbolicCalculus
