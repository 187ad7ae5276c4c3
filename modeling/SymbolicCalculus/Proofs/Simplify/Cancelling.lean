import SymbolicCalculus.Proofs.Expr.Alike
import SymbolicCalculus.Proofs.Scalar.Binary64
import SymbolicCalculus.Simplify.Fraction

/-!
# Cancelling equal factors

The factors above the bar are looked at one after the other. A factor that is no number and has an
equal one below the bar goes out together with the first such factor, and any other factor stays
(`Fraction.cancelFrom_cons`). So nothing moves, numbers are left alone, and of the other factors
each side keeps as many as it has more than the other side, counted up to structural equality
(`Fraction.cancel_difference`).
-/

namespace SymbolicCalculus

open SymbolicCalculus.Expr Scalar

namespace Fraction

variable {K : Type} [Scalar K]

/-! ## One factor -/

/-- Erasing the first equal entry takes one entry out and leaves the others in place. -/
theorem eraseFirst?_eq_some {e : Expr K} {es fs : List (Expr K)} (h : eraseFirst? e es = some fs) :
    ∃ before f after, es = before ++ f :: after ∧ Alike f e ∧ fs = before ++ after := by
  induction es generalizing fs with
  | nil => cases h
  | cons f es ih =>
      rw [eraseFirst?] at h
      split at h
      · next hf => exact ⟨[], f, es, rfl, hf, (Option.some.inj h).symm⟩
      · obtain ⟨rest, hrest, rfl⟩ := Option.map_eq_some_iff.mp h
        obtain ⟨before, g, after, rfl, hg, rfl⟩ := ih hrest
        exact ⟨f :: before, g, after, rfl, hg, rfl⟩

/-- Erasing fails only if no entry is equal. -/
theorem eraseFirst?_eq_none {e : Expr K} {es : List (Expr K)} (h : eraseFirst? e es = none) :
    ∀ f ∈ es, ¬ Alike f e := by
  induction es with
  | nil => exact fun _ hf => (List.not_mem_nil hf).elim
  | cons f es ih =>
      rw [eraseFirst?] at h
      split at h
      · cases h
      · next hf => exact List.forall_mem_cons.mpr ⟨hf, ih (Option.map_eq_none_iff.mp h)⟩

/-- The first factor above the bar goes out together with an equal one below it. It stays if it is a
number or if there is no such factor. -/
theorem cancelFrom_cons (e : Expr K) (num den : List (Expr K)) :
    (∃ before f after, e.isNumber = false ∧ den = before ++ f :: after ∧ Alike f e ∧
        cancelFrom (e :: num) den = cancelFrom num (before ++ after)) ∨
      ((e.isNumber = false → ∀ f ∈ den, ¬ Alike f e) ∧
        cancelFrom (e :: num) den = ⟨e :: (cancelFrom num den).num, (cancelFrom num den).den⟩) := by
  rw [cancelFrom]
  cases hnumber : e.isNumber with
  | true => exact Or.inr ⟨nofun, rfl⟩
  | false =>
      rw [if_neg Bool.false_ne_true]
      cases herase : eraseFirst? e den with
      | none => exact Or.inr ⟨fun _ => eraseFirst?_eq_none herase, rfl⟩
      | some rest =>
          obtain ⟨before, f, after, hden, hf, rfl⟩ := eraseFirst?_eq_some herase
          exact Or.inl ⟨before, f, after, rfl, hden, hf, rfl⟩

/-! ## What is left -/

/-- Cancelling takes factors out, and some from below the bar if any. -/
theorem cancelFrom_sublist (num den : List (Expr K)) :
    (cancelFrom num den).num.Sublist num ∧ (cancelFrom num den).den.Sublist den ∧
      (cancelFrom num den = ⟨num, den⟩ ∨ (cancelFrom num den).den.length < den.length) := by
  -- induction on the factors above the bar, over all lists of what is left below it
  induction num generalizing den with
  | nil => exact ⟨List.Sublist.refl _, List.Sublist.refl _, Or.inl rfl⟩
  | cons e num ih =>
      rcases cancelFrom_cons e num den with ⟨before, f, after, -, rfl, -, heq⟩ | ⟨-, heq⟩
      · -- the factor is gone from both lists
        obtain ⟨hnum, hden, -⟩ := ih (before ++ after)
        have hsub : (before ++ after).Sublist (before ++ f :: after) :=
          (List.sublist_cons_self f after).append_left before
        have hlen := hden.length_le
        rw [heq]
        refine ⟨hnum.cons e, hden.trans hsub, Or.inr ?_⟩
        simp only [List.length_append, List.length_cons] at hlen ⊢
        omega
      · obtain ⟨hnum, hden, hor⟩ := ih den
        rw [heq]
        exact ⟨hnum.cons_cons e, hden, hor.imp_left fun h => by rw [h]⟩

/-- The numbers of both lists stay where they are. -/
theorem filter_isNumber_cancelFrom (num den : List (Expr K)) :
    (cancelFrom num den).num.filter isNumber = num.filter isNumber ∧
      (cancelFrom num den).den.filter isNumber = den.filter isNumber := by
  induction num generalizing den with
  | nil => exact ⟨rfl, rfl⟩
  | cons e num ih =>
      rcases cancelFrom_cons e num den with ⟨before, f, after, he, rfl, hf, heq⟩ | ⟨-, heq⟩
      · obtain ⟨hnum, hden⟩ := ih (before ++ after)
        -- the factor below the bar is structurally equal to one that is no number
        have hfnumber : f.isNumber = false := hf.isNumber_eq.trans he
        rw [heq, hnum, hden]
        simp [he, hfnumber]
      · obtain ⟨hnum, hden⟩ := ih den
        rw [heq, List.filter_cons, List.filter_cons, hnum]
        exact ⟨rfl, hden⟩

variable [UnitLaws K]

/-- Each side keeps as many copies of a tree as it has more than the other side. -/
theorem count_cancelFrom {t : Expr K} (ht : t.isNumber = false) (num den : List (Expr K)) :
    (cancelFrom num den).num.count t = num.count t - den.count t ∧
      (cancelFrom num den).den.count t = den.count t - num.count t := by
  induction num generalizing den with
  | nil => simp [cancelFrom]
  | cons e num ih =>
      rcases cancelFrom_cons e num den with ⟨before, f, after, -, rfl, hf, heq⟩ | ⟨hstays, heq⟩
      · -- both sides lose a copy of `t`, or neither does
        obtain ⟨hnum, hden⟩ := ih (before ++ after)
        have hcopy : (f == t) = (e == t) := BEq.congr_left hf
        rw [heq, hnum, hden]
        simp only [List.count_append, List.count_cons, hcopy]
        omega
      · obtain ⟨hnum, hden⟩ := ih den
        rw [heq]
        dsimp only
        rw [List.count_cons, List.count_cons, hnum, hden]
        by_cases het : (e == t) = true
        -- a factor equal to `t` stays above the bar only once there is no copy of `t` below it
        · have hnone : den.count t = 0 := by
            have he : e.isNumber = false := (Alike.isNumber_eq het).trans ht
            exact List.countP_eq_zero.mpr fun f hf hft => hstays he f hf (BEq.trans hft (BEq.symm het))
          rw [if_pos het]
          omega
        · rw [if_neg het]
          omega

/-- **Cancelling is the difference of multisets.** What is left of both lists of factors stands in
its old order, and all numbers are left. Every other tree, taken up to structural equality, is left
on each side as often as it occurs there more often than on the other side, and so it is not left on
both. -/
theorem cancel_difference (a : Fraction K) :
    a.cancel.num.Sublist a.num ∧ a.cancel.den.Sublist a.den ∧
    a.cancel.num.filter isNumber = a.num.filter isNumber ∧
    a.cancel.den.filter isNumber = a.den.filter isNumber ∧
    (∀ t : Expr K, t.isNumber = false →
      a.cancel.num.count t = a.num.count t - a.den.count t ∧
      a.cancel.den.count t = a.den.count t - a.num.count t) ∧
    ∀ e ∈ a.cancel.num, ∀ f ∈ a.cancel.den, e.isNumber = false → ¬ Alike e f := by
  obtain ⟨hnum, hden, -⟩ := cancelFrom_sublist a.num a.den
  obtain ⟨hnumbers, hnumbers'⟩ := filter_isNumber_cancelFrom a.num a.den
  refine ⟨hnum, hden, hnumbers, hnumbers', fun t ht => count_cancelFrom ht a.num a.den, ?_⟩
  intro e he f hf hnumber hef
  obtain ⟨hcount, hcount'⟩ := count_cancelFrom hnumber a.num a.den
  -- counted on both sides, `e` would have a surplus on each of them
  have hpos : 0 < a.cancel.num.count e := List.countP_pos_iff.mpr ⟨e, he, BEq.rfl⟩
  have hpos' : 0 < a.cancel.den.count e := List.countP_pos_iff.mpr ⟨f, hf, Alike.symm hef⟩
  rw [cancel] at hpos hpos'
  omega

/-- Two factors `x + 0` above the bar and one with the other zero below it leave one above. The
numbers do not cancel. -/
theorem cancel_difference_zeros :
    let factor (zero : Float) : Expr Float := .sum [.plus (.var "x"), .plus (.number zero)]
    let a : Fraction Float :=
      ⟨[factor 0, .number 2, factor 0, .var "y"], [.var "y", factor (-0), .number 2]⟩
    (factor 0).isNumber = false ∧ a.cancel.num.count (factor 0) = 1 ∧
      a.cancel.den.count (factor 0) = 0 ∧ a.cancel.num.filter isNumber = [.number 2] := by
  intro factor a
  obtain ⟨-, -, hnumbers, -, hcounts, -⟩ := cancel_difference a
  obtain ⟨hnum, hden⟩ := hcounts (factor 0) rfl
  exact ⟨rfl, hnum.trans (by decide), hden.trans (by decide), hnumbers⟩

end Fraction

end SymbolicCalculus
