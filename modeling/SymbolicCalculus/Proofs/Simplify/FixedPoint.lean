import SymbolicCalculus.Proofs.Expr.Nodes
import SymbolicCalculus.Proofs.Simplify.Convergence

/-!
# What a pass does not change

If a pass leaves a tree as it is, no rule applies at any of its nodes: a rule takes weight off, and
no other rule puts it back, neither at the same node nor at one above it.
-/

namespace SymbolicCalculus

open SymbolicCalculus.Expr Scalar

variable {K : Type}

namespace Expr

/-! ## Passes over children -/

variable [Scalar K]

/-- Two trees that each lighten the other are the same tree, since weight taken off is not put back.
-/
theorem Lightens.antisymm {a b : Expr K} (hab : Lightens a b) (hba : Lightens b a) : a = b := by
  rcases hab with rfl | hab
  · rfl
  · rcases hba with rfl | hba
    · rfl
    · exact (hab.trans hba).not_self.elim

/-- A tree whose root is not changed by a pass after its children were simplified. -/
theorem stages_eq_of_finishNode [UnitLaws K] {e f : Expr K} {changes : List (Change K)}
    (hef : Lightens e f) (h : (finishNode changes f).1 = e) :
    f = e ∧ (applyStages stages e).1 = e := by
  have hstages : Lightens f (applyStages stages f).1 :=
    rel_applyStages Lightens.isRewriting stages
      (fun r hr e e' h => Or.inr (Rule.stages_lightening hr e e' h)) f
  have hfe : Lightens f e := h ▸ hstages
  -- the stages give back `e`, so they have nothing left to take off between `f` and `e`
  obtain rfl := hfe.antisymm hef
  exact ⟨rfl, h⟩

/-- If a pass over addends changes none of them, it changes no term. -/
theorem passAddends_exprs {as : List (Addend (Expr K))}
    (h : (passAddends as).1 = as) : ∀ a ∈ as, a.expr.pass.1 = a.expr := by
  intro a ha
  induction as with
  | nil => cases ha
  | cons b as ih =>
      obtain ⟨hb, has⟩ := List.cons.inj h
      rcases List.mem_cons.mp ha with rfl | ha
      · exact congrArg Addend.expr hb
      · exact ih has ha

/-- If a pass over factors changes none of them, it changes no factor. -/
theorem passFactors_exprs {es : List (Expr K)} (h : (passFactors es).1 = es) :
    ∀ e ∈ es, e.pass.1 = e := by
  intro e he
  induction es with
  | nil => cases he
  | cons f es ih =>
      obtain ⟨hf, hes⟩ := List.cons.inj h
      rcases List.mem_cons.mp he with rfl | he
      · exact hf
      · exact ih hes he

/-- If a pass leaves a tree as it is, so do the stages at its root and a pass over each child. -/
theorem stages_eq_of_pass_eq [UnitLaws K] {e : Expr K} (h : e.pass.1 = e) :
    (applyStages stages e).1 = e ∧ ∀ c ∈ e.children, c.pass.1 = c := by
  have hrules : ∀ r ∈ (stages : List (Rule K)), r.Respects Lightens :=
    fun r hr e e' h => Or.inr (Rule.stages_lightening hr e e' h)
  -- for each form of node, the tree with its children simplified is no heavier than the tree, so it
  -- is the tree itself and no child has changed
  cases e with
  | number | constant | var => exact ⟨h, fun c hc => (List.not_mem_nil hc).elim⟩
  | sum as =>
      obtain ⟨heq, hroot⟩ :=
        stages_eq_of_finishNode (Lightens.sum (rel_passAddends Lightens.isRewriting hrules as)) h
      refine ⟨hroot, fun c hc => ?_⟩
      obtain ⟨a, ha, rfl⟩ := List.mem_map.mp hc
      exact passAddends_exprs (Expr.sum.inj heq) a ha
  | product es =>
      obtain ⟨heq, hroot⟩ := stages_eq_of_finishNode
        (Lightens.product (rel_passFactors Lightens.isRewriting hrules es)) h
      exact ⟨hroot, passFactors_exprs (Expr.product.inj heq)⟩
  | quotient a b =>
      obtain ⟨heq, hroot⟩ :=
        stages_eq_of_finishNode (Lightens.quotient (pass_lightens a) (pass_lightens b)) h
      obtain ⟨ha, hb⟩ := Expr.quotient.inj heq
      exact ⟨hroot, by simp [children, ha, hb]⟩
  | power a b =>
      obtain ⟨heq, hroot⟩ :=
        stages_eq_of_finishNode (Lightens.power (pass_lightens a) (pass_lightens b)) h
      obtain ⟨ha, hb⟩ := Expr.power.inj heq
      exact ⟨hroot, by simp [children, ha, hb]⟩
  | call f a =>
      obtain ⟨heq, hroot⟩ := stages_eq_of_finishNode (Lightens.call (pass_lightens a)) h
      obtain ⟨-, ha⟩ := Expr.call.inj heq
      exact ⟨hroot, by simp [children, ha]⟩

/-! ## Rules that do not apply -/

/-- If stages whose rules take weight off leave a tree as it is, none of the rules applies to it. -/
theorem replace?_eq_none [UnitLaws K] {rules : List (Rule K)} (hrules : ∀ r ∈ rules, r.Lightening)
    {e : Expr K} (h : (applyStages rules e).1 = e) : ∀ r ∈ rules, r.replace? e = none := by
  induction rules with
  | nil => simp
  | cons r rules ih =>
      have hrest : ∀ s ∈ rules, s.Lightening := fun s hs => hrules s (List.mem_cons_of_mem r hs)
      rw [applyStages] at h
      split at h
      · next hnone =>
        intro s hs
        rcases List.mem_cons.mp hs with rfl | hs
        · exact hnone
        · exact ih hrest h s hs
      · next next hnext =>
        -- the rule takes weight off, and the stages after it would have to put it back
        have hlighter : Lighter next e := hrules r List.mem_cons_self e next hnext
        have hback : Lightens next e := by
          have hrespects : ∀ s ∈ rules, s.Respects Lightens :=
            fun s hs e e' he => Or.inr (hrest s hs e e' he)
          have hresult := rel_applyStages Lightens.isRewriting rules hrespects next
          exact h ▸ hresult
        have heq : next = e := hback.antisymm (Or.inr hlighter)
        exact (heq ▸ hlighter).not_self.elim

/-- No rule applies to the root of the tree. -/
structure NoRuleApplies (e : Expr K) : Prop where
  flatten : Rule.flatten.replace? e = none
  gatherSum : Rule.gatherSum.replace? e = none
  gatherProduct : Rule.gatherProduct.replace? e = none
  divideByOne : Rule.divideByOne.replace? e = none
  multiplyByZero : Rule.multiplyByZero.replace? e = none
  divideZero : Rule.divideZero.replace? e = none
  exponentZero : Rule.exponentZero.replace? e = none
  exponentOne : Rule.exponentOne.replace? e = none
  baseZero : Rule.baseZero.replace? e = none
  baseOne : Rule.baseOne.replace? e = none
  expOfLn : Rule.expOfLn.replace? e = none
  cancelFactors : Rule.cancelFactors.replace? e = none
  mergePowers : Rule.mergePowers.replace? e = none
  fold : Rule.fold.replace? e = none

/-- A tree that the stages leave as it is has none of the forms that a rule rewrites. -/
theorem noRuleApplies_of_stages_eq [UnitLaws K] {e : Expr K} (h : (applyStages stages e).1 = e) :
    e.NoRuleApplies := by
  have hnone := replace?_eq_none (fun r hr => Rule.stages_lightening hr) h
  -- the five stages that try several rules each are taken apart, so that each rule stands for
  -- itself
  simp only [stages, List.mem_cons, List.not_mem_nil, or_false, forall_eq_or_imp, forall_eq,
    Rule.identity, Rule.absorb, Rule.power, Rule.firstOf, List.findSome?_eq_none_iff] at hnone
  obtain ⟨hflatten, ⟨hsum, hproduct, hone⟩, ⟨hzero, hdividend⟩, ⟨h0, h1, h2, h3, hln⟩, hcancel,
    hmerge, hfold⟩ := hnone
  exact ⟨hflatten, hsum, hproduct, hone, hzero, hdividend, h0, h1, h2, h3, hln, hcancel, hmerge,
    hfold⟩

/-- If a pass leaves a tree as it is, no rule applies to any of its nodes or to a child of one. -/
theorem noRuleApplies_of_mem_postOrder [UnitLaws K] {e : Expr K} (h : e.pass.1 = e) :
    ∀ n ∈ e.postOrder, n.NoRuleApplies ∧ ∀ c ∈ n.children, c.NoRuleApplies := by
  have hpass : ∀ n ∈ e.postOrder, n.pass.1 = n :=
    forall_mem_postOrder (fun _ hn => (stages_eq_of_pass_eq hn).2) e h
  intro n hn
  obtain ⟨hroot, hchildren⟩ := stages_eq_of_pass_eq (hpass n hn)
  refine ⟨noRuleApplies_of_stages_eq hroot, fun c hc => ?_⟩
  exact noRuleApplies_of_stages_eq (stages_eq_of_pass_eq (hchildren c hc)).1

end Expr

end SymbolicCalculus
