import SymbolicCalculus.Proofs.Simplify.FixedPoint

/-!
# The account of a pass

A pass keeps account of the changes it makes, and the account is exact: it is empty if and only if
the tree is structurally what it was. One half is that a rule which applies leaves its mark, since
it takes weight off that nothing puts back. The other half is that without a change nothing is
rebuilt.

So a simplification that reached a fixed point took a step in every pass but the last one
(`steps_exact`).
-/

namespace SymbolicCalculus

open SymbolicCalculus.Expr Scalar

variable {K : Type}

/-! ## Stages -/

/-- Stages record no change if and only if no rule applies. -/
theorem applyStages_changes_eq_nil_iff {rules : List (Rule K)} {e : Expr K} :
    (applyStages rules e).2 = [] ↔ ∀ r ∈ rules, r.replace? e = none := by
  induction rules with
  | nil => simp [applyStages]
  | cons r rules ih =>
      rw [applyStages, List.forall_mem_cons]
      cases hr : r.replace? e with
      | none => simpa using ih
      | some next => simp

/-- Stages that change nothing return the tree itself. -/
theorem applyStages_of_changes_eq_nil {rules : List (Rule K)} {e : Expr K}
    (h : (applyStages rules e).2 = []) : (applyStages rules e).1 = e := by
  have hnone := applyStages_changes_eq_nil_iff.mp h
  clear h
  induction rules with
  | nil => rfl
  | cons r rules ih =>
      obtain ⟨hr, hrules⟩ := List.forall_mem_cons.mp hnone
      rw [applyStages, hr]
      exact ih hrules

/-! ## Passes -/

variable [Scalar K]

namespace Expr

/-- A pass over addends is a pass over each term, and its account is the accounts of the terms in
order. -/
theorem passAddends_eq (as : List (Addend (Expr K))) : passAddends as =
    (as.map (Addend.map fun e => e.pass.1), (as.map Addend.expr).flatMap fun e => e.pass.2) := by
  induction as with
  | nil => rfl
  | cons a as ih =>
      rw [passAddends, ih]
      rfl

/-- A pass over factors is a pass over each of them, and its account is their accounts in order. -/
theorem passFactors_eq (es : List (Expr K)) :
    passFactors es = (es.map fun e => e.pass.1, es.flatMap fun e => e.pass.2) := by
  induction es with
  | nil => rfl
  | cons e es ih =>
      rw [passFactors, ih]
      rfl

/-- A pass takes the tree with its children simplified through the stages. Its account is that of
the children, followed by that of the stages. -/
theorem exists_pass_eq (e : Expr K) : ∃ f : Expr K,
    e.pass.1 = (applyStages stages f).1 ∧
      e.pass.2 = (e.children.flatMap fun c => c.pass.2) ++ (applyStages stages f).2 ∧
      ((∀ c ∈ e.children, c.pass.1 = c) → f = e) := by
  cases e with
  | number | constant | var => exact ⟨_, rfl, rfl, fun _ => rfl⟩
  | sum as =>
      rw [pass, passAddends_eq]
      refine ⟨_, rfl, rfl, fun h => congrArg sum ?_⟩
      refine (List.map_congr_left fun a ha => ?_).trans (List.map_id as)
      exact congrArg (Addend.mk · a.subtract) (h a.expr (List.mem_map_of_mem ha))
  | product es =>
      rw [pass, passFactors_eq]
      refine ⟨_, rfl, rfl, fun h => congrArg product ?_⟩
      exact (List.map_congr_left h).trans (List.map_id es)
  | quotient a b =>
      refine ⟨quotient a.pass.1 b.pass.1, rfl, by simp [pass, finishNode, children], fun h => ?_⟩
      rw [h a (by simp [children]), h b (by simp [children])]
  | power a b =>
      refine ⟨power a.pass.1 b.pass.1, rfl, by simp [pass, finishNode, children], fun h => ?_⟩
      rw [h a (by simp [children]), h b (by simp [children])]
  | call f a =>
      refine ⟨call f a.pass.1, rfl, by simp [pass, finishNode, children], fun h => ?_⟩
      rw [h a (by simp [children])]

/-- A pass changes nothing if and only if its account is empty. -/
theorem pass_changes_eq_nil_iff [UnitLaws K] {e : Expr K} : e.pass.2 = [] ↔ e.pass.1 = e := by
  -- induction over the tree: what holds of the children decides whether the stages see the tree
  -- itself
  induction e using children_induction with
  | _ e ih =>
    obtain ⟨f, hresult, haccount, hf⟩ := exists_pass_eq e
    refine ⟨fun h => ?_, fun h => ?_⟩
    · rw [haccount] at h
      rw [hresult]
      obtain ⟨hbelow, hroot⟩ := List.append_eq_nil_iff.mp h
      obtain rfl := hf fun c hc => (ih c hc).mp (List.flatMap_eq_nil_iff.mp hbelow c hc)
      exact applyStages_of_changes_eq_nil hroot
    -- a rule that took weight off would leave its mark on the result, whatever the stages after it
    -- do
    · obtain ⟨hroot, hbelow⟩ := stages_eq_of_pass_eq h
      obtain rfl := hf hbelow
      rw [haccount]
      refine List.append_eq_nil_iff.mpr ⟨List.flatMap_eq_nil_iff.mpr fun c hc => ?_, ?_⟩
      · exact (ih c hc).mpr (hbelow c hc)
      · exact applyStages_changes_eq_nil_iff.mpr
          (replace?_eq_none (fun _ hr => Rule.stages_lightening hr) hroot)

/-- The steps that a pass over the tree takes, one for each change. -/
def passSteps (e : Expr K) : List Step := e.pass.2.map Change.step

/-- A pass takes no step if and only if it leaves the tree structurally as it is. -/
theorem passSteps_eq_nil_iff [UnitLaws K] {e : Expr K} :
    e.passSteps = [] ↔ (e.pass.1 == e) = true := by
  rw [passSteps, List.map_eq_nil_iff, pass_changes_eq_nil_iff]
  exact ⟨fun h => h.symm ▸ Alike.refl e, pass_eq_of_alike⟩

end Expr

/-! ## The loop over passes -/

/-- A simplification that reached a fixed point took steps in every pass but the last one. -/
theorem steps_simplifyFrom [UnitLaws K] {limits : SimplifyLimits} {left done k : Nat} {e : Expr K}
    (h : (simplifyFrom limits left done e).outcome = .fixedPoint k) :
    ∃ n, k = done + (n + 1) ∧
      (simplifyFrom limits left done e).result = e.afterPasses (n + 1) ∧
      (simplifyFrom limits left done e).steps =
        (List.range (n + 1)).flatMap (fun i => (e.afterPasses i).passSteps) ∧
      (e.afterPasses n).passSteps = [] ∧ ∀ i < n, (e.afterPasses i).passSteps ≠ [] := by
  -- induction on the passes that are left: `n` counts the passes that change the tree
  induction left generalizing done e with
  | zero => cases h
  | succ left ih =>
      obtain ⟨halike, hround⟩ | ⟨nodes, max, hround⟩ | ⟨hne, hround⟩ :=
        simplifyFrom_cases limits left done e
      · rw [hround] at h ⊢
        cases h
        refine ⟨0, rfl, rfl, ?_, passSteps_eq_nil_iff.mpr halike, by simp⟩
        simp [SimplifyReport.steps, afterPasses, passSteps]
      · rw [hround] at h
        cases h
      · rw [hround] at h ⊢
        obtain ⟨n, hk, hresult, hsteps, hlast, hbefore⟩ := ih h
        refine ⟨n + 1, by omega, hresult, ?_, hlast, fun i hi => ?_⟩
        · rw [List.range_succ_eq_map, List.flatMap_cons, List.flatMap_map]
          exact List.map_append.trans (congrArg (e.passSteps ++ ·) hsteps)
        · cases i with
          | zero => exact mt passSteps_eq_nil_iff.mp hne
          | succ i => exact hbefore i (Nat.lt_of_succ_lt_succ hi)

/-- **The account of the steps is exact.** A pass takes no step if and only if it leaves the tree
structurally as it is. A simplification that reached a fixed point reports the steps of its passes
one pass after the other. It took none in the last pass, and some in every pass before it. -/
theorem steps_exact [UnitLaws K] :
    (∀ e : Expr K, (e.pass.1 == e) = true ↔ e.passSteps = []) ∧
    ∀ (limits : SimplifyLimits) (e : Expr K) (k : Nat),
      (simplifyReport limits e).outcome = .fixedPoint k →
      ∃ n, k = n + 1 ∧ simplify limits e = e.afterPasses (n + 1) ∧
        (simplifyReport limits e).steps =
          (List.range (n + 1)).flatMap (fun i => (e.afterPasses i).passSteps) ∧
        (e.afterPasses n).passSteps = [] ∧ ∀ i < n, (e.afterPasses i).passSteps ≠ [] := by
  refine ⟨fun e => passSteps_eq_nil_iff.symm, fun limits e k houtcome => ?_⟩
  obtain ⟨n, hk, h⟩ := steps_simplifyFrom houtcome
  exact ⟨n, hk.trans (Nat.zero_add _), h⟩

/-- The sum `e ^ (ln(1) * x) - NaN` of doubles takes two passes with steps and one without. -/
theorem steps_exact_undefined :
    let e : Expr Float := .sum
      [.plus (.power (.constant .e) (.product [.call .ln (.number 1), .var "x"])),
        .minus (.number (0 / 0))]
    (simplifyReport {} e).outcome = .fixedPoint 3 ∧
      ((e.pass.1 == e) = true ↔ e.passSteps = []) ∧
      ∃ n, 3 = n + 1 ∧ simplify {} e = e.afterPasses (n + 1) ∧
        (simplifyReport {} e).steps =
          (List.range (n + 1)).flatMap (fun i => (e.afterPasses i).passSteps) ∧
        (e.afterPasses n).passSteps = [] ∧ ∀ i < n, (e.afterPasses i).passSteps ≠ [] := by
  intro e
  have houtcome : (simplifyReport {} e).outcome = .fixedPoint 3 := by decide +kernel
  obtain ⟨hpass, hsimplify⟩ := steps_exact (K := Float)
  exact ⟨houtcome, hpass e, hsimplify {} e 3 houtcome⟩

end SymbolicCalculus
