import SymbolicCalculus.Proofs.Scalar.Binary64
import SymbolicCalculus.Proofs.Simplify.Lightening
import SymbolicCalculus.Proofs.Simplify.Loop

/-!
# Passes converge

Since every rule takes weight off, a pass either changes nothing at all or makes the tree lighter.
So after no more passes than the tree weighs, a pass changes nothing, and neither does any pass
after it.
-/

namespace SymbolicCalculus

open SymbolicCalculus.Expr Scalar

variable {K : Type} [Scalar K]

namespace Expr

/-- The tree that a number of passes makes of an expression. -/
def afterPasses : Nat → Expr K → Expr K
  | 0, e => e
  | n + 1, e => afterPasses n e.pass.1

/-- One pass more may also be made at the end. -/
theorem afterPasses_succ (n : Nat) (e : Expr K) :
    e.afterPasses (n + 1) = (e.afterPasses n).pass.1 := by
  induction n generalizing e with
  | zero => rfl
  | succ n ih => exact ih e.pass.1

/-- Once a pass changes nothing, no later pass does. -/
theorem afterPasses_of_pass_eq {e : Expr K} (h : e.pass.1 = e) (n : Nat) :
    e.afterPasses n = e := by
  induction n with
  | zero => rfl
  | succ n ih => rw [afterPasses, h, ih]

/-- Passes may be made in two portions. -/
theorem afterPasses_add (m n : Nat) (e : Expr K) :
    e.afterPasses (m + n) = (e.afterPasses m).afterPasses n := by
  induction m generalizing e with
  | zero => rw [Nat.zero_add, afterPasses]
  | succ m ih => rw [Nat.succ_add, afterPasses, afterPasses, ih]

variable [UnitLaws K]

/-- A pass changes nothing or takes weight off. -/
theorem pass_lightens (e : Expr K) : Lightens e e.pass.1 :=
  rel_pass Lightens.isRewriting (fun _ hr e e' h => Or.inr (Rule.stages_lightening hr e e' h)) e

/-- A pass that leaves a tree structurally as it is changes nothing. -/
theorem pass_eq_of_alike {e : Expr K} (h : Alike e.pass.1 e) : e.pass.1 = e :=
  (pass_lightens e).resolve_right h.not_lighter

/-- As many passes as the tree weighs reach one that does not change. -/
theorem exists_pass_afterPasses_eq (e : Expr K) :
    ∃ n ≤ e.weight, (e.afterPasses n).pass.1 = e.afterPasses n := by
  -- the weight of the tree bounds how many passes can still take weight off
  induction hw : e.weight using Nat.strongRecOn generalizing e with
  | _ w ih =>
      subst hw
      rcases pass_lightens e with heq | hlt
      · exact ⟨0, Nat.zero_le _, heq⟩
      · obtain ⟨n, hn, hpass⟩ := ih _ hlt.1 e.pass.1 rfl
        exact ⟨n + 1, Nat.le_trans (Nat.succ_le_succ hn) hlt.1, hpass⟩

end Expr

/-! ## The loop over passes -/

/-- Without a limit of nodes, the loop ends at the latest with the first pass that changes
nothing, if it may make so many passes. -/
theorem simplifyFrom_fixedPoint [UnitLaws K] {limits : SimplifyLimits}
    (hnodes : limits.nodes = none) {left n : Nat} (hn : n < left) (done : Nat) {e : Expr K}
    (hpass : (e.afterPasses n).pass.1 = e.afterPasses n) :
    ∃ k ≤ n + 1, (simplifyFrom limits left done e).outcome = .fixedPoint (done + k) := by
  -- induction on the passes that are left: a pass that changes the tree uses up one of them and one
  -- of the `n`
  induction left generalizing n done e with
  | zero => omega
  | succ left ih =>
      by_cases halike : Alike e.pass.1 e
      · rw [simplifyFrom_of_beq halike]
        exact ⟨1, by omega, rfl⟩
      · have hnone : excessNodes? limits.nodes e.pass.1 = none := by
          rw [hnodes]
          rfl
        rw [simplifyFrom_of_not_beq halike hnone]
        cases n with
        | zero =>
            -- a pass that changes nothing is seen by the test that ends the loop
            have heq : e.pass.1 = e := hpass
            exact absurd (heq.symm ▸ Alike.refl e) halike
        | succ n =>
            obtain ⟨k, hk, houtcome⟩ := ih (Nat.lt_of_succ_lt_succ hn) (done + 1) hpass
            exact ⟨k + 1, by omega, by rw [houtcome, Nat.add_assoc, Nat.add_comm 1]⟩

/-- A simplification that ended because a pass changed nothing ended with a tree that no pass
changes. -/
theorem pass_simplifyFrom_eq [UnitLaws K] {limits : SimplifyLimits} {left done : Nat} {e : Expr K}
    {k : Nat} (h : (simplifyFrom limits left done e).outcome = .fixedPoint k) :
    (simplifyFrom limits left done e).result.pass.1 = (simplifyFrom limits left done e).result := by
  -- induction on the passes that are left; only the case of an unchanged tree ends at a fixed point
  induction left generalizing done e with
  | zero => cases h
  | succ left ih =>
      obtain ⟨halike, hround⟩ | ⟨nodes, max, hround⟩ | ⟨-, hround⟩ :=
        simplifyFrom_cases limits left done e
      · rw [hround]
        have hpass := pass_eq_of_alike halike
        exact congrArg (fun f => f.pass.1) hpass
      · rw [hround] at h
        cases h
      · rw [hround] at h ⊢
        exact ih h

/-- A simplification that reached a fixed point ended with a tree that no pass changes. -/
theorem pass_simplify_eq [UnitLaws K] {limits : SimplifyLimits} {e : Expr K} {k : Nat}
    (h : (simplifyReport limits e).outcome = .fixedPoint k) :
    (simplify limits e).pass.1 = simplify limits e :=
  pass_simplifyFrom_eq h

/-- A tree that no pass changes is not changed by simplification. -/
theorem simplify_of_pass_eq [UnitLaws K] {e : Expr K} (h : e.pass.1 = e)
    (limits : SimplifyLimits) : simplify limits e = e := by
  rw [simplify, simplifyReport]
  cases limits.passes with
  | zero => rfl
  | succ left =>
      rw [simplifyFrom_of_beq (h.symm ▸ Alike.refl e)]
      exact h

/-- **Rewriting converges.** After some number of passes, a pass leaves every tree as it is, and so
do all passes after it. A simplification without a limit of nodes that may make so many passes
ends because a pass changes nothing. -/
theorem simplify_converges [UnitLaws K] (e : Expr K) :
    ∃ n, (e.afterPasses (n + 1) == e.afterPasses n) = true ∧
      (∀ m ≥ n, e.afterPasses m = e.afterPasses n) ∧
      ∀ limits : SimplifyLimits, limits.nodes = none → n < limits.passes →
        ∃ k ≤ n + 1, (simplifyReport limits e).outcome = .fixedPoint k := by
  obtain ⟨n, -, hpass⟩ := exists_pass_afterPasses_eq e
  refine ⟨n, ?_, fun m hm => ?_, fun limits hnodes hn => ?_⟩
  · rw [afterPasses_succ, hpass]
    exact Alike.refl _
  · obtain ⟨d, rfl⟩ := Nat.exists_eq_add_of_le hm
    rw [afterPasses_add, afterPasses_of_pass_eq hpass]
  · have hloop := simplifyFrom_fixedPoint hnodes hn 0 hpass
    simpa only [simplifyReport, Nat.zero_add] using hloop

/-- Passes over doubles converge, here for a tree with an undefined and an infinite number, both
zeros, a lone subtracted term and an empty sum. -/
theorem simplify_converges_undefined :
    let e : Expr Float := .product [.number (0 / 0), .sum [.minus (.var "x")],
      .quotient (.sum []) (.product [.number (1 / 0), .number (-0), .var "x"])]
    ∃ n, (e.afterPasses (n + 1) == e.afterPasses n) = true ∧
      (∀ m ≥ n, e.afterPasses m = e.afterPasses n) ∧
      ∀ limits : SimplifyLimits, limits.nodes = none → n < limits.passes →
        ∃ k ≤ n + 1, (simplifyReport limits e).outcome = .fixedPoint k :=
  simplify_converges _

end SymbolicCalculus
