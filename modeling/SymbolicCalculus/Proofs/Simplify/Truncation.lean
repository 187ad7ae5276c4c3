import Mathlib.Order.Bounds.Basic
import SymbolicCalculus.Proofs.Simplify.Convergence

/-!
# Limits only cut a simplification short

The loop over passes returns one of the trees that repeated passes make, the first of them at which
it has a reason to stop (`exists_simplifyFrom_result`). Where the number of nodes is not limited,
the only reason is a pass that changes nothing, and no pass after it would change anything. So the
result is that of all passes that were allowed (`simplify_of_nodes_none`), and a simplification may
be interrupted and taken up again.
-/

namespace SymbolicCalculus

open SymbolicCalculus.Expr Scalar

variable {K : Type} [Scalar K]

/-- There is a reason to stop after so many passes: the last of them left the tree structurally as
it was, or made one of more nodes than are allowed. -/
def Expr.StopsAfter (e : Expr K) (nodes : Option Nat) : Nat → Prop
  | 0 => False
  | i + 1 => (e.afterPasses (i + 1) == e.afterPasses i) = true ∨
      ∃ max ∈ nodes, max < (e.afterPasses (i + 1)).nodeCount

theorem Expr.StopsAfter.exists_eq_succ {e : Expr K} {nodes : Option Nat} {i : Nat}
    (h : e.StopsAfter nodes i) : ∃ j, i = j + 1 := by
  cases i with
  | zero => cases h
  | succ j => exact ⟨j, rfl⟩

/-! ## One pass -/

variable {limits : SimplifyLimits} {left done : Nat} {e : Expr K}

/-- Where the first pass is a reason to stop, the loop returns what it made. -/
theorem result_simplifyFrom_of_stopsAfter (h : e.StopsAfter limits.nodes 1) :
    (simplifyFrom limits (left + 1) done e).result = e.pass.1 := by
  by_cases hbeq : (e.pass.1 == e) = true
  · rw [simplifyFrom_of_beq hbeq]
  · cases hexcess : excessNodes? limits.nodes e.pass.1 with
    | none => exact absurd (h.resolve_left hbeq) (excessNodes?_eq_none_iff.mp hexcess)
    | some excess => rw [simplifyFrom_of_excess hbeq hexcess]

/-- Where it is none, the loop goes on with what it made. -/
theorem result_simplifyFrom_of_not_stopsAfter (h : ¬ e.StopsAfter limits.nodes 1) :
    (simplifyFrom limits (left + 1) done e).result =
      (simplifyFrom limits left (done + 1) e.pass.1).result := by
  obtain ⟨hne, hnodes⟩ := not_or.mp h
  rw [simplifyFrom_of_not_beq hne (excessNodes?_eq_none_iff.mpr hnodes)]

/-- Where the first pass is no reason to stop, the tree it makes has the same reasons, one pass
earlier. -/
theorem stopsAfter_succ {nodes : Option Nat} (h : ¬ e.StopsAfter nodes 1) (i : Nat) :
    e.StopsAfter nodes (i + 1) ↔ e.pass.1.StopsAfter nodes i := by
  cases i with
  | zero => exact iff_of_false h id
  | succ i => rfl

/-! ## The loop over passes -/

/-- The loop stops after the first pass at which it has to, and after the last one it may make if
there is none. -/
theorem exists_simplifyFrom_result (limits : SimplifyLimits) (left done : Nat) (e : Expr K) :
    ∃ k, (simplifyFrom limits left done e).result = e.afterPasses k ∧
      (IsLeast {i | i ≤ left ∧ e.StopsAfter limits.nodes i} k ∨
        k = left ∧ ∀ i ≤ left, ¬ e.StopsAfter limits.nodes i) := by
  -- induction on the passes that are left; the reasons to stop move by one pass with every round
  induction left generalizing done e with
  | zero =>
      refine ⟨0, rfl, Or.inr ⟨rfl, fun i hi hstops => ?_⟩⟩
      obtain ⟨i, rfl⟩ := hstops.exists_eq_succ
      exact Nat.not_succ_le_zero i hi
  | succ left ih =>
      by_cases hstop : e.StopsAfter limits.nodes 1
      -- the first pass stops the loop, and none can stop it earlier
      · refine ⟨1, result_simplifyFrom_of_stopsAfter hstop, Or.inl ⟨⟨by omega, hstop⟩, ?_⟩⟩
        rintro i ⟨-, hstops⟩
        obtain ⟨i, rfl⟩ := hstops.exists_eq_succ
        exact Nat.le_add_left 1 i
      · have hshift := stopsAfter_succ hstop
        obtain ⟨k, hresult, hk⟩ := ih (done + 1) e.pass.1
        refine ⟨k + 1, (result_simplifyFrom_of_not_stopsAfter hstop).trans hresult, ?_⟩
        rcases hk with ⟨⟨hle, hself⟩, hleast⟩ | ⟨rfl, hnone⟩
        · refine Or.inl ⟨⟨Nat.succ_le_succ hle, (hshift k).mpr hself⟩, ?_⟩
          rintro i ⟨hi, hstops⟩
          obtain ⟨i, rfl⟩ := hstops.exists_eq_succ
          exact Nat.succ_le_succ (hleast ⟨Nat.le_of_succ_le_succ hi, (hshift i).mp hstops⟩)
        · refine Or.inr ⟨rfl, fun i hi hstops => ?_⟩
          obtain ⟨i, rfl⟩ := hstops.exists_eq_succ
          exact hnone i (Nat.le_of_succ_le_succ hi) ((hshift i).mp hstops)

/-- Without a limit of nodes, all passes that are allowed count. -/
theorem simplify_of_nodes_none [UnitLaws K] (passes : Nat) (e : Expr K) :
    simplify ⟨passes, none⟩ e = e.afterPasses passes := by
  obtain ⟨k, hresult, ⟨⟨hk, hstops⟩, -⟩ | ⟨rfl, -⟩⟩ :=
    exists_simplifyFrom_result ⟨passes, none⟩ passes 0 e
  · obtain ⟨k, rfl⟩ := hstops.exists_eq_succ
    obtain halike | ⟨max, hmax, -⟩ := hstops
    · -- the pass that changed nothing is followed by others that change nothing
      rw [afterPasses_succ] at halike hresult
      have hpass := pass_eq_of_alike halike
      obtain ⟨d, rfl⟩ := Nat.exists_eq_add_of_le (Nat.le_of_succ_le hk)
      refine hresult.trans ?_
      rw [afterPasses_add, afterPasses_of_pass_eq hpass, hpass]
    · cases hmax
  · exact hresult

/-- **Limits only cut a simplification short.** Its result is the tree after `k` passes, where `k`
is the least number of passes after which it stops, because the last one changed nothing
structurally or there are too many nodes, and the greatest number of passes if there is none.
Without a limit of nodes, going on after `n` passes for `m` more gives structurally the same as
`n + m` passes at once. -/
theorem simplify_truncates [UnitLaws K] (e : Expr K) :
    (∀ limits : SimplifyLimits, ∃ k, simplify limits e = e.afterPasses k ∧
      (IsLeast {i | i ≤ limits.passes ∧ e.StopsAfter limits.nodes i} k ∨
        k = limits.passes ∧ ∀ i ≤ limits.passes, ¬ e.StopsAfter limits.nodes i)) ∧
    ∀ n m : Nat,
      (simplify ⟨m, none⟩ (simplify ⟨n, none⟩ e) == simplify ⟨n + m, none⟩ e) = true := by
  refine ⟨fun limits => exists_simplifyFrom_result limits limits.passes 0 e, fun n m => ?_⟩
  rw [simplify_of_nodes_none, simplify_of_nodes_none, simplify_of_nodes_none, ← afterPasses_add]
  exact Alike.refl _

/-- The power `e ^ (ln(1) * x)` of doubles takes two passes. A limit of two nodes stops it after the
first, and it may be interrupted there. -/
theorem simplify_truncates_power :
    let e : Expr Float := .power (.constant .e) (.product [.call .ln (.number 1), .var "x"])
    (∃ k, simplify ⟨10, some 2⟩ e = e.afterPasses k ∧
      (IsLeast {i | i ≤ 10 ∧ e.StopsAfter (some 2) i} k ∨
        k = 10 ∧ ∀ i ≤ 10, ¬ e.StopsAfter (some 2) i)) ∧
      (simplify ⟨1, none⟩ (simplify ⟨1, none⟩ e) == simplify ⟨2, none⟩ e) = true := by
  intro e
  exact ⟨(simplify_truncates e).1 ⟨10, some 2⟩, (simplify_truncates e).2 1 1⟩

end SymbolicCalculus
