import SymbolicCalculus.Simplify.Simplify

/-!
# Rounds of the loop over passes

A round of `simplifyFrom` makes one pass. Then the loop ends, because the pass changed nothing
structurally or because there are too many nodes, or it goes on with the tree that the pass made.
Each way has its equation, and `simplifyFrom_cases` says that there is no other. What is shown of
the loop is shown by induction on the passes that are left, with these cases.
-/

namespace SymbolicCalculus

variable {K : Type}

/-- There is no excess if no limit is below the number of nodes. -/
theorem excessNodes?_eq_none_iff {nodes : Option Nat} {e : Expr K} :
    excessNodes? nodes e = none ↔ ¬ ∃ max ∈ nodes, max < e.nodeCount := by
  cases nodes <;> simp [excessNodes?]

variable [Scalar K] {limits : SimplifyLimits} {left done : Nat} {e : Expr K}

/-- The loop ends with a pass that changes nothing structurally. -/
theorem simplifyFrom_of_beq (h : (e.pass.1 == e) = true) :
    simplifyFrom limits (left + 1) done e = ⟨e.pass.1, e.pass.2, .fixedPoint (done + 1)⟩ := by
  rw [simplifyFrom]
  exact if_pos h

/-- The loop ends with a pass that changes something and makes too many nodes. -/
theorem simplifyFrom_of_excess (h : ¬ (e.pass.1 == e) = true) {nodes max : Nat}
    (hexcess : excessNodes? limits.nodes e.pass.1 = some (nodes, max)) :
    simplifyFrom limits (left + 1) done e =
      ⟨e.pass.1, e.pass.2, .tooManyNodes (done + 1) nodes max⟩ := by
  rw [simplifyFrom]
  dsimp only
  rw [if_neg h, hexcess]

/-- The loop goes on after any other pass. -/
theorem simplifyFrom_of_not_beq (h : ¬ (e.pass.1 == e) = true)
    (hnodes : excessNodes? limits.nodes e.pass.1 = none) :
    simplifyFrom limits (left + 1) done e =
      ⟨(simplifyFrom limits left (done + 1) e.pass.1).result,
        e.pass.2 ++ (simplifyFrom limits left (done + 1) e.pass.1).changes,
        (simplifyFrom limits left (done + 1) e.pass.1).outcome⟩ := by
  rw [simplifyFrom]
  dsimp only
  rw [if_neg h, hnodes]

/-- One round of the loop. -/
theorem simplifyFrom_cases (limits : SimplifyLimits) (left done : Nat) (e : Expr K) :
    ((e.pass.1 == e) = true ∧ simplifyFrom limits (left + 1) done e =
      ⟨e.pass.1, e.pass.2, .fixedPoint (done + 1)⟩) ∨
    (∃ nodes max, simplifyFrom limits (left + 1) done e =
      ⟨e.pass.1, e.pass.2, .tooManyNodes (done + 1) nodes max⟩) ∨
    (¬ (e.pass.1 == e) = true ∧ simplifyFrom limits (left + 1) done e =
      ⟨(simplifyFrom limits left (done + 1) e.pass.1).result,
        e.pass.2 ++ (simplifyFrom limits left (done + 1) e.pass.1).changes,
        (simplifyFrom limits left (done + 1) e.pass.1).outcome⟩) := by
  -- the tree is compared before its nodes are counted
  by_cases h : (e.pass.1 == e) = true
  · exact Or.inl ⟨h, simplifyFrom_of_beq h⟩
  · cases hnodes : excessNodes? limits.nodes e.pass.1 with
    | none => exact Or.inr (Or.inr ⟨h, simplifyFrom_of_not_beq h hnodes⟩)
    | some excess => exact Or.inr (Or.inl ⟨_, _, simplifyFrom_of_excess h hnodes⟩)

end SymbolicCalculus
