import SymbolicCalculus.Proofs.Expr.Nodes
import SymbolicCalculus.Proofs.Expr.Normal

/-!
# Depth

A sum or a product has one level more than the deepest of its entries. Neither normalizing a tree
nor collapsing it adds a level.
-/

namespace SymbolicCalculus.Expr

variable {K : Type}

/-- A bound for the depth of a sum's terms is a bound for each of them. -/
theorem addendsDepth_le_iff {as : List (Addend (Expr K))} {n : Nat} :
    addendsDepth as ≤ n ↔ ∀ a ∈ as, a.expr.depth ≤ n := by
  induction as with
  | nil => simp [addendsDepth]
  | cons a as ih => rw [addendsDepth, Nat.max_le, ih, List.forall_mem_cons]

/-- A bound for the depth of a product's factors is a bound for each of them. -/
theorem factorsDepth_le_iff {es : List (Expr K)} {n : Nat} :
    factorsDepth es ≤ n ↔ ∀ e ∈ es, e.depth ≤ n := by
  induction es with
  | nil => simp [factorsDepth]
  | cons e es ih => rw [factorsDepth, Nat.max_le, ih, List.forall_mem_cons]

theorem le_addendsDepth {as : List (Addend (Expr K))} {a : Addend (Expr K)} (h : a ∈ as) :
    a.expr.depth ≤ addendsDepth as :=
  addendsDepth_le_iff.mp (Nat.le_refl _) a h

theorem le_factorsDepth {es : List (Expr K)} {e : Expr K} (h : e ∈ es) :
    e.depth ≤ factorsDepth es :=
  factorsDepth_le_iff.mp (Nat.le_refl _) e h

/-- The deepest term of two lists is in one of them. -/
theorem addendsDepth_append (as bs : List (Addend (Expr K))) :
    addendsDepth (as ++ bs) = max (addendsDepth as) (addendsDepth bs) := by
  induction as with
  | nil => simp [addendsDepth]
  | cons a as ih => rw [List.cons_append, addendsDepth, addendsDepth, ih, Nat.max_assoc]

/-- The deepest factor of two lists is in one of them. -/
theorem factorsDepth_append (es fs : List (Expr K)) :
    factorsDepth (es ++ fs) = max (factorsDepth es) (factorsDepth fs) := by
  induction es with
  | nil => simp [factorsDepth]
  | cons e es ih => rw [List.cons_append, factorsDepth, factorsDepth, ih, Nat.max_assoc]

/-- The number of levels below a node. -/
theorem depth_eq_succ (e : Expr K) :
    ∃ k, e.depth = k + 1 ∧ ∀ child ∈ e.children, child.depth ≤ k := by
  -- for each form of node, the greatest depth of a child, or zero for a leaf
  cases e with
  | number v | constant c | var name => exact ⟨0, rfl, List.forall_mem_nil _⟩
  | sum as =>
      refine ⟨addendsDepth as, rfl, fun child hchild => ?_⟩
      obtain ⟨a, ha, rfl⟩ := List.mem_map.mp hchild
      exact le_addendsDepth ha
  | product es => exact ⟨factorsDepth es, rfl, fun _ => le_factorsDepth⟩
  | quotient a b | power a b =>
      refine ⟨max a.depth b.depth, rfl, List.forall_mem_cons.mpr ⟨Nat.le_max_left _ _, ?_⟩⟩
      exact List.forall_mem_singleton.mpr (Nat.le_max_right _ _)
  | call f a => exact ⟨a.depth, rfl, List.forall_mem_singleton.mpr (Nat.le_refl _)⟩

theorem one_le_depth (e : Expr K) : 1 ≤ e.depth := by
  obtain ⟨k, hk, -⟩ := depth_eq_succ e
  omega

/-! ## Normal forms -/

/-- Splicing a sum into another one takes a level away. -/
theorem addendsDepth_asAddends_le (e : Expr K) (s : Bool) :
    addendsDepth (e.asAddends s) ≤ e.depth := by
  cases e with
  | sum as =>
      refine addendsDepth_le_iff.mpr fun b hb => ?_
      obtain ⟨a, ha, rfl⟩ := List.mem_map.mp hb
      rw [expr_negateIf]
      exact Nat.le_succ_of_le (le_addendsDepth ha)
  | _ => exact addendsDepth_le_iff.mpr (List.forall_mem_singleton.mpr (Nat.le_refl _))

theorem factorsDepth_asFactors_le (e : Expr K) : factorsDepth e.asFactors ≤ e.depth := by
  cases e with
  | product es => exact Nat.le_succ _
  | _ => exact factorsDepth_le_iff.mpr (List.forall_mem_singleton.mpr (Nat.le_refl _))

/-- Collapsing adds no level. -/
theorem depth_collapse_le [Scalar K] (e : Expr K) : e.collapse.depth ≤ e.depth := by
  unfold collapse
  split
  · exact one_le_depth _
  · exact Nat.le_succ_of_le (Nat.le_max_left _ _)
  · exact one_le_depth _
  · exact Nat.le_succ_of_le (Nat.le_max_left _ _)
  · exact Nat.le_refl _

mutual

/-- Normalizing a tree does not deepen it. -/
theorem depth_normalize_le (e : Expr K) : e.normalize.depth ≤ e.depth := by
  match e with
  | number _ | constant _ | var _ => exact Nat.le_refl _
  | sum as => exact Nat.succ_le_succ (addendsDepth_normalizeAddends_le as)
  | product es => exact Nat.succ_le_succ (factorsDepth_normalizeFactors_le es)
  | quotient a b | power a b =>
    have ha := depth_normalize_le a
    have hb := depth_normalize_le b
    simp only [normalize, depth]
    omega
  | call f a => exact Nat.succ_le_succ (depth_normalize_le a)

theorem addendsDepth_normalizeAddends_le (as : List (Addend (Expr K))) :
    addendsDepth (normalizeAddends as) ≤ addendsDepth as := by
  match as with
  | [] => exact Nat.le_refl _
  | ⟨e, s⟩ :: as =>
    have he := Nat.le_trans (addendsDepth_asAddends_le e.normalize s) (depth_normalize_le e)
    have has := addendsDepth_normalizeAddends_le as
    rw [normalizeAddends, addendsDepth_append, addendsDepth]
    omega

theorem factorsDepth_normalizeFactors_le (es : List (Expr K)) :
    factorsDepth (normalizeFactors es) ≤ factorsDepth es := by
  match es with
  | [] => exact Nat.le_refl _
  | e :: es =>
    have he := Nat.le_trans (factorsDepth_asFactors_le e.normalize) (depth_normalize_le e)
    have hes := factorsDepth_normalizeFactors_le es
    rw [normalizeFactors, factorsDepth_append, factorsDepth]
    omega

end

end SymbolicCalculus.Expr
