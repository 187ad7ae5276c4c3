import SymbolicCalculus.Proofs.Expr.NormalForm
import SymbolicCalculus.Proofs.Grammar.Folding
import SymbolicCalculus.Scalar.Binary64

/-!
# Three ways to apply an operator

The operators on expressions splice both operands into the list that they build. `Operator.node`
builds a plain node of two entries and nests its operands. `Operand.apply`, with which the parser
builds its trees, extends a list on the left and nests what is on the right.

All of them have the same normal form. The operators commute with normalization
(`normalize_node_add` and the theorems after it), so on normalized expressions they are
normalization of the plain node, and they keep expressions normalized.
-/

namespace SymbolicCalculus.Expr

variable {K : Type}

/-! ## Normal forms of plain nodes -/

/-- Normalizing commutes with addition. -/
theorem normalize_node_add (a b : Expr K) :
    (Operator.add.node a b).normalize = a.normalize + b.normalize := by
  show sum (a.normalize.asAddends false ++ (b.normalize.asAddends false ++ [])) = _
  rw [List.append_nil]
  rfl

/-- Normalizing commutes with subtraction. -/
theorem normalize_node_sub (a b : Expr K) :
    (Operator.sub.node a b).normalize = a.normalize - b.normalize := by
  show sum (a.normalize.asAddends false ++ (b.normalize.asAddends true ++ [])) = _
  rw [List.append_nil]
  rfl

/-- Normalizing commutes with multiplication. -/
theorem normalize_node_mul (a b : Expr K) :
    (Operator.mul.node a b).normalize = a.normalize * b.normalize := by
  show product (a.normalize.asFactors ++ (b.normalize.asFactors ++ [])) = _
  rw [List.append_nil]
  rfl

theorem normalize_node_div (a b : Expr K) :
    (Operator.div.node a b).normalize = a.normalize / b.normalize := rfl

theorem normalize_node_pow (a b : Expr K) :
    (Operator.pow.node a b).normalize = a.normalize ^ b.normalize := rfl

/-- The plain node of a negation is the product with minus one. -/
theorem normalize_negated [Scalar K] (a : Expr K) :
    (product [number Scalar.minusOne, a]).normalize = -a.normalize :=
  normalize_node_mul (number Scalar.minusOne) a

/-! ## Normalized operands -/

/-- An expression is normalized if it is the normal form of another. -/
theorem normalized_of_eq_normalize {e f : Expr K} (h : e = f.normalize) :
    e.Normalized ∧ e = f.normalize :=
  ⟨h ▸ normalized_normalize f, h⟩

/-- On normalized expressions every operator gives the normal form of its plain node. On any
operands of the parser, normalized or not, `Operand.apply` gives a tree that has the normal form of
the plain node of its operator. -/
theorem operators_normalized [Scalar K] :
    (∀ a b : Expr K, a.Normalized → b.Normalized →
      ((a + b).Normalized ∧ a + b = (sum [.plus a, .plus b]).normalize) ∧
      ((a - b).Normalized ∧ a - b = (sum [.plus a, .minus b]).normalize) ∧
      ((a * b).Normalized ∧ a * b = (product [a, b]).normalize) ∧
      ((a / b).Normalized ∧ a / b = (quotient a b).normalize) ∧
      ((-a).Normalized ∧ -a = (product [number Scalar.minusOne, a]).normalize) ∧
      ((a ^ b).Normalized ∧ a ^ b = (power a b).normalize)) ∧
    ∀ (op : Operator) (l r : Operand K),
      (l.apply op r).expr.normalize = (op.node l.expr r.expr).normalize := by
  refine ⟨?_, Operand.normalize_apply⟩
  intro a b ha hb
  have hadd := normalize_node_add a b
  have hsub := normalize_node_sub a b
  have hmul := normalize_node_mul a b
  have hdiv := normalize_node_div a b
  have hneg := normalize_negated a
  have hpow := normalize_node_pow a b
  -- normalized operands are their own normal forms, so normalization can be left out
  rw [ha.normalize_eq, hb.normalize_eq] at hadd hsub hmul hdiv hpow
  rw [ha.normalize_eq] at hneg
  exact ⟨normalized_of_eq_normalize hadd.symm, normalized_of_eq_normalize hsub.symm,
    normalized_of_eq_normalize hmul.symm, normalized_of_eq_normalize hdiv.symm,
    normalized_of_eq_normalize hneg.symm, normalized_of_eq_normalize hpow.symm⟩

/-- The sum `x + y` minus an empty sum. -/
theorem operators_normalized_sub_empty :
    Normalized (sum [.plus (var "x"), .plus (var "y")] : Expr Float) ∧
    Normalized (sum [] : Expr Float) ∧
    (sum [.plus (var "x"), .plus (var "y")] - sum [] : Expr Float) =
      (sum [.plus (sum [.plus (var "x"), .plus (var "y")]), .minus (sum [])]).normalize := by
  have hsum : Normalized (sum [.plus (var "x"), .plus (var "y")] : Expr Float) := by
    apply Normalized.sum
    · exact List.forall_mem_cons.mpr ⟨rfl, List.forall_mem_singleton.mpr rfl⟩
    · exact List.forall_mem_cons.mpr ⟨.var _, List.forall_mem_singleton.mpr (.var _)⟩
  have hempty : Normalized (sum [] : Expr Float) :=
    .sum (List.forall_mem_nil _) (List.forall_mem_nil _)
  exact ⟨hsum, hempty, (operators_normalized.1 _ _ hsum hempty).2.1.2⟩

end SymbolicCalculus.Expr
