import SymbolicCalculus.Grammar.Operand
import SymbolicCalculus.Proofs.Expr.Normal
import SymbolicCalculus.Proofs.Scalar.Literals

/-!
# Well-formed expressions

What later steps rely on without a check: sums and products have at least two entries and are not
nested, no sum begins with a subtracted addend, and the only sign is the factor minus one.

The normal form of a node is well formed if those of its parts are (`WellFormed.node`).
-/

namespace SymbolicCalculus.Expr

variable {K : Type} [Scalar K]

/-- The lists of the expression have at least two entries, none of which is a list of the same kind.
No sum begins with a subtracted addend. Numbers are plain, but for minus one as a factor. Variables
have names that formulas can write and that are not those of constants. -/
inductive WellFormed : Expr K → Prop
  | number {v : K} : Scalar.IsPlain v → WellFormed (number v)
  | constant (c : Constant) : WellFormed (constant c)
  | var {name : String} : isVariableName name = true → Constant.ofName? name = none →
      WellFormed (var name)
  | sum {addends : List (Addend (Expr K))} : 2 ≤ addends.length →
      (∀ a ∈ addends.head?, a.subtract = false) → (∀ a ∈ addends, a.expr.isSum = false) →
      (∀ a ∈ addends, WellFormed a.expr) → WellFormed (sum addends)
  | product {factors : List (Expr K)} : 2 ≤ factors.length →
      (∀ e ∈ factors, e.isProduct = false) →
      (∀ e ∈ factors, e ≠ number Scalar.minusOne → WellFormed e) → WellFormed (product factors)
  | quotient {a b : Expr K} : WellFormed a → WellFormed b → WellFormed (quotient a b)
  | power {a b : Expr K} : WellFormed a → WellFormed b → WellFormed (power a b)
  | call {f : Fn} {a : Expr K} : WellFormed a → WellFormed (call f a)

namespace WellFormed

/-! ## Entries -/

/-- The addends may stand in a well-formed sum. -/
structure Addends (as : List (Addend (Expr K))) : Prop where
  ne_nil : as ≠ []
  not_isSum : ∀ a ∈ as, a.expr.isSum = false
  entries : ∀ a ∈ as, a.expr.WellFormed

/-- The factors may stand in a well-formed product. -/
structure Factors (es : List (Expr K)) : Prop where
  ne_nil : es ≠ []
  not_isProduct : ∀ e ∈ es, e.isProduct = false
  entries : ∀ e ∈ es, e ≠ .number Scalar.minusOne → e.WellFormed

variable {e f : Expr K}

/-- A well-formed expression may be spliced into a sum. -/
theorem addends (h : e.WellFormed) (s : Bool) : Addends (e.asAddends s) := by
  -- what is no sum is one term, and a sum gives its own terms
  cases hsum : e.isSum with
  | false =>
      rw [asAddends_of_isSum_eq_false hsum]
      exact ⟨List.cons_ne_nil _ _, List.forall_mem_singleton.mpr hsum,
        List.forall_mem_singleton.mpr h⟩
  | true =>
      obtain ⟨as, rfl⟩ := exists_of_isSum hsum
      cases h with
      | sum hlength _ hflat hentries =>
      refine ⟨?_, fun a ha => ?_, fun a ha => ?_⟩
      · intro hnil
        simp [List.map_eq_nil_iff.mp hnil] at hlength
      · obtain ⟨b, hb, rfl⟩ := List.mem_map.mp ha
        exact expr_negateIf b s ▸ hflat b hb
      · obtain ⟨b, hb, rfl⟩ := List.mem_map.mp ha
        exact expr_negateIf b s ▸ hentries b hb

/-- What is added begins with an addend that is not subtracted. -/
theorem head_addends (h : e.WellFormed) : ∀ a ∈ (e.asAddends false).head?, a.subtract = false := by
  cases hsum : e.isSum with
  | false =>
      rw [asAddends_of_isSum_eq_false hsum]
      rintro a ⟨⟩
      rfl
  | true =>
      obtain ⟨as, rfl⟩ := exists_of_isSum hsum
      cases h with
      | sum _ hfirst _ _ =>
      rwa [asAddends_false_sum]

/-- A well-formed expression may be spliced into a product. -/
theorem factors (h : e.WellFormed) : Factors e.asFactors := by
  cases hproduct : e.isProduct with
  | false =>
      rw [asFactors_of_isProduct_eq_false hproduct]
      exact ⟨List.cons_ne_nil _ _, List.forall_mem_singleton.mpr hproduct,
        List.forall_mem_singleton.mpr fun _ => h⟩
  | true =>
      obtain ⟨es, rfl⟩ := exists_of_isProduct hproduct
      cases h with
      | product hlength hflat hentries =>
      refine ⟨?_, hflat, hentries⟩
      rintro rfl
      simp at hlength

/-- Minus one may stand in a well-formed product. -/
theorem factors_minusOne : Factors [(.number Scalar.minusOne : Expr K)] :=
  ⟨List.cons_ne_nil _ _, List.forall_mem_singleton.mpr rfl,
    List.forall_mem_singleton.mpr fun hne => absurd rfl hne⟩

theorem two_le_length_append {α : Type} {as bs : List α} (has : as ≠ []) (hbs : bs ≠ []) :
    2 ≤ (as ++ bs).length := by
  have hpos := List.length_pos_iff.mpr has
  have hpos' := List.length_pos_iff.mpr hbs
  rw [List.length_append]
  omega

/-- Two lists of addends make a well-formed sum if the first one begins without a minus. -/
theorem Addends.sum_append {as bs : List (Addend (Expr K))} (has : Addends as) (hbs : Addends bs)
    (hfirst : ∀ a ∈ as.head?, a.subtract = false) : (Expr.sum (as ++ bs)).WellFormed := by
  refine .sum (two_le_length_append has.ne_nil hbs.ne_nil) ?_ ?_ ?_
  · obtain ⟨a, as, rfl⟩ := List.exists_cons_of_ne_nil has.ne_nil
    exact hfirst
  · exact List.forall_mem_append.mpr ⟨has.not_isSum, hbs.not_isSum⟩
  · exact List.forall_mem_append.mpr ⟨has.entries, hbs.entries⟩

/-- Two lists of factors make a well-formed product. -/
theorem Factors.product_append {es fs : List (Expr K)} (hes : Factors es) (hfs : Factors fs) :
    (Expr.product (es ++ fs)).WellFormed :=
  .product (two_le_length_append hes.ne_nil hfs.ne_nil)
    (List.forall_mem_append.mpr ⟨hes.not_isProduct, hfs.not_isProduct⟩)
    (List.forall_mem_append.mpr ⟨hes.entries, hfs.entries⟩)

/-! ## Nodes -/

/-- The node of an operator has a well-formed normal form if its operands have. -/
theorem node (op : Operator) (he : e.normalize.WellFormed) (hf : f.normalize.WellFormed) :
    (op.node e f).normalize.WellFormed := by
  -- the lists of the operands are joined by the first three operators, and the other two make new
  -- nodes
  cases op with
  | add =>
      have hsum := (he.addends false).sum_append (hf.addends false) he.head_addends
      simpa [Operator.node, Addend.plus, normalize, normalizeAddends] using hsum
  | sub =>
      have hsum := (he.addends false).sum_append (hf.addends true) he.head_addends
      simpa [Operator.node, Addend.plus, Addend.minus, normalize, normalizeAddends] using hsum
  | mul =>
      have hproduct := he.factors.product_append hf.factors
      simpa [Operator.node, normalize, normalizeFactors] using hproduct
  | div => exact .quotient he hf
  | pow => exact .power he hf

/-- An expression with a sign has a well-formed normal form if the expression has. -/
theorem negated (he : e.normalize.WellFormed) :
    (Expr.product [.number Scalar.minusOne, e]).normalize.WellFormed := by
  have hproduct := factors_minusOne.product_append he.factors
  simpa [normalize, normalizeFactors, asFactors] using hproduct

end WellFormed

end SymbolicCalculus.Expr
