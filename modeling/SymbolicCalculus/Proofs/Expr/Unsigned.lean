import SymbolicCalculus.Proofs.Expr.Nodes
import SymbolicCalculus.Proofs.Expr.Normal
import SymbolicCalculus.Proofs.Expr.Written
import SymbolicCalculus.Proofs.Scalar.Literals

/-!
# Expressions without signs

A source in which no minus is a sign is read as an `Unsigned` expression: its numbers are what
numerals are read as, its lists have at least two entries, and no sum begins with a subtracted
addend. Such an expression is written as it is (`Unsigned.written_eq`), and its normal form has no
signs either.
-/

namespace SymbolicCalculus.Expr

variable {K : Type} [Literal K]

/-- An expression without signs and without lists of fewer than two entries. -/
inductive Unsigned : Expr K → Prop
  | number (digits places : Nat) : Unsigned (number (Literal.ofDecimal digits places))
  | constant (c : Constant) : Unsigned (constant c)
  | var {name : String} : isVariableName name = true → Constant.ofName? name = none →
      Unsigned (var name)
  | sum {addends : List (Addend (Expr K))} : 2 ≤ addends.length →
      (∀ a ∈ addends.head?, a.subtract = false) → (∀ a ∈ addends, Unsigned a.expr) →
      Unsigned (sum addends)
  | product {factors : List (Expr K)} : 2 ≤ factors.length → (∀ e ∈ factors, Unsigned e) →
      Unsigned (product factors)
  | quotient {a b : Expr K} : Unsigned a → Unsigned b → Unsigned (quotient a b)
  | power {a b : Expr K} : Unsigned a → Unsigned b → Unsigned (power a b)
  | call {f : Fn} {a : Expr K} : Unsigned a → Unsigned (call f a)

namespace Unsigned

variable {e : Expr K}

/-- A sum without signs may go on with any addend. -/
theorem sum_concat {addends : List (Addend (Expr K))} (h : (Expr.sum addends).Unsigned)
    {a : Addend (Expr K)} (ha : a.expr.Unsigned) : (Expr.sum (addends ++ [a])).Unsigned := by
  cases h with
  | sum hlength hfirst hentries =>
    refine .sum ?_ ?_ ?_
    · rw [List.length_append]
      omega
    · cases addends with
      | nil => cases hlength
      | cons b addends => exact hfirst
    · simpa [or_imp, forall_and, ha] using hentries

/-- A product without signs may go on with any factor. -/
theorem product_concat {factors : List (Expr K)} (h : (Expr.product factors).Unsigned)
    (he : e.Unsigned) : (Expr.product (factors ++ [e])).Unsigned := by
  cases h with
  | product hlength hentries =>
    refine .product ?_ ?_
    · rw [List.length_append]
      omega
    · simpa [or_imp, forall_and, he] using hentries

/-! ## What is written -/

/-- The parts of an expression without signs have no signs. -/
theorem child {child : Expr K} (h : e.Unsigned) (hchild : child ∈ e.children) :
    child.Unsigned := by
  -- one case for each form of node; the leaves have no parts
  cases h with
  | number | constant | var => cases hchild
  | sum _ _ h =>
      obtain ⟨a, ha, rfl⟩ := List.mem_map.mp hchild
      exact h a ha
  | product _ h => exact h child hchild
  | quotient ha hb | power ha hb =>
      simp only [children, List.mem_cons, List.not_mem_nil, or_false] at hchild
      rcases hchild with rfl | rfl <;> assumption
  | call h =>
      obtain rfl := List.mem_singleton.mp hchild
      exact h

/-- All nodes of an expression without signs are expressions without signs. -/
theorem node (h : e.Unsigned) : ∀ n ∈ e.postOrder, n.Unsigned :=
  forall_mem_postOrder (fun _ he _ hc => he.child hc) e h

/-- An expression without signs is written as it is. -/
theorem written_eq [Scalar K] [Literal.Laws K] (h : e.Unsigned) : e.written = e := by
  induction h with
  | number digits places =>
      rw [written, if_neg (Bool.eq_false_iff.mp (Literal.Laws.isNeg_ofDecimal digits places))]
  | constant | var => rfl
  | @sum as hlength hfirst _ ih =>
      rw [written, writtenAddends_eq ih]
      -- with two terms or more a sum does not collapse, and its first term is not subtracted
      match as, hlength with
      | ⟨e, false⟩ :: _ :: _, _ => rfl
      | ⟨e, true⟩ :: _ :: _, _ => cases hfirst ⟨e, true⟩ rfl
  | @product es hlength _ ih =>
      rw [written, writtenFactors_eq ih]
      match es, hlength with
      | _ :: _ :: _, _ => rfl
  | quotient _ _ iha ihb | power _ _ iha ihb => rw [written, iha, ihb]
  | call _ ih => rw [written, ih]

/-! ## Normal forms -/

/-- The entries that an expression without signs is in a sum. -/
theorem asAddends (h : e.Unsigned) (s : Bool) :
    e.asAddends s ≠ [] ∧ (s = false → ∀ a ∈ (e.asAddends s).head?, a.subtract = false) ∧
      ∀ a ∈ e.asAddends s, a.expr.Unsigned := by
  cases hsum : e.isSum with
  | true =>
      obtain ⟨as, rfl⟩ := exists_of_isSum hsum
      cases h with
      | sum hlength hfirst hentries =>
        refine ⟨?_, ?_, ?_⟩
        · intro hnil
          simp [List.map_eq_nil_iff.mp hnil] at hlength
        · rintro rfl
          rw [asAddends_false_sum]
          exact hfirst
        · intro a ha
          obtain ⟨b, hb, rfl⟩ := List.mem_map.mp ha
          cases s <;> exact hentries b hb
  | false =>
      rw [asAddends_of_isSum_eq_false hsum]
      refine ⟨List.cons_ne_nil _ _, ?_, ?_⟩
      · rintro hs a ha
        cases ha
        exact hs
      · intro a ha
        obtain rfl := List.mem_singleton.mp ha
        exact h

/-- The factors that an expression without signs is in a product. -/
theorem asFactors (h : e.Unsigned) :
    e.asFactors ≠ [] ∧ ∀ f ∈ e.asFactors, f.Unsigned := by
  cases hproduct : e.isProduct with
  | true =>
      obtain ⟨es, rfl⟩ := exists_of_isProduct hproduct
      cases h with
      | product hlength hentries =>
        refine ⟨?_, hentries⟩
        rintro rfl
        simp at hlength
  | false =>
      rw [asFactors_of_isProduct_eq_false hproduct]
      exact ⟨List.cons_ne_nil _ _, fun f hf => List.mem_singleton.mp hf ▸ h⟩

/-- Normalizing terms without signs gives terms without signs, and not fewer of them. -/
theorem normalizeAddends {as : List (Addend (Expr K))}
    (h : ∀ a ∈ as, a.expr.normalize.Unsigned) :
    as.length ≤ (Expr.normalizeAddends as).length ∧
      ((∀ a ∈ as.head?, a.subtract = false) →
        ∀ a ∈ (Expr.normalizeAddends as).head?, a.subtract = false) ∧
      ∀ a ∈ Expr.normalizeAddends as, a.expr.Unsigned := by
  induction as with
  | nil => simp [Expr.normalizeAddends]
  | cons a as ih =>
      obtain ⟨hlength, -, hentries⟩ := ih fun b hb => h b (List.mem_cons_of_mem a hb)
      obtain ⟨hne, hfirst, hown⟩ := (h a List.mem_cons_self).asAddends a.subtract
      have hpos := List.length_pos_iff.mpr hne
      rw [Expr.normalizeAddends]
      refine ⟨?_, ?_, ?_⟩
      · simp only [List.length_append, List.length_cons]
        omega
      -- the first entry of the result comes from the first term, which is not empty
      · intro hadded
        obtain ⟨b, bs, hcons⟩ := List.exists_cons_of_ne_nil hne
        rw [hcons, List.cons_append]
        rw [hcons] at hfirst
        exact hfirst (hadded a rfl)
      · intro b hb
        rcases List.mem_append.mp hb with hb | hb
        · exact hown b hb
        · exact hentries b hb

/-- Normalizing factors without signs gives factors without signs, and not fewer of them. -/
theorem normalizeFactors {es : List (Expr K)} (h : ∀ e ∈ es, e.normalize.Unsigned) :
    es.length ≤ (Expr.normalizeFactors es).length ∧
      ∀ e ∈ Expr.normalizeFactors es, e.Unsigned := by
  induction es with
  | nil => simp [Expr.normalizeFactors]
  | cons e es ih =>
      obtain ⟨hlength, hentries⟩ := ih fun f hf => h f (List.mem_cons_of_mem e hf)
      obtain ⟨hne, hown⟩ := (h e List.mem_cons_self).asFactors
      have hpos := List.length_pos_iff.mpr hne
      rw [Expr.normalizeFactors]
      refine ⟨?_, ?_⟩
      · simp only [List.length_append, List.length_cons]
        omega
      · intro f hf
        rcases List.mem_append.mp hf with hf | hf
        · exact hown f hf
        · exact hentries f hf

/-- The normal form of an expression without signs has no signs. -/
theorem normalize (h : e.Unsigned) : e.normalize.Unsigned := by
  induction h with
  | number digits places => exact .number digits places
  | constant c => exact .constant c
  | var hname hconstant => exact .var hname hconstant
  | sum hlength hfirst _ ih =>
      obtain ⟨hle, hadded, hentries⟩ := normalizeAddends ih
      exact .sum (Nat.le_trans hlength hle) (hadded hfirst) hentries
  | product hlength _ ih =>
      obtain ⟨hle, hentries⟩ := normalizeFactors ih
      exact .product (Nat.le_trans hlength hle) hentries
  | quotient _ _ iha ihb => exact .quotient iha ihb
  | power _ _ iha ihb => exact .power iha ihb
  | call _ ih => exact .call ih

end Unsigned

end SymbolicCalculus.Expr
