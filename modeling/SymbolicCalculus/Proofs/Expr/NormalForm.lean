import SymbolicCalculus.Expr.Traversal
import SymbolicCalculus.Proofs.Expr.Normal

/-!
# The shape of normal forms

An expression is normalized if it has no sum directly in a sum and no product directly in a product.
Normal forms are normalized, and normalized expressions are their own normal forms.

Normalizing takes only lists apart. So the leaves and calls of an expression stay where they are
from left to right (`landmarks_normalize`), and no node is added (`nodeCount_normalize_le`).
-/

namespace SymbolicCalculus.Expr

variable {K : Type}

/-! ## Normalized expressions -/

/-- No sum stands directly in a sum, and no product directly in a product. -/
inductive Normalized : Expr K → Prop
  | number (v : K) : Normalized (number v)
  | constant (c : Constant) : Normalized (constant c)
  | var (name : String) : Normalized (var name)
  | sum {addends : List (Addend (Expr K))} : (∀ a ∈ addends, a.expr.isSum = false) →
      (∀ a ∈ addends, Normalized a.expr) → Normalized (sum addends)
  | product {factors : List (Expr K)} : (∀ e ∈ factors, e.isProduct = false) →
      (∀ e ∈ factors, Normalized e) → Normalized (product factors)
  | quotient {a b : Expr K} : Normalized a → Normalized b → Normalized (quotient a b)
  | power {a b : Expr K} : Normalized a → Normalized b → Normalized (power a b)
  | call {a : Expr K} (f : Fn) : Normalized a → Normalized (call f a)

namespace Normalized

variable {e : Expr K}

/-- A normalized expression may be spliced into a sum. -/
theorem asAddends (h : e.Normalized) (s : Bool) :
    ∀ a ∈ e.asAddends s, a.expr.isSum = false ∧ a.expr.Normalized := by
  cases hsum : e.isSum with
  | false =>
      rw [asAddends_of_isSum_eq_false hsum]
      exact List.forall_mem_singleton.mpr ⟨hsum, h⟩
  | true =>
      obtain ⟨as, rfl⟩ := exists_of_isSum hsum
      cases h with
      | sum hflat hentries =>
      intro a ha
      -- the entries of the sum have their signs flipped, which does not change what they are
      obtain ⟨b, hb, rfl⟩ := List.mem_map.mp ha
      rw [expr_negateIf]
      exact ⟨hflat b hb, hentries b hb⟩

/-- A normalized expression may be spliced into a product. -/
theorem asFactors (h : e.Normalized) :
    ∀ f ∈ e.asFactors, f.isProduct = false ∧ f.Normalized := by
  cases hproduct : e.isProduct with
  | false =>
      rw [asFactors_of_isProduct_eq_false hproduct]
      exact List.forall_mem_singleton.mpr ⟨hproduct, h⟩
  | true =>
      obtain ⟨es, rfl⟩ := exists_of_isProduct hproduct
      cases h with
      | product hflat hentries => exact fun f hf => ⟨hflat f hf, hentries f hf⟩

end Normalized

mutual

/-- Normal forms are normalized. -/
theorem normalized_normalize (e : Expr K) : e.normalize.Normalized := by
  match e with
  | number v => exact .number v
  | constant c => exact .constant c
  | var name => exact .var name
  | sum as =>
    have has := normalized_normalizeAddends as
    exact .sum (fun a ha => (has a ha).1) fun a ha => (has a ha).2
  | product es =>
    have hes := normalized_normalizeFactors es
    exact .product (fun e he => (hes e he).1) fun e he => (hes e he).2
  | quotient a b => exact .quotient (normalized_normalize a) (normalized_normalize b)
  | power a b => exact .power (normalized_normalize a) (normalized_normalize b)
  | call f a => exact .call f (normalized_normalize a)

/-- The entries of a normalized sum are normalized, and none of them is a sum. -/
theorem normalized_normalizeAddends (as : List (Addend (Expr K))) :
    ∀ a ∈ normalizeAddends as, a.expr.isSum = false ∧ a.expr.Normalized := by
  match as with
  | [] => exact List.forall_mem_nil _
  | ⟨e, s⟩ :: as =>
    exact List.forall_mem_append.mpr
      ⟨(normalized_normalize e).asAddends s, normalized_normalizeAddends as⟩

/-- The entries of a normalized product are normalized, and none of them is a product. -/
theorem normalized_normalizeFactors (es : List (Expr K)) :
    ∀ e ∈ normalizeFactors es, e.isProduct = false ∧ e.Normalized := by
  match es with
  | [] => exact List.forall_mem_nil _
  | e :: es =>
    exact List.forall_mem_append.mpr
      ⟨(normalized_normalize e).asFactors, normalized_normalizeFactors es⟩

end

/-- Addends without a sum among them are left alone. -/
theorem normalizeAddends_eq {as : List (Addend (Expr K))}
    (hflat : ∀ a ∈ as, a.expr.isSum = false) (h : ∀ a ∈ as, a.expr.normalize = a.expr) :
    normalizeAddends as = as := by
  induction as with
  | nil => rfl
  | cons a as ih =>
      obtain ⟨ha, has⟩ := List.forall_mem_cons.mp h
      obtain ⟨hasum, hassum⟩ := List.forall_mem_cons.mp hflat
      rw [normalizeAddends, ha, asAddends_of_isSum_eq_false hasum, ih hassum has]
      rfl

/-- Factors without a product among them are left alone. -/
theorem normalizeFactors_eq {es : List (Expr K)}
    (hflat : ∀ e ∈ es, e.isProduct = false) (h : ∀ e ∈ es, e.normalize = e) :
    normalizeFactors es = es := by
  induction es with
  | nil => rfl
  | cons e es ih =>
      obtain ⟨he, hes⟩ := List.forall_mem_cons.mp h
      obtain ⟨heproduct, hesproduct⟩ := List.forall_mem_cons.mp hflat
      rw [normalizeFactors, he, asFactors_of_isProduct_eq_false heproduct, ih hesproduct hes]
      rfl

/-- A normalized expression is its own normal form. -/
theorem Normalized.normalize_eq {e : Expr K} (h : e.Normalized) : e.normalize = e := by
  -- induction on being normalized: there is nothing to splice in any list
  induction h with
  | number | constant | var => rfl
  | sum hflat _ ih => rw [normalize, normalizeAddends_eq hflat ih]
  | product hflat _ ih => rw [normalize, normalizeFactors_eq hflat ih]
  | quotient _ _ iha ihb | power _ _ iha ihb => rw [normalize, iha, ihb]
  | call f _ ih => rw [normalize, ih]

/-! ## Leaves and calls -/

/-- What does not move: a leaf of an expression, or the place where a call begins or ends. -/
inductive Landmark (K : Type) where
  | number (value : K)
  | constant (c : Constant)
  | var (name : String)
  | callBegin (f : Fn)
  | callEnd (f : Fn)

mutual

/-- The leaves and calls of an expression, from left to right. The landmarks of an argument stand
between the two of its call. -/
def landmarks : Expr K → List (Landmark K)
  | number value => [.number value]
  | constant c => [.constant c]
  | var name => [.var name]
  | sum addends => addendLandmarks addends
  | product factors => factorLandmarks factors
  | quotient a b => landmarks a ++ landmarks b
  | power a b => landmarks a ++ landmarks b
  | call f a => .callBegin f :: landmarks a ++ [.callEnd f]

/-- The landmarks of the entries of a sum. -/
def addendLandmarks : List (Addend (Expr K)) → List (Landmark K)
  | [] => []
  | ⟨e, _⟩ :: as => landmarks e ++ addendLandmarks as

/-- The landmarks of the factors of a product. -/
def factorLandmarks : List (Expr K) → List (Landmark K)
  | [] => []
  | e :: es => landmarks e ++ factorLandmarks es

end

theorem addendLandmarks_eq (as : List (Addend (Expr K))) :
    addendLandmarks as = as.flatMap fun a => a.expr.landmarks := by
  induction as with
  | nil => rfl
  | cons a as ih => rw [addendLandmarks, List.flatMap_cons, ih]

theorem factorLandmarks_eq (es : List (Expr K)) : factorLandmarks es = es.flatMap landmarks := by
  induction es with
  | nil => rfl
  | cons e es ih => rw [factorLandmarks, List.flatMap_cons, ih]

theorem addendLandmarks_append (as bs : List (Addend (Expr K))) :
    addendLandmarks (as ++ bs) = addendLandmarks as ++ addendLandmarks bs := by
  simp only [addendLandmarks_eq, List.flatMap_append]

theorem factorLandmarks_append (es fs : List (Expr K)) :
    factorLandmarks (es ++ fs) = factorLandmarks es ++ factorLandmarks fs := by
  simp only [factorLandmarks_eq, List.flatMap_append]

/-- Splicing a sum into another one leaves its landmarks. -/
theorem addendLandmarks_asAddends (e : Expr K) (s : Bool) :
    addendLandmarks (e.asAddends s) = e.landmarks := by
  cases e with
  | sum as =>
      rw [asAddends, landmarks, addendLandmarks_eq, addendLandmarks_eq, List.flatMap_map]
      simp only [expr_negateIf]
  | _ => exact List.append_nil _

theorem factorLandmarks_asFactors (e : Expr K) : factorLandmarks e.asFactors = e.landmarks := by
  cases e with
  | product es => rfl
  | _ => exact List.append_nil _

mutual

/-- Normalizing leaves the leaves and calls in their order. -/
theorem landmarks_normalize (e : Expr K) : e.normalize.landmarks = e.landmarks := by
  -- recursion as in `normalize`; a call encloses its argument, and no list is a landmark
  match e with
  | number _ | constant _ | var _ => rfl
  | sum as => exact addendLandmarks_normalizeAddends as
  | product es => exact factorLandmarks_normalizeFactors es
  | quotient a b | power a b =>
    simp only [normalize, landmarks, landmarks_normalize a, landmarks_normalize b]
  | call f a => simp only [normalize, landmarks, landmarks_normalize a]

theorem addendLandmarks_normalizeAddends (as : List (Addend (Expr K))) :
    addendLandmarks (normalizeAddends as) = addendLandmarks as := by
  match as with
  | [] => rfl
  | ⟨e, s⟩ :: as =>
    rw [normalizeAddends, addendLandmarks_append, addendLandmarks_asAddends,
      landmarks_normalize e, addendLandmarks_normalizeAddends as, addendLandmarks]

theorem factorLandmarks_normalizeFactors (es : List (Expr K)) :
    factorLandmarks (normalizeFactors es) = factorLandmarks es := by
  match es with
  | [] => rfl
  | e :: es =>
    rw [normalizeFactors, factorLandmarks_append, factorLandmarks_asFactors,
      landmarks_normalize e, factorLandmarks_normalizeFactors es, factorLandmarks]

end

/-! ## Nodes -/

theorem addendsNodeCount_append (as bs : List (Addend (Expr K))) :
    addendsNodeCount (as ++ bs) = addendsNodeCount as + addendsNodeCount bs := by
  induction as with
  | nil => exact (Nat.zero_add _).symm
  | cons a as ih => rw [List.cons_append, addendsNodeCount, addendsNodeCount, ih, Nat.add_assoc]

theorem factorsNodeCount_append (es fs : List (Expr K)) :
    factorsNodeCount (es ++ fs) = factorsNodeCount es + factorsNodeCount fs := by
  induction es with
  | nil => exact (Nat.zero_add _).symm
  | cons e es ih => rw [List.cons_append, factorsNodeCount, factorsNodeCount, ih, Nat.add_assoc]

/-- Flipping signs adds no node. -/
theorem addendsNodeCount_negateIf (s : Bool) (as : List (Addend (Expr K))) :
    addendsNodeCount (as.map (Addend.negateIf s)) = addendsNodeCount as := by
  induction as with
  | nil => rfl
  | cons a as ih => rw [List.map_cons, negateIf_eq, addendsNodeCount, addendsNodeCount, ih]

/-- Splicing a sum into another one takes a node away. -/
theorem addendsNodeCount_asAddends_le (e : Expr K) (s : Bool) :
    addendsNodeCount (e.asAddends s) ≤ e.nodeCount := by
  cases e with
  | sum as =>
      rw [asAddends, addendsNodeCount_negateIf, nodeCount]
      exact Nat.le_succ _
  | _ => exact Nat.le_refl _

/-- Splicing a product into another one takes a node away. -/
theorem factorsNodeCount_asFactors_le (e : Expr K) :
    factorsNodeCount e.asFactors ≤ e.nodeCount := by
  cases e with
  | product es => exact Nat.le_succ _
  | _ => exact Nat.le_refl _

mutual

/-- Normalizing adds no node. -/
theorem nodeCount_normalize_le (e : Expr K) : e.normalize.nodeCount ≤ e.nodeCount := by
  -- recursion as in `normalize`: only the node of a list inside a list is lost
  match e with
  | number _ | constant _ | var _ => exact Nat.le_refl _
  | sum as => exact Nat.succ_le_succ (addendsNodeCount_normalizeAddends_le as)
  | product es => exact Nat.succ_le_succ (factorsNodeCount_normalizeFactors_le es)
  | quotient a b | power a b =>
    have ha := nodeCount_normalize_le a
    have hb := nodeCount_normalize_le b
    simp only [normalize, nodeCount]
    omega
  | call f a => exact Nat.succ_le_succ (nodeCount_normalize_le a)

theorem addendsNodeCount_normalizeAddends_le (as : List (Addend (Expr K))) :
    addendsNodeCount (normalizeAddends as) ≤ addendsNodeCount as := by
  match as with
  | [] => exact Nat.le_refl _
  | ⟨e, s⟩ :: as =>
    have he := Nat.le_trans (addendsNodeCount_asAddends_le e.normalize s)
      (nodeCount_normalize_le e)
    have has := addendsNodeCount_normalizeAddends_le as
    rw [normalizeAddends, addendsNodeCount_append, addendsNodeCount]
    omega

theorem factorsNodeCount_normalizeFactors_le (es : List (Expr K)) :
    factorsNodeCount (normalizeFactors es) ≤ factorsNodeCount es := by
  match es with
  | [] => exact Nat.le_refl _
  | e :: es =>
    have he := Nat.le_trans (factorsNodeCount_asFactors_le e.normalize) (nodeCount_normalize_le e)
    have hes := factorsNodeCount_normalizeFactors_le es
    rw [normalizeFactors, factorsNodeCount_append, factorsNodeCount]
    omega

end

end SymbolicCalculus.Expr
