import SymbolicCalculus.Derivative.Differentiate
import SymbolicCalculus.Proofs.Expr.Depth
import SymbolicCalculus.Proofs.Results
import SymbolicCalculus.Scalar.Binary64

/-!
# The depth of derivatives

Every rule but that for products adds a bounded number of levels to a node. The rule for products
takes off one factor after the other and puts the derivative of the others two levels below that of
the whole, so it adds levels in proportion to the number of factors. Normalization does not take
them away, since sums and products alternate.

So the depth of a derivative is bounded by the depth of the expression together with the length of
its longest product (`depth_differentiate`), and not by its depth alone
(`not_exists_depth_differentiate_le`): a product of any length has depth two.
-/

namespace SymbolicCalculus

variable {K : Type} [Scalar K]

namespace Expr

/-! ## The rules -/

/-- The entry of a function in the table of derivatives has up to three levels more than the
argument. -/
theorem depth_derivative?_le {f : Fn} {u outer : Expr K} (h : f.derivative? u = .ok outer) :
    outer.depth ≤ u.depth + 3 := by
  have hu := one_le_depth u
  cases f <;> cases h <;>
    simp only [Addend.plus, squared, depth, addendsDepth, factorsDepth] <;> omega

section Rules

variable {f df g dg : Expr K} {m : Nat}

omit [Scalar K] in
theorem depth_productRule_le (hf : f.depth ≤ m) (hdf : df.depth ≤ m) (hg : g.depth ≤ m)
    (hdg : dg.depth ≤ m) : (productRule f df g dg).depth ≤ m + 2 := by
  simp only [productRule, Addend.plus, depth, addendsDepth, factorsDepth]
  omega

/-- The rule for quotients adds three levels to its parts. -/
theorem depth_quotientRule_le (hf : f.depth ≤ m) (hdf : df.depth ≤ m) (hg : g.depth ≤ m)
    (hdg : dg.depth ≤ m) : (quotientRule f df g dg).depth ≤ m + 3 := by
  have := one_le_depth g
  simp only [quotientRule, squared, Addend.plus, Addend.minus, depth, addendsDepth, factorsDepth]
  omega

omit [Scalar K] in
/-- The rule for powers of Euler's number adds two levels, with one level to spare in the
derivative. -/
theorem depth_exponentialRule_le (hf : f.depth ≤ m) (hdf : df.depth ≤ m + 1) :
    (exponentialRule f df).depth ≤ m + 2 := by
  have := one_le_depth f
  simp only [exponentialRule, depth, factorsDepth]
  omega

/-- The rule for powers adds five levels to its parts. -/
theorem depth_powerRule_le (hf : f.depth ≤ m) (hdf : df.depth ≤ m) (hg : g.depth ≤ m)
    (hdg : dg.depth ≤ m) : (powerRule f df g dg).depth ≤ m + 5 := by
  have hone := one_le_depth f
  have hln : (call .ln f).depth ≤ m + 1 := Nat.succ_le_succ hf
  have hdln : (product [df, quotient (number 1) f]).depth ≤ m + 2 := by
    simp only [depth, factorsDepth]
    omega
  have hexponent : (product [call .ln f, g]).depth ≤ m + 3 := by
    simp only [depth, factorsDepth]
    omega
  exact depth_exponentialRule_le hexponent
    (depth_productRule_le (Nat.le_succ_of_le hln) hdln (by omega) (by omega))

end Rules

/-! ## Lists of entries -/

variable {x : String} {m : Nat}

/-- A bound for the derivatives of all terms is a bound for the derivative of the sum, since no
level is added to them. -/
theorem addendsDepth_addendDerivatives_le {as das : List (Addend (Expr K))}
    (h : addendDerivatives x as = .ok das)
    (has : ∀ a ∈ as, ∀ d, a.expr.derivative x = .ok d → d.depth ≤ m) : addendsDepth das ≤ m := by
  induction as generalizing das with
  | nil =>
      cases h
      exact Nat.zero_le m
  | cons a as ih =>
      obtain ⟨ha, has⟩ := List.forall_mem_cons.mp has
      obtain ⟨de, hde, h⟩ := bind_eq_ok_iff.mp h
      obtain ⟨des, hdes, hd⟩ := bind_eq_ok_iff.mp h
      cases hd
      exact Nat.max_le.mpr ⟨ha de hde, ih hdes has⟩

/-- Every factor of a product adds up to two levels to the derivative. -/
theorem depth_productDerivative_le {es : List (Expr K)} {d : Expr K}
    (h : productDerivative x es = .ok d) (hm : 1 ≤ m)
    (hes : ∀ e ∈ es, e.depth ≤ m ∧ ∀ d, e.derivative x = .ok d → d.depth ≤ m) :
    d.depth ≤ m + 2 * es.length := by
  -- recursion as in `productDerivative`: the rule for products puts the first factor against the
  -- rest
  match es with
  | [] =>
    cases h
    exact hm
  | [f] =>
    have := (List.forall_mem_singleton.mp hes).2 d h
    omega
  | f :: g :: fs =>
    obtain ⟨⟨hf, hdf⟩, hfs⟩ := List.forall_mem_cons.mp hes
    obtain ⟨df, hdf', h⟩ := bind_eq_ok_iff.mp h
    obtain ⟨dfs, hdfs, hd⟩ := bind_eq_ok_iff.mp h
    cases hd
    have hdf := hdf df hdf'
    have hdfs := depth_productDerivative_le hdfs hm hfs
    have hrest : (product (g :: fs)).collapse.depth ≤ m + 1 :=
      Nat.le_trans (depth_collapse_le _)
        (Nat.succ_le_succ (factorsDepth_le_iff.mpr fun e he => (hfs e he).1))
    simp only [List.length_cons] at hdfs ⊢
    refine Nat.le_trans (depth_productRule_le (m := m + 2 * (fs.length + 1)) ?_ ?_ ?_ hdfs) ?_
      <;> omega

/-! ## Trees -/

omit [Scalar K] in
/-- The number of factors, if the expression is a product. -/
def factorCount : Expr K → Nat
  | product factors => factors.length
  | _ => 0

/-- The number of factors of the longest product in a tree. -/
def longestProduct (e : Expr K) : Nat := (e.postOrder.map factorCount).max?.getD 0

omit [Scalar K] in
theorem factorCount_le_longestProduct {e n : Expr K} (hn : n ∈ e.postOrder) :
    n.factorCount ≤ e.longestProduct :=
  List.le_max?_getD_of_mem (List.mem_map_of_mem hn)

/-- A derivative is at most as deep as the expression, times a factor for the rules and the longest
product. -/
theorem depth_derivative_le {w : Nat} (e : Expr K) (hw : ∀ n ∈ e.postOrder, n.factorCount ≤ w)
    {d : Expr K} (h : e.derivative x = .ok d) : d.depth ≤ (2 * w + 5) * e.depth := by
  -- induction over the tree; the factor pays for one level of the expression at a time
  induction e using children_induction generalizing d with
  | _ e ih =>
    obtain ⟨k, hk, hchildren⟩ := depth_eq_succ e
    have hchild : ∀ c ∈ e.children, c.depth ≤ (2 * w + 5) * k ∧
        ∀ d, c.derivative x = .ok d → d.depth ≤ (2 * w + 5) * k := by
      intro c hc
      have hle := Nat.mul_le_mul_left (2 * w + 5) (hchildren c hc)
      refine ⟨Nat.le_trans (Nat.le_mul_of_pos_left _ (by omega)) hle, fun d hd => ?_⟩
      have hwc : ∀ n ∈ c.postOrder, n.factorCount ≤ w :=
        fun n hn => hw n (mem_postOrder_of_mem_children hc hn)
      exact Nat.le_trans (ih c hc hwc hd) hle
    have hself := hw e (self_mem_postOrder e)
    rw [hk, Nat.mul_succ]
    -- all that is left of the children is that bound, and five levels come on top of it
    generalize (2 * w + 5) * k = m at hchild
    cases e with
    | number v | constant c | var name =>
        cases h
        show 1 ≤ _
        omega
    | sum as =>
        obtain ⟨das, has, hd⟩ := bind_eq_ok_iff.mp h
        cases hd
        have := addendsDepth_addendDerivatives_le has fun a ha =>
          (hchild a.expr (List.mem_map_of_mem ha)).2
        show addendsDepth das + 1 ≤ _
        omega
    | product es =>
        replace hself : es.length ≤ w := hself
        cases es with
        | nil =>
            cases h
            show 1 ≤ _
            omega
        | cons f fs =>
            have hm : 1 ≤ m := Nat.le_trans (one_le_depth f) (hchild f List.mem_cons_self).1
            have := depth_productDerivative_le h hm hchild
            omega
    | quotient f g =>
        obtain ⟨df, hdf, h⟩ := bind_eq_ok_iff.mp h
        obtain ⟨dg, hdg, hd⟩ := bind_eq_ok_iff.mp h
        cases hd
        obtain ⟨hf, hdf'⟩ := hchild f (by simp [children])
        obtain ⟨hg, hdg'⟩ := hchild g (by simp [children])
        have := depth_quotientRule_le hf (hdf' df hdf) hg (hdg' dg hdg)
        omega
    | power b u =>
        obtain ⟨hb, hdb'⟩ := hchild b (by simp [children])
        obtain ⟨hu, hdu'⟩ := hchild u (by simp [children])
        rw [derivative] at h
        split at h
        · obtain ⟨du, hdu, hd⟩ := bind_eq_ok_iff.mp h
          cases hd
          have := depth_exponentialRule_le hu (Nat.le_succ_of_le (hdu' du hdu))
          omega
        · obtain ⟨db, hdb, h⟩ := bind_eq_ok_iff.mp h
          obtain ⟨du, hdu, hd⟩ := bind_eq_ok_iff.mp h
          cases hd
          have := depth_powerRule_le hb (hdb' db hdb) hu (hdu' du hdu)
          omega
    | call f u =>
        obtain ⟨outer, houter, h⟩ := bind_eq_ok_iff.mp h
        obtain ⟨du, hdu, hd⟩ := bind_eq_ok_iff.mp h
        cases hd
        obtain ⟨hu, hdu'⟩ := hchild u (by simp [children])
        have := hdu' du hdu
        have := depth_derivative?_le houter
        simp only [depth, factorsDepth]
        omega

/-! ## Long products -/

omit [Scalar K] in
/-- The two products of the rule stand inside each other's sums, so normalizing merges nothing. -/
theorem depth_normalize_productRule {name : String} {df g dg : Expr K} (h : dg.isProduct = false) :
    (productRule (var name) df g dg).normalize.depth =
      max (product [df, g]).normalize.depth (max 1 dg.normalize.depth + 1) + 1 := by
  -- the derivative is no product, so it stays one factor of the product that it stands in
  have hfactors : dg.normalize.asFactors = [dg.normalize] := by
    rw [← isProduct_normalize] at h
    cases hdg : dg.normalize with
    | product es => simp [hdg, isProduct] at h
    | _ => rfl
  simp only [productRule, Addend.plus, normalize, normalizeAddends, normalizeFactors, hfactors]
  simp [asAddends, asFactors, depth, addendsDepth, factorsDepth]

omit [Scalar K] in
/-- A product of variables is flat. -/
theorem depth_product_replicate (x : String) (n : Nat) :
    (product (List.replicate (n + 1) (var x : Expr K))).depth = 2 := by
  refine congrArg Nat.succ ?_
  induction n with
  | zero => rfl
  | succ n ih => rw [List.replicate_succ, factorsDepth, ih, depth, Nat.max_self]

/-- What remains of a product of variables has at most two levels, and one if a single factor
remains. -/
theorem depth_collapse_replicate_le (x : String) (n : Nat) :
    (product (List.replicate (n + 1) (var x : Expr K))).collapse.depth ≤ 2 * n + 1 := by
  cases n with
  | zero => exact Nat.le_refl 1
  | succ n =>
      refine Nat.le_trans (depth_collapse_le _) ?_
      rw [depth_product_replicate]
      omega

/-- Each factor but the last adds two levels to the derivative of a product, also when that is
normalized. -/
theorem exists_productDerivative_replicate (x : String) (n : Nat) :
    ∃ d : Expr K, productDerivative x (List.replicate (n + 1) (var x)) = .ok d ∧
      d.isProduct = false ∧ d.normalize.depth = 2 * n + 1 := by
  have hvar : (var x : Expr K).derivative x = .ok (number 1) := by simp [derivative]
  -- induction on the number of factors: each new one puts the derivative so far two levels down
  induction n with
  | zero => exact ⟨number 1, hvar, rfl, rfl⟩
  | succ n ih =>
      obtain ⟨d, hd, hproduct, hdepth⟩ := ih
      have hrest := depth_collapse_replicate_le (K := K) x n
      generalize hr : (product (List.replicate (n + 1) (var x : Expr K))).collapse = rest at hrest
      refine ⟨productRule (var x) (number 1) rest d, ?_, rfl, ?_⟩
      · rw [List.replicate_succ, List.replicate_succ, productDerivative, ← List.replicate_succ,
          hvar, hd, ← hr]
        · rfl
        · exact List.cons_ne_nil _ _
      -- the other product of the rule is flatter than the derivative of the rest
      · have hfirst : (product [number 1, rest]).normalize.depth ≤ 2 * n + 2 := by
          refine Nat.le_trans (depth_normalize_le _) ?_
          simp only [depth, factorsDepth]
          omega
        rw [depth_normalize_productRule hproduct, hdepth]
        omega

end Expr

open SymbolicCalculus.Expr

/-- The derivative of a product of `n + 1` variables has `2 * n + 1` levels. -/
theorem exists_differentiate_replicate (x : String) (n : Nat) :
    ∃ d : Expr K, differentiate x (product (List.replicate (n + 1) (var x))) = .ok d ∧
      d.depth = 2 * n + 1 := by
  obtain ⟨d, hd, -, hdepth⟩ := exists_productDerivative_replicate (K := K) x n
  exact ⟨d.normalize, bind_eq_ok_iff.mpr ⟨d, hd, rfl⟩, hdepth⟩

/-- **The depth of a derivative.** It is at most the depth of the expression times a bound that
grows with the number of factors of the longest product. It does grow with that number: a product of
`n + 1` variables has two levels, and its derivative has `2 * n + 1`. -/
theorem depth_differentiate (x : String) :
    (∀ e d : Expr K, differentiate x e = .ok d →
      d.depth ≤ (2 * e.longestProduct + 5) * e.depth) ∧
    ∀ n : Nat, (product (List.replicate (n + 1) (var x : Expr K))).depth = 2 ∧
      ∃ d : Expr K, differentiate x (product (List.replicate (n + 1) (var x))) = .ok d ∧
        d.depth = 2 * n + 1 := by
  refine ⟨fun e d h => ?_, fun n => ?_⟩
  · obtain ⟨d, hd, h⟩ := bind_eq_ok_iff.mp h
    cases h
    exact Nat.le_trans (depth_normalize_le d)
      (depth_derivative_le e (fun _ => factorCount_le_longestProduct) hd)
  · exact ⟨depth_product_replicate x n, exists_differentiate_replicate x n⟩

/-- The derivative of `x * x * x / ln x` has eight levels, the expression three. -/
theorem depth_differentiate_quotient :
    let e : Expr Float :=
      .quotient (.product [.var "x", .var "x", .var "x"]) (.call .ln (.var "x"))
    ∃ d, differentiate "x" e = .ok d ∧ d.depth = 8 ∧
      d.depth ≤ (2 * e.longestProduct + 5) * e.depth := by
  intro e
  obtain ⟨d, hd, hdepth⟩ : ∃ d, differentiate "x" e = .ok d ∧ d.depth = 8 := ⟨_, rfl, by rfl⟩
  exact ⟨d, hd, hdepth, (depth_differentiate "x").1 e d hd⟩

/-- No function of the depth of an expression bounds the depth of its derivative. -/
theorem not_exists_depth_differentiate_le :
    ¬ ∃ f : Nat → Nat, ∀ (e d : Expr Float) (x : String),
      differentiate x e = .ok d → d.depth ≤ f e.depth := by
  rintro ⟨f, hf⟩
  -- a flat product with more factors than `f` allows levels
  obtain ⟨d, hd, hdepth⟩ := exists_differentiate_replicate (K := Float) "x" (f 2)
  have hle := hf _ d "x" hd
  rw [depth_product_replicate, hdepth] at hle
  omega

end SymbolicCalculus
