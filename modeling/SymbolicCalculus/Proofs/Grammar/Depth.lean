import SymbolicCalculus.Proofs.Grammar.Chain

/-!
# When no tree gets too deep

The `weight` of a chain adds up the levels of its operands, with one more for the sign that an
operand may have and one for the node that it may become part of. No step adds to the weight, so a
bound that is not below it is never exceeded (`toOperand_ne_expressionTooDeep`).

So every sentence can be resolved under some bound, and therefore its readings agree
(`Reads.normalize_eq`).
-/

namespace SymbolicCalculus

variable {K : Type}

/-! ## Folding -/

namespace Row

/-- The levels of the operands of a tail, with one for every node that two of them make. -/
def tailWeight : List (Gap × Operand K) → Nat
  | [] => 0
  | (_, x) :: tail => x.depth + 1 + tailWeight tail

/-- The levels of all operands of a row, with one for every node that is built from two. -/
def weight (r : Row K) : Nat := r.head.depth + tailWeight r.tail

/-- Folding does not add to the weight, so a bound that it meets is not exceeded. -/
theorem exists_foldFrom {tier : Gap → Bool} {maxDepth : Nat} {x : Operand K}
    {tail : List (Gap × Operand K)} (h : x.depth + tailWeight tail ≤ maxDepth) :
    ∃ r, foldFrom tier maxDepth x tail = .ok r ∧ r.weight ≤ x.depth + tailWeight tail := by
  -- induction on the gaps, where `x` stands for all that was folded before them
  induction tail generalizing x with
  | nil => exact ⟨⟨x, []⟩, rfl, Nat.le_refl _⟩
  | cons p tail ih =>
      obtain ⟨g, y⟩ := p
      rw [tailWeight] at h ⊢
      rw [foldFrom]
      split
      · -- the new operand is no heavier than the two that it is made of
        have hdepth := Operand.depth_apply_le g.op x y
        obtain ⟨r, hr, hweight⟩ := ih (x := x.apply g.op y) (by omega)
        refine ⟨r, ?_, by omega⟩
        rw [Operand.limit_eq_ok_iff.2 ⟨by omega, rfl⟩]
        exact hr
      · obtain ⟨r, hr, hweight⟩ := ih (x := y) (by omega)
        refine ⟨r.cons x g, by rw [hr]; rfl, ?_⟩
        show x.depth + tailWeight ((g, r.head) :: r.tail) ≤ _
        unfold weight at hweight
        rw [tailWeight]
        omega

/-- Applying the operators of all levels does not add to the weight. -/
theorem exists_applyLevels {maxDepth : Nat} (n : Nat) {r : Row K} (h : r.weight ≤ maxDepth) :
    ∃ r', r.applyLevels maxDepth n = .ok r' ∧ r'.weight ≤ r.weight := by
  induction n with
  | zero => exact ⟨r, rfl, Nat.le_refl _⟩
  | succ n ih =>
      obtain ⟨r₁, hr₁, hweight₁⟩ := ih
      obtain ⟨r₂, hr₂, hweight₂⟩ : ∃ r₂, r₁.applyLevel maxDepth (n + 1) = .ok r₂ ∧
          r₂.weight ≤ r₁.weight := exists_foldFrom (Nat.le_trans hweight₁ h)
      exact ⟨r₂, bind_eq_ok_iff.2 ⟨r₁, hr₁, hr₂⟩, Nat.le_trans hweight₂ hweight₁⟩

end Row

/-! ## Signs -/

namespace Chain

/-- The levels that the tree of a chain may have. -/
def weight : Chain K → Nat
  | [] => 0
  | .operand x :: c => x.depth + 2 + weight c
  | .operator _ _ :: c => weight c

/-- The weight of a chain is that of its parts. -/
theorem weight_append (c d : Chain K) : weight (c ++ d) = weight c + weight d := by
  induction c with
  | nil => simp [weight]
  | cons link c ih =>
      cases link with
      | operand x => simp [weight, ih, Nat.add_assoc]
      | operator op span => simp [weight, ih]

/-- A sign weighs nothing, since its operand has a level for it. -/
theorem weight_signLinks (sign : Option Span) : weight (signLinks sign : Chain K) = 0 := by
  cases sign <;> rfl

/-- A gap weighs nothing, since its operands have a level for the node. -/
theorem weight_links (g : Gap) : weight (g.links : Chain K) = 0 := by
  cases g <;> rfl

/-- A separator weighs nothing. -/
theorem weight_tailLinks_cons (sep : Separator) (x : Operand K)
    (tail : List (Separator × Operand K)) :
    weight (tailLinks ((sep, x) :: tail)) = x.depth + 2 + weight (tailLinks tail) := by
  rw [tailLinks, weight_append, weight_append, weight_links, weight_signLinks, weight,
    Nat.zero_add]

variable [Scalar K] {maxDepth : Nat}

/-- A sign can be applied to an operand that is not too deep, and adds one level. -/
theorem exists_applySign (sign : Option Span) {x : Operand K} (h : x.depth + 1 ≤ maxDepth) :
    ∃ z, applySign maxDepth sign x = .ok z ∧ z.depth ≤ x.depth + 1 := by
  cases sign with
  | none => exact ⟨x, rfl, Nat.le_succ _⟩
  | some sign => exact ⟨_, Operand.limit_eq_ok_iff.2 ⟨h, rfl⟩, Nat.le_refl _⟩

namespace Sentence

/-- The signs after a sentence's first operand can be applied, and add no weight. -/
theorem exists_rowTail {tail : List (Separator × Operand K)}
    (h : weight (tailLinks tail) ≤ maxDepth) :
    ∃ t, rowTail maxDepth tail = .ok t ∧ Row.tailWeight t ≤ weight (tailLinks tail) := by
  induction tail with
  | nil => exact ⟨[], rfl, Nat.le_refl _⟩
  | cons p tail ih =>
      obtain ⟨sep, y⟩ := p
      rw [weight_tailLinks_cons] at h ⊢
      obtain ⟨z, hz, hdepth⟩ := exists_applySign sep.sign (show y.depth + 1 ≤ maxDepth by omega)
      obtain ⟨t, ht, hweight⟩ := ih (by omega)
      refine ⟨(sep.gap, z) :: t, ?_, ?_⟩
      · rw [rowTail, hz, ht]
        rfl
      · rw [Row.tailWeight]
        omega

/-- The signs of a sentence can be applied, and its row is no heavier than the sentence. -/
theorem exists_row {s : Sentence K} (h : weight s.chain ≤ maxDepth) :
    ∃ r, s.row maxDepth = .ok r ∧ r.weight ≤ weight s.chain := by
  unfold Sentence.chain at h ⊢
  rw [weight_append, weight_signLinks, weight] at h ⊢
  obtain ⟨x, hx, hdepth⟩ :=
    exists_applySign s.sign (show s.head.depth + 1 ≤ maxDepth by omega)
  obtain ⟨t, ht, htail⟩ := exists_rowTail (show weight (tailLinks s.tail) ≤ maxDepth by omega)
  refine ⟨⟨x, t⟩, ?_, ?_⟩
  · rw [row, hx, ht]
    rfl
  · show x.depth + Row.tailWeight t ≤ _
    omega

end Sentence

/-- Under a limit that the weight meets, the sign step refuses misplaced operators only. -/
theorem failsOnly_applySignsAfter_of_weight_le {previous : Option (Link K)} {c : Chain K}
    (h : weight c ≤ maxDepth) :
    FailsOnly ParseError.IsMisplaced (applySignsAfter maxDepth previous c) := by
  fun_induction applySignsAfter maxDepth previous c with
  | case1 => exact .ok _
  | case2 previous sign x rest _ ih =>
      rw [weight, weight] at h
      have hlimit : (negated sign x).limit maxDepth = .ok (negated sign x) :=
        Operand.limit_eq_ok_iff.2 ⟨show x.depth + 1 ≤ maxDepth by omega, rfl⟩
      rw [hlimit]
      exact (ih _ (by omega)).bind fun _ => .ok _
  | case3 => exact .atSpan trivial _
  | case4 => exact .atSpan trivial _
  | case5 previous sign rest _ ih =>
      exact (ih h).bind fun _ => .ok _
  | case6 previous link rest _ ih =>
      refine (ih ?_).bind fun _ => .ok _
      cases link with
      | operand x => exact Nat.le_trans (Nat.le_add_left _ _) h
      | operator op span => exact h

/-- No tree gets too deep under a bound that is not below the weight of the chain. -/
theorem toOperand_ne_expressionTooDeep {c : Chain K} (h : weight c ≤ maxDepth) (span : Span)
    (spans : List Span) :
    toOperand maxDepth span c ≠ .error ⟨.expressionTooDeep maxDepth, spans⟩ := by
  intro herr
  -- the sign step and the check refuse misplaced operators only, so the chain is a sentence
  rcases bind_eq_error_iff.1 herr with hsigns | ⟨c', hsigns, hrest⟩
  · exact failsOnly_applySignsAfter_of_weight_le h _ hsigns
  rcases bind_eq_error_iff.1 hrest with hcheck | ⟨_, hcheck, -⟩
  · exact failsOnly_checkAfter none c' _ hcheck
  by_cases hne : c = []
  · subst hne
    cases herr
  · obtain ⟨s, rfl⟩ := exists_sentence_of_check hne hsigns hcheck
    obtain ⟨r, hr, hweight⟩ := Sentence.exists_row h
    obtain ⟨r', hr', -⟩ := Row.exists_applyLevels 4 (Nat.le_trans hweight h)
    have hfold : s.row maxDepth >>= Row.applyLevels maxDepth 4 = .ok r' :=
      bind_eq_ok_iff.2 ⟨r, hr, hr'⟩
    rw [toOperand_chain, hfold] at herr
    replace herr : (if r'.tail.isEmpty then _ else _) = _ := herr
    split at herr <;> cases herr

end Chain

open Chain

/-- The readings of a chain agree up to normalization. -/
theorem Reads.normalize_eq [Scalar K] {c : Chain K} {e e' : Expr K} (h : Reads true 4 c e)
    (h' : Reads true 4 c e') : e.normalize = e'.normalize := by
  -- under a limit as high as the weight, the chain is resolved to every reading
  have hread {e : Expr K} (he : Reads true 4 c e) :
      ∃ x, toOperand (weight c) ⟨0, 0⟩ c = .ok x ∧ x.expr.normalize = e.normalize := by
    obtain ⟨s, rfl, -, hs⟩ := he.exists_foldsTo (weight c)
    rcases toOperand_of_foldsTo hs with hok | ⟨spans, herr⟩
    · exact hok
    · exact absurd herr (toOperand_ne_expressionTooDeep (Nat.le_refl _) _ spans)
  obtain ⟨x, hx, he⟩ := hread h
  obtain ⟨x', hx', he'⟩ := hread h'
  rw [hx] at hx'
  cases hx'
  exact he.symm.trans he'

end SymbolicCalculus
