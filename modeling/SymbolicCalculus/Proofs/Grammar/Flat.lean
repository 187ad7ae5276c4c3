import SymbolicCalculus.Proofs.Grammar.Chain

/-!
# Sums and products of any length

Applying an operator to a list that it extends makes the list longer and not the tree deeper. So a
chain of additions and subtractions, of multiplications, or of operands with nothing between them
has one level more than the deepest of its operands (`Row.IsFlat.exists_toOperand`).
-/

namespace SymbolicCalculus

variable {K : Type}

/-! ## Lists that are extended -/

namespace Operator

/-- The operator puts its operands into one list. -/
def isFlat : Operator → Bool
  | add | sub | mul => true
  | div | pow => false

/-- The expression is a list that the operator extends. -/
def extends? (op : Operator) (e : Expr K) : Bool :=
  match op with
  | add | sub => e.isSum
  | mul => e.isProduct
  | div | pow => false

end Operator

namespace Operand

/-- An operator that extends the list on its left adds no level to it. -/
theorem depth_apply_of_extends {op : Operator} {x : Operand K} (h : op.extends? x.expr = true)
    (y : Operand K) : (x.apply op y).depth = max x.depth (y.depth + 1) := by
  obtain ⟨e, span, depth⟩ := x
  cases op <;> cases e <;> first | rfl | cases h

/-- What an operator makes is a list that the operators of its level extend. -/
theorem extends?_apply {op op' : Operator} (hflat : op.isFlat = true) (hflat' : op'.isFlat = true)
    (hlevel : op'.level = op.level) (x y : Operand K) :
    op'.extends? (x.apply op y).expr = true := by
  obtain ⟨e, span, depth⟩ := x
  cases op with
  | div | pow => cases hflat
  | add | sub =>
      cases op' with
      | add | sub => cases e <;> rfl
      | mul | div | pow => exact absurd hlevel (by decide)
  | mul =>
      cases op' with
      | mul => cases e <;> rfl
      | div => cases hflat'
      | add | sub | pow => exact absurd hlevel (by decide)

end Operand

/-! ## Flat rows -/

namespace Row

/-- Folding leaves a row without gaps of the tier alone. -/
theorem foldFrom_of_not_tier {tier : Gap → Bool} {tail : List (Gap × Operand K)}
    (h : ∀ p ∈ tail, tier p.1 = false) (d : Nat) (x : Operand K) :
    foldFrom tier d x tail = .ok ⟨x, tail⟩ := by
  induction tail generalizing x with
  | nil => rfl
  | cons p tail ih =>
      obtain ⟨hp, htail⟩ := List.forall_mem_cons.mp h
      rw [foldFrom, hp, ih htail]
      rfl

/-- Folding gaps that all put their operands into one list adds one level at most. -/
theorem exists_foldFrom_flat {tier : Gap → Bool} {n m d : Nat} (hd : m + 1 ≤ d)
    {x : Operand K} {tail : List (Gap × Operand K)}
    (htail : ∀ p ∈ tail, tier p.1 = true ∧ p.1.op.isFlat = true ∧ p.1.op.level = n ∧
      p.2.depth ≤ m)
    (hx : x.depth ≤ m ∨ x.depth ≤ m + 1 ∧
      ∀ op : Operator, op.isFlat = true → op.level = n → op.extends? x.expr = true) :
    ∃ z, foldFrom tier d x tail = .ok ⟨z, []⟩ ∧ z.depth ≤ m + 1 := by
  -- after the first gap the operand before the gaps is a list, which the others extend
  induction tail generalizing x with
  | nil => exact ⟨x, rfl, by omega⟩
  | cons p tail ih =>
      obtain ⟨g, y⟩ := p
      obtain ⟨⟨htier, hflat, hlevel, hy⟩, htail⟩ := List.forall_mem_cons.mp htail
      have hz : (x.apply g.op y).depth ≤ m + 1 := by
        rcases hx with hx | ⟨hx, hlist⟩
        · have := Operand.depth_apply_le g.op x y
          dsimp only at hy
          omega
        · rw [Operand.depth_apply_of_extends (hlist g.op hflat hlevel)]
          dsimp only at hy
          omega
      obtain ⟨z, hz', hdepth⟩ := ih htail (Or.inr ⟨hz, fun op hop hoplevel =>
        Operand.extends?_apply hflat hop (hoplevel.trans hlevel.symm) x y⟩)
      refine ⟨z, foldFrom_cons_eq_ok_iff.mpr (Or.inl ⟨htier, x.apply g.op y, ?_, hz'⟩), hdepth⟩
      exact Operand.limit_eq_ok_iff.mpr ⟨Nat.le_trans hz hd, rfl⟩

/-- The operands of a row. -/
def operands (r : Row K) : List (Operand K) := r.head :: r.tail.map Prod.snd

/-- The gaps of the row are all of one level, and each puts its operands into one list. -/
def IsFlat (n : Nat) (r : Row K) : Prop := ∀ p ∈ r.tail, p.1.level = n ∧ p.1.op.isFlat = true

/-- Operands with nothing between them are multiplied, though at a level of their own. -/
theorem op_level_eq (g : Gap) : g.op.level = if g.level = 3 then 2 else g.level := by
  rcases g with _ | ⟨op, span⟩
  · rfl
  · cases op <;> rfl

/-- The gaps of a flat row are left alone up to their level, and then folded all at once. -/
theorem IsFlat.applyLevels {n m d : Nat} {r : Row K} (h : r.IsFlat n)
    (hdepth : ∀ x ∈ r.operands, x.depth ≤ m) (hd : m + 1 ≤ d) (hn : 0 < n) (k : Nat) :
    (k < n ∧ r.applyLevels d k = .ok r) ∨
      n ≤ k ∧ ∃ z, r.applyLevels d k = .ok ⟨z, []⟩ ∧ z.depth ≤ m + 1 := by
  obtain ⟨x, tail⟩ := r
  obtain ⟨hx, htail⟩ := List.forall_mem_cons.mp hdepth
  rw [List.forall_mem_map] at htail
  -- induction on the levels applied: nothing happens before the level of the row, and nothing is
  -- left after it
  induction k with
  | zero => exact Or.inl ⟨hn, rfl⟩
  | succ k ih =>
      rw [Row.applyLevels]
      rcases ih with ⟨hlt, hr⟩ | ⟨hle, z, hz, hzdepth⟩
      · rw [hr]
        rcases Nat.lt_or_eq_of_le (Nat.succ_le_of_lt hlt) with hlt | rfl
        · refine Or.inl ⟨hlt, foldFrom_of_not_tier (fun p hp => ?_) d x⟩
          rw [(h p hp).1]
          exact beq_false_of_ne (Nat.ne_of_gt hlt)
        · have hgaps : ∀ p ∈ tail, (p.1.level == k + 1) = true ∧ p.1.op.isFlat = true ∧
              p.1.op.level = (if k + 1 = 3 then 2 else k + 1) ∧ p.2.depth ≤ m := by
            intro p hp
            obtain ⟨hlevel, hflat⟩ := h p hp
            exact ⟨beq_iff_eq.mpr hlevel, hflat, by rw [op_level_eq, hlevel], htail p hp⟩
          exact Or.inr ⟨Nat.le_refl _, exists_foldFrom_flat hd hgaps (Or.inl hx)⟩
      · rw [hz]
        exact Or.inr ⟨Nat.le_succ_of_le hle, z, rfl, hzdepth⟩

/-! ## Flat chains -/

/-- The row as a sentence without signs. -/
def sentence (r : Row K) : Chain.Sentence K :=
  ⟨none, r.head, r.tail.map fun p => (.plain p.1, p.2)⟩

/-- The sentence of a row has the chain of the row. -/
theorem chain_sentence (r : Row K) : r.sentence.chain = r.chain := by
  obtain ⟨x, tail⟩ := r
  refine congrArg (Link.operand x :: ·) ?_
  show Chain.tailLinks (tail.map _) = _
  induction tail with
  | nil => rfl
  | cons p tail ih => simp [Chain.tailLinks, tailLinks, Separator.gap, Separator.sign,
      Chain.signLinks, ih]

/-- A sentence without signs is its own row. -/
theorem row_sentence [Scalar K] (d : Nat) (r : Row K) : r.sentence.row d = .ok r := by
  obtain ⟨x, tail⟩ := r
  have htail : Chain.Sentence.rowTail d (tail.map fun p => (.plain p.1, p.2)) = .ok tail := by
    induction tail with
    | nil => rfl
    | cons p tail ih =>
        rw [List.map_cons, Chain.Sentence.rowTail, ih]
        rfl
  exact bind_eq_ok_iff.mpr ⟨x, rfl, bind_eq_ok_iff.mpr ⟨tail, htail, rfl⟩⟩

/-- A sum or product of any number of operands has one level more than the deepest of them. -/
theorem IsFlat.exists_toOperand [Scalar K] {n m d : Nat} {r : Row K} (h : r.IsFlat n)
    (hdepth : ∀ x ∈ r.operands, x.depth ≤ m) (hd : m + 1 ≤ d) (span : Span) :
    ∃ z, Chain.toOperand d span r.chain = .ok z ∧ z.depth ≤ m + 1 := by
  obtain ⟨n, h, hpos, hle⟩ : ∃ n, r.IsFlat n ∧ 0 < n ∧ n ≤ 4 := by
    -- a single operand is flat at every level; otherwise the first gap has the level
    match htail : r.tail with
    | [] => exact ⟨1, fun p hp => (List.not_mem_nil (htail ▸ hp)).elim, by omega, by omega⟩
    | p :: tail =>
      obtain ⟨rfl, -⟩ := h p (htail ▸ List.mem_cons_self)
      exact ⟨_, h, p.1.level_pos, p.1.level_le⟩
  obtain ⟨hlt, -⟩ | ⟨-, z, hz, hzdepth⟩ := h.applyLevels hdepth hd hpos 4
  · omega
  refine ⟨z, ?_, hzdepth⟩
  rw [← chain_sentence, Chain.toOperand_chain, row_sentence]
  show (r.applyLevels d 4 >>= _) = _
  rw [hz]
  rfl

end Row

end SymbolicCalculus
