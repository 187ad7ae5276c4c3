import SymbolicCalculus.Proofs.Expr.Normal
import SymbolicCalculus.Proofs.Grammar.Failure
import SymbolicCalculus.Proofs.Grammar.Reading

/-!
# Folding a row

A `Row` is what is left of a sentence once its signs are applied: operands with gaps between them.
The four steps that apply operators to a chain do one thing to a row, each for the gaps of its level
(`applyOperators_chain`): they replace the two operands at such a gap by what the operator of the
gap makes of them, from left to right.

A step leaves the gaps of other levels alone, so what it does to two rows with such a gap between
them is what it does to each (`applyLevels_append`).
-/

namespace SymbolicCalculus

variable {K : Type}

/-! ## Normal forms of what an operator makes -/

namespace Expr

/-- The normal form of a node depends on the normal forms of its parts only. -/
theorem normalize_node {a a' b b' : Expr K} (op : Operator) (ha : a.normalize = a'.normalize)
    (hb : b.normalize = b'.normalize) : (op.node a b).normalize = (op.node a' b').normalize := by
  cases op <;>
    simp [Operator.node, normalize, normalizeAddends, normalizeFactors, Addend.plus,
      Addend.minus, ha, hb]

end Expr

namespace Operand

/-- Extending the list of the left operand is the same as building a node, up to normalization. -/
theorem normalize_apply (op : Operator) (x y : Operand K) :
    (x.apply op y).expr.normalize = (op.node x.expr y.expr).normalize := by
  obtain ⟨e, span, depth⟩ := x
  -- addition, subtraction and multiplication may extend a list, which normalizing would splice in
  -- anyway
  unfold apply
  split
  · next as h =>
      cases h
      simp [Operator.node, Expr.normalize, Expr.normalizeAddends, Expr.normalizeAddends_append,
        Addend.plus, Expr.asAddends_false_sum]
  · next as h =>
      cases h
      simp [Operator.node, Expr.normalize, Expr.normalizeAddends, Expr.normalizeAddends_append,
        Addend.plus, Addend.minus, Expr.asAddends_false_sum]
  · next es h =>
      cases h
      simp [Operator.node, Expr.normalize, Expr.normalizeFactors, Expr.normalizeFactors_append,
        Expr.asFactors]
  · rfl

/-- The check of depth lets an operand pass as it is if it is not too deep. -/
theorem limit_eq_ok_iff {maxDepth : Nat} {x y : Operand K} :
    x.limit maxDepth = .ok y ↔ x.depth ≤ maxDepth ∧ x = y := by
  unfold limit
  split <;> simp <;> omega

theorem depth_le_apply (op : Operator) (x y : Operand K) :
    x.depth ≤ (x.apply op y).depth ∧ y.depth ≤ (x.apply op y).depth := by
  unfold apply
  split <;> dsimp only <;> omega

/-- What an operator makes has one level more than the deeper operand at most. -/
theorem depth_apply_le (op : Operator) (x y : Operand K) :
    (x.apply op y).depth ≤ max x.depth y.depth + 1 := by
  unfold apply
  split <;> dsimp only <;> omega

end Operand

/-! ## Rows -/

/-- Operands with gaps between them. -/
structure Row (K : Type) where
  head : Operand K
  tail : List (Gap × Operand K)

namespace Row

/-- The links of gaps and the operands after them. -/
def tailLinks : List (Gap × Operand K) → Chain K
  | [] => []
  | (g, x) :: tail => g.links ++ .operand x :: tailLinks tail

/-- The chain of a row. -/
def chain (r : Row K) : Chain K := .operand r.head :: tailLinks r.tail

/-- The row with an operand and a gap before it. -/
def cons (x : Operand K) (g : Gap) (r : Row K) : Row K := ⟨x, (g, r.head) :: r.tail⟩

theorem chain_cons (x : Operand K) (g : Gap) (r : Row K) :
    (r.cons x g).chain = .operand x :: (g.links ++ r.chain) := rfl

/-- Two rows with a gap between them. -/
def append (a : Row K) (g : Gap) (b : Row K) : Row K :=
  ⟨a.head, a.tail ++ (g, b.head) :: b.tail⟩

/-- Applies the operator of every gap of the tier to its neighbours, left to right, where `x` is the
operand before the gaps. -/
def foldFrom (tier : Gap → Bool) (maxDepth : Nat) :
    (x : Operand K) → List (Gap × Operand K) → Except (Located ParseError) (Row K)
  | x, [] => .ok ⟨x, []⟩
  | x, (g, y) :: tail =>
    if tier g then do
      let z ← (x.apply g.op y).limit maxDepth
      foldFrom tier maxDepth z tail
    else (foldFrom tier maxDepth y tail).map (cons x g)

/-- Applies the operators of all gaps of a level. -/
def applyLevel (maxDepth n : Nat) (r : Row K) : Except (Located ParseError) (Row K) :=
  foldFrom (fun g => g.level == n) maxDepth r.head r.tail

/-- Applies the operators of all gaps, from the tightest level to the given one. -/
def applyLevels (maxDepth : Nat) : (n : Nat) → Row K → Except (Located ParseError) (Row K)
  | 0, r => .ok r
  | n + 1, r => do
    let r ← applyLevels maxDepth n r
    applyLevel maxDepth (n + 1) r

/-! ### Rows with a gap between them -/

section

variable {tier : Gap → Bool} {maxDepth : Nat}

/-- What folding does at the first gap. -/
theorem foldFrom_cons_eq_ok_iff {x y : Operand K} {g : Gap} {t : List (Gap × Operand K)}
    {r : Row K} : foldFrom tier maxDepth x ((g, y) :: t) = .ok r ↔
      (tier g = true ∧ ∃ z, (x.apply g.op y).limit maxDepth = .ok z ∧
        foldFrom tier maxDepth z t = .ok r) ∨
      (tier g = false ∧ ∃ r', foldFrom tier maxDepth y t = .ok r' ∧ r'.cons x g = r) := by
  rw [foldFrom]
  cases hg : tier g with
  | true => simp [bind_eq_ok_iff]
  | false => simp [map_eq_ok_iff]

/-- A gap of another tier keeps the rows on its sides apart. -/
theorem foldFrom_append_of_not_tier {g : Gap} (hg : tier g = false) {x y : Operand K}
    {t u : List (Gap × Operand K)} {r : Row K}
    (h : foldFrom tier maxDepth x (t ++ (g, y) :: u) = .ok r) :
    ∃ a b, foldFrom tier maxDepth x t = .ok a ∧ foldFrom tier maxDepth y u = .ok b ∧
      r = a.append g b := by
  -- folding changes the operand before the gaps, so the induction is for any operand
  induction t generalizing x r with
  | nil =>
      rcases foldFrom_cons_eq_ok_iff.1 h with ⟨hg', -⟩ | ⟨-, b, hb, rfl⟩
      · exact absurd hg' (Bool.eq_false_iff.1 hg)
      · exact ⟨⟨x, []⟩, b, rfl, hb, rfl⟩
  | cons p t ih =>
      obtain ⟨g', w⟩ := p
      rcases foldFrom_cons_eq_ok_iff.1 h with ⟨hg', z, hz, hr⟩ | ⟨hg', r', hr', rfl⟩
      · obtain ⟨a, b, ha, hb, rfl⟩ := ih hr
        exact ⟨a, b, foldFrom_cons_eq_ok_iff.2 (Or.inl ⟨hg', z, hz, ha⟩), hb, rfl⟩
      · obtain ⟨a, b, ha, hb, rfl⟩ := ih hr'
        exact ⟨a.cons x g', b, foldFrom_cons_eq_ok_iff.2 (Or.inr ⟨hg', a, ha, rfl⟩), hb, rfl⟩

/-- A row can be folded if it can be with more after it. -/
theorem foldFrom_left {x : Operand K} {t u : List (Gap × Operand K)} {r : Row K}
    (h : foldFrom tier maxDepth x (t ++ u) = .ok r) : ∃ a, foldFrom tier maxDepth x t = .ok a := by
  -- induction on the gaps before the cut, for any operand before them
  induction t generalizing x r with
  | nil => exact ⟨⟨x, []⟩, rfl⟩
  | cons p t ih =>
      obtain ⟨g, w⟩ := p
      rcases foldFrom_cons_eq_ok_iff.1 h with ⟨hg, z, hz, hr⟩ | ⟨hg, r', hr', rfl⟩
      · obtain ⟨a, ha⟩ := ih hr
        exact ⟨a, foldFrom_cons_eq_ok_iff.2 (Or.inl ⟨hg, z, hz, ha⟩)⟩
      · obtain ⟨a, ha⟩ := ih hr'
        exact ⟨a.cons x g, foldFrom_cons_eq_ok_iff.2 (Or.inr ⟨hg, a, ha, rfl⟩)⟩

/-- What folds to one operand goes on as that operand. -/
theorem foldFrom_append_of_single {x y : Operand K} {t : List (Gap × Operand K)}
    (h : foldFrom tier maxDepth x t = .ok ⟨y, []⟩) (u : List (Gap × Operand K)) :
    foldFrom tier maxDepth x (t ++ u) = foldFrom tier maxDepth y u := by
  induction t generalizing x with
  | nil =>
      cases h
      rfl
  | cons p t ih =>
      obtain ⟨g, w⟩ := p
      rcases foldFrom_cons_eq_ok_iff.1 h with ⟨hg, z, hz, hr⟩ | ⟨-, r, -, hr⟩
      · rw [List.cons_append, foldFrom, if_pos hg, hz]
        exact ih hr
      · cases hr

end

variable {maxDepth n : Nat} {a b r : Row K} {g : Gap}

/-- A gap of a looser level keeps the rows on its sides apart. -/
theorem applyLevels_append (hg : n < g.level) (h : (a.append g b).applyLevels maxDepth n = .ok r) :
    ∃ a' b', a.applyLevels maxDepth n = .ok a' ∧ b.applyLevels maxDepth n = .ok b' ∧
      r = a'.append g b' := by
  induction n generalizing r with
  | zero =>
      cases h
      exact ⟨a, b, rfl, rfl, rfl⟩
  | succ n ih =>
      obtain ⟨r', hr', hr⟩ := bind_eq_ok_iff.1 h
      obtain ⟨a', b', ha', hb', rfl⟩ := ih (Nat.lt_of_succ_lt hg) hr'
      have hne : (fun g : Gap => g.level == n + 1) g = false :=
        beq_eq_false_iff_ne.2 (Nat.ne_of_gt hg)
      obtain ⟨a'', b'', ha'', hb'', rfl⟩ := foldFrom_append_of_not_tier hne hr
      exact ⟨a'', b'', bind_eq_ok_iff.2 ⟨a', ha', ha''⟩, bind_eq_ok_iff.2 ⟨b', hb', hb''⟩, rfl⟩

/-- At a gap of the level itself, what the rows on its sides come down to is put together. -/
theorem applyLevels_append_of_level (hg : g.level = n + 1)
    (ha : ∀ a', a.applyLevels maxDepth (n + 1) = .ok a' → a'.tail = [])
    (hb : ∀ b', b.applyLevels maxDepth n = .ok b' → b'.tail = [])
    (h : (a.append g b).applyLevels maxDepth (n + 1) = .ok r) :
    ∃ x y, a.applyLevels maxDepth (n + 1) = .ok ⟨x, []⟩ ∧
      b.applyLevels maxDepth n = .ok ⟨y, []⟩ ∧ r = ⟨x.apply g.op y, []⟩ := by
  -- up to the level below, the gap keeps the rows apart
  obtain ⟨r', hr', hr⟩ := bind_eq_ok_iff.1 h
  obtain ⟨a', ⟨y, tail⟩, ha', hb', rfl⟩ := applyLevels_append (hg ▸ n.lt_succ_self) hr'
  obtain rfl : tail = [] := hb _ hb'
  replace hr : foldFrom (fun g => g.level == n + 1) maxDepth a'.head (a'.tail ++ [(g, y)]) =
      .ok r := hr
  -- the level itself first brings the left row down to one operand, and then meets the gap
  obtain ⟨⟨x, tail⟩, ha''⟩ := foldFrom_left hr
  have hlevel : a.applyLevels maxDepth (n + 1) = .ok ⟨x, tail⟩ :=
    bind_eq_ok_iff.2 ⟨a', ha', ha''⟩
  obtain rfl : tail = [] := ha _ hlevel
  refine ⟨x, y, hlevel, hb', ?_⟩
  rw [foldFrom_append_of_single ha''] at hr
  rcases foldFrom_cons_eq_ok_iff.1 hr with ⟨-, z, hz, hr⟩ | ⟨hne, -⟩
  · cases hr
    rw [(Operand.limit_eq_ok_iff.1 hz).2]
  · exact absurd hg (beq_eq_false_iff_ne.1 hne)

/-- Folding fails only when a tree gets too deep. -/
theorem failsOnly_foldFrom (tier : Gap → Bool) (maxDepth : Nat) (x : Operand K)
    (tail : List (Gap × Operand K)) :
    FailsOnly (· = .expressionTooDeep maxDepth) (foldFrom tier maxDepth x tail) := by
  induction tail generalizing x with
  | nil => exact .ok _
  | cons p tail ih =>
      rw [foldFrom]
      split
      · exact (FailsOnly.limit maxDepth _).bind ih
      · exact (ih p.2).map _

/-- Applying the operators of all levels fails only when a tree gets too deep. -/
theorem failsOnly_applyLevels (maxDepth n : Nat) (r : Row K) :
    FailsOnly (· = .expressionTooDeep maxDepth) (r.applyLevels maxDepth n) := by
  induction n with
  | zero => exact .ok r
  | succ n ih => exact ih.bind fun r => failsOnly_foldFrom _ maxDepth r.head r.tail

end Row

/-! ## The steps on chains are folds of rows -/

namespace Chain

/-- The step for a tier of written operators folds the gaps of that tier, with what it has passed in
`before`. -/
theorem applyTierAfter_tailLinks [Scalar K] {tier : Operator → Bool} {gaps : Gap → Bool}
    (hnone : gaps none = false) (hsome : ∀ op span, gaps (some (op, span)) = tier op)
    (maxDepth : Nat) (before : Chain K) (x : Operand K) (tail : List (Gap × Operand K)) :
    applyTierAfter tier maxDepth (.operand x :: before) (Row.tailLinks tail) =
      (Row.foldFrom gaps maxDepth x tail).map fun r => before.reverse ++ r.chain := by
  induction tail generalizing x before with
  | nil => simp [Row.tailLinks, applyTierAfter, Row.foldFrom, Except.map, Row.chain]
  | cons p tail ih =>
      obtain ⟨g, y⟩ := p
      -- operands with nothing between them are no operator of the tier, and a written one may be
      match g with
      | none =>
        rw [Row.foldFrom, hnone, Row.tailLinks]
        show applyTierAfter tier maxDepth (.operand y :: .operand x :: before) _ = _
        rw [ih, if_neg Bool.false_ne_true, map_map]
        simp [Row.chain_cons, Gap.links]
      | some (op, span) =>
        rw [Row.foldFrom, hsome, Row.tailLinks]
        show applyTierAfter tier maxDepth _ (.operator op span :: .operand y :: _) = _
        rw [applyTierAfter]
        split
        · rw [map_bind]
          exact congrArg _ (funext fun z => ih before z)
        · rw [applyTierAfter, ih, map_map]
          simp [Row.chain_cons, Gap.links]

/-- The step for operands with nothing between them folds these gaps. -/
theorem multiplyAfter_tailLinks {gaps : Gap → Bool} (hnone : gaps none = true)
    (hsome : ∀ op span, gaps (some (op, span)) = false) (maxDepth : Nat) (before : Chain K)
    (x : Operand K) (tail : List (Gap × Operand K)) :
    multiplyAfter maxDepth (.operand x :: before) (Row.tailLinks tail) =
      (Row.foldFrom gaps maxDepth x tail).map fun r => before.reverse ++ r.chain := by
  -- induction on the gaps; what was passed is kept in reverse
  induction tail generalizing x before with
  | nil => simp [Row.tailLinks, multiplyAfter, Row.foldFrom, Except.map, Row.chain]
  | cons p tail ih =>
      obtain ⟨g, y⟩ := p
      match g with
      | none =>
        rw [Row.foldFrom, hnone, if_pos rfl, map_bind]
        exact congrArg _ (funext fun z => ih before z)
      | some (op, span) =>
        rw [Row.foldFrom, hsome, if_neg Bool.false_ne_true, map_map, Row.tailLinks]
        show multiplyAfter maxDepth (.operand y :: .operator op span :: .operand x :: before) _ = _
        rw [ih]
        simp [Row.chain_cons, Gap.links]

/-- Multiplying neighbours is folding the gaps of the third level. -/
theorem multiplyNeighbours_chain (maxDepth : Nat) (r : Row K) :
    multiplyNeighbours maxDepth r.chain = (r.applyLevel maxDepth 3).map Row.chain := by
  have hsome (op : Operator) (span : Span) : (Gap.level (some (op, span)) == 3) = false := by
    cases op <;> rfl
  exact multiplyAfter_tailLinks rfl hsome maxDepth [] r.head r.tail

/-- Applying a tier of written operators is folding the gaps of its level. -/
theorem applyTier_chain [Scalar K] {tier : Operator → Bool} {n : Nat} (hn : n ≠ 3)
    (htier : ∀ op, tier op = (op.level == n)) (maxDepth : Nat) (r : Row K) :
    applyTier tier maxDepth r.chain = (r.applyLevel maxDepth n).map Row.chain := by
  have hnone : (Gap.level none == n) = false := beq_eq_false_iff_ne.2 (Ne.symm hn)
  exact applyTierAfter_tailLinks hnone (fun op _ => (htier op).symm) maxDepth [] r.head r.tail

/-- A step that folds the gaps of a level does so after earlier steps, too. -/
theorem map_chain_bind {maxDepth n : Nat} {step : Chain K → Except (Located ParseError) (Chain K)}
    (hstep : ∀ r, step (Row.chain r) = (r.applyLevel maxDepth n).map Row.chain)
    (x : Except (Located ParseError) (Row K)) :
    (x.map Row.chain >>= step) = (x >>= Row.applyLevel maxDepth n).map Row.chain := by
  cases x with
  | error err => rfl
  | ok r => exact hstep r

/-- The four steps on chains apply the operators of the four levels. -/
theorem applyOperators_chain [Scalar K] (maxDepth : Nat) (r : Row K) :
    applyOperators maxDepth r.chain = (r.applyLevels maxDepth 4).map Row.chain := by
  have hpower : applyTier isPower maxDepth r.chain = (r.applyLevels maxDepth 1).map Row.chain :=
    applyTier_chain (by decide) (fun op => by cases op <;> rfl) maxDepth r
  unfold applyOperators
  rw [hpower, ← bind_assoc, map_chain_bind (n := 2)
      (applyTier_chain (by decide) (fun op => by cases op <;> rfl) maxDepth),
    ← bind_assoc, map_chain_bind (multiplyNeighbours_chain maxDepth),
    map_chain_bind (n := 4)
      (applyTier_chain (by decide) (fun op => by cases op <;> rfl) maxDepth)]
  rfl

end Chain

end SymbolicCalculus
