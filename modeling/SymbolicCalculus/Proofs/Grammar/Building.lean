import SymbolicCalculus.Proofs.Expr.Depth
import SymbolicCalculus.Proofs.Grammar.Folding

/-!
# Operands as they are built

`Operand.Built` lists the ways in which reading makes an operand out of others. Each of them knows
the depth of what it makes, so the depth that an operand carries along is that of its expression
(`Operand.Built.depth_eq`).

`Deepens xs view step` says how a step of reading depends on the limit of depth. The step has the
operands `xs` at hand, `view` are the operands in what it makes of them, and these are at least as
deep. Under a limit that the operands at hand meet, the step makes the same if the limit is met by
the operands that it makes, and refuses a tree that is too deep otherwise. Steps of this kind can
be chained, so nothing but the depth of the last result counts.
-/

namespace SymbolicCalculus

variable {K : Type}

/-! ## Depths -/

theorem Operator.depth_node (op : Operator) (a b : Expr K) :
    (op.node a b).depth = max a.depth b.depth + 1 := by
  cases op <;>
    simp [node, Expr.depth, Expr.addendsDepth, Expr.factorsDepth, Addend.plus, Addend.minus]

namespace Operand

variable [Scalar K]

/-- The operand was built from the source: a leaf, a group, a call, an operand with a sign, or two
operands with an operator between them. -/
inductive Built : Operand K → Prop
  | number (v : K) (span : Span) : Built (.atom (.number v) span)
  | constant (c : Constant) (span : Span) : Built (.atom (.constant c) span)
  | var (name : String) (span : Span) : Built (.atom (.var name) span)
  | group {x : Operand K} (span : Span) : Built x → Built ⟨x.expr, span, x.depth⟩
  | call {x : Operand K} (f : Fn) (span : Span) : Built x → Built (x.below (.call f) span)
  | negated {x : Operand K} (sign : Span) : Built x → Built (Chain.negated sign x)
  | apply {x y : Operand K} (op : Operator) : Built x → Built y → Built (x.apply op y)

omit [Scalar K] in
/-- Applying an operator extends a list or adds a level, and the depth follows. -/
theorem depth_apply_eq (op : Operator) {x y : Operand K} (hx : x.depth = x.expr.depth)
    (hy : y.depth = y.expr.depth) : (x.apply op y).depth = (x.apply op y).expr.depth := by
  obtain ⟨e, span, depth⟩ := x
  obtain rfl : e.depth = depth := hx.symm
  -- addition, subtraction and multiplication extend a list of the same kind, and every other case
  -- makes a node
  unfold apply
  split
  · next as he =>
    cases he
    simp only [Expr.depth, Expr.addendsDepth_append, Expr.addendsDepth, Addend.plus, hy]
    omega
  · next as he =>
    cases he
    simp only [Expr.depth, Expr.addendsDepth_append, Expr.addendsDepth, Addend.minus, hy]
    omega
  · next es he =>
    cases he
    simp only [Expr.depth, Expr.factorsDepth_append, Expr.factorsDepth, hy]
    omega
  · exact (Operator.depth_node ..).symm ▸ hy ▸ rfl

/-- The depth that an operand carries along is that of its expression. -/
theorem Built.depth_eq {x : Operand K} (h : x.Built) : x.depth = x.expr.depth := by
  induction h with
  | number | constant | var => rfl
  | group _ _ ih => exact ih
  | call _ _ _ ih => exact congrArg Nat.succ ih
  | @negated x _ _ ih =>
      have := Expr.one_le_depth x.expr
      show x.depth + 1 = Expr.depth (.product [.number Scalar.minusOne, x.expr])
      simp only [Expr.depth, Expr.factorsDepth, ih]
      omega
  | apply op _ _ ihx ihy => exact depth_apply_eq op ihx ihy

end Operand

/-- The greatest depth of some operands. It is one if there are none. -/
def deepest (xs : List (Operand K)) : Nat := xs.foldr (fun x n => max x.depth n) 1

/-- The greatest depth meets a bound if every depth does, and the bound is at least one. -/
theorem deepest_le_iff {xs : List (Operand K)} {n : Nat} :
    deepest xs ≤ n ↔ 1 ≤ n ∧ ∀ x ∈ xs, x.depth ≤ n := by
  induction xs with
  | nil => simp [deepest]
  | cons x xs ih =>
      rw [List.forall_mem_cons, and_left_comm, ← ih]
      exact Nat.max_le

theorem one_le_deepest (xs : List (Operand K)) : 1 ≤ deepest xs :=
  (deepest_le_iff.mp (Nat.le_refl _)).1

theorem depth_le_deepest {xs : List (Operand K)} {x : Operand K} (h : x ∈ xs) :
    x.depth ≤ deepest xs :=
  (deepest_le_iff.mp (Nat.le_refl _)).2 x h

/-- The deepest operand of two lists is in one of them. -/
theorem deepest_append (xs ys : List (Operand K)) :
    deepest (xs ++ ys) = max (deepest xs) (deepest ys) := by
  induction xs with
  | nil => exact (Nat.max_eq_right (one_le_deepest ys)).symm
  | cons x xs ih => exact (congrArg (max x.depth) ih).trans (Nat.max_assoc ..).symm

/-- The operands `ys` are the operands `xs` and leaves besides. -/
def AddsLeaves [Scalar K] (xs ys : List (Operand K)) : Prop :=
  xs ⊆ ys ∧ ∀ y ∈ ys, y ∈ xs ∨ y.Built ∧ y.depth = 1

namespace AddsLeaves

variable [Scalar K]

theorem refl (xs : List (Operand K)) : AddsLeaves xs xs :=
  ⟨List.Subset.refl _, fun _ => Or.inl⟩

theorem leaf {x : Operand K} (hbuilt : x.Built) (hdepth : x.depth = 1) : AddsLeaves [] [x] :=
  ⟨List.nil_subset _, fun y hy => by
    obtain rfl := List.mem_singleton.mp hy
    exact Or.inr ⟨hbuilt, hdepth⟩⟩

/-- Leaves may be added to both parts of a list. -/
theorem append {xs xs' ys ys' : List (Operand K)} (h : AddsLeaves xs ys)
    (h' : AddsLeaves xs' ys') : AddsLeaves (xs ++ xs') (ys ++ ys') := by
  refine ⟨List.append_subset.mpr ⟨?_, ?_⟩, fun y hy => ?_⟩
  · exact List.subset_append_of_subset_left ys' h.1
  · exact List.subset_append_of_subset_right ys h'.1
  · rcases List.mem_append.mp hy with hy | hy
    · exact (h.2 y hy).imp_left (List.mem_append_left xs')
    · exact (h'.2 y hy).imp_left (List.mem_append_right xs)

/-- Leaves do not change the greatest depth. -/
theorem deepest_eq {xs ys : List (Operand K)} (h : AddsLeaves xs ys) :
    deepest ys = deepest xs := by
  -- leaves are no deeper than one, and no operand is lost
  refine Nat.le_antisymm ?_ ?_
  · refine deepest_le_iff.mpr ⟨one_le_deepest _, fun y hy => ?_⟩
    rcases h.2 y hy with hy | ⟨-, hdepth⟩
    · exact depth_le_deepest hy
    · exact hdepth ▸ one_le_deepest xs
  · exact deepest_le_iff.mpr ⟨one_le_deepest _, fun x hx => depth_le_deepest (h.1 hx)⟩

end AddsLeaves

/-! ## Steps under a limit -/

variable [Scalar K] {α β : Type} {xs ys : List (Operand K)} {view : α → List (Operand K)}
  {view' : β → List (Operand K)} {step : Nat → Except (Located ParseError) α}

/-- What a step makes of the operands `xs` is as deep as they are or deeper, and it depends on the
limit of depth only as far as it meets that limit. -/
def Deepens (xs : List (Operand K)) (view : α → List (Operand K))
    (step : Nat → Except (Located ParseError) α) : Prop :=
  (∀ x ∈ xs, x.Built) → ∀ limit a, step limit = .ok a →
    (∀ x ∈ view a, x.Built) ∧ deepest xs ≤ deepest (view a) ∧
      ∀ d, deepest xs ≤ d →
        (deepest (view a) ≤ d → step d = .ok a) ∧
        (d < deepest (view a) → ∃ span, step d = .error (.atSpan (.expressionTooDeep d) span))

namespace Deepens

/-- A step without a limit, which makes nothing deeper. -/
theorem of_deepest_eq {r : Except (Located ParseError) α}
    (h : ∀ a, r = .ok a → ((∀ x ∈ xs, x.Built) → ∀ x ∈ view a, x.Built) ∧
      deepest (view a) = deepest xs) : Deepens xs view fun _ => r := by
  intro hxs _ a ha
  obtain ⟨hbuilt, heq⟩ := h a ha
  refine ⟨hbuilt hxs, Nat.le_of_eq heq.symm, fun d hd => ⟨fun _ => ha, fun hlt => ?_⟩⟩
  exact absurd hlt (Nat.not_lt_of_le (heq ▸ hd))

/-- A step without a limit, which adds leaves at most. -/
theorem const {r : Except (Located ParseError) α}
    (h : ∀ a, r = .ok a → AddsLeaves xs (view a)) : Deepens xs view fun _ => r :=
  of_deepest_eq fun a ha =>
    ⟨fun hxs x hx => ((h a ha).2 x hx).elim (hxs x) And.left, (h a ha).deepest_eq⟩

theorem ok {a : α} (h : xs = view a) : Deepens xs view fun _ => .ok a :=
  const fun b hb => by
    cases hb
    exact h ▸ .refl xs

/-- An operand made of others is refused exactly if it is too deep. -/
theorem limit {z : Operand K} (hbuilt : (∀ x ∈ xs, x.Built) → z.Built)
    (hle : ∀ x ∈ xs, x.depth ≤ z.depth) :
    Deepens xs (fun z => [z]) fun d => z.limit d := by
  intro hxs _ y hy
  obtain ⟨-, rfl⟩ := Operand.limit_eq_ok_iff.mp hy
  have hsingle : deepest [z] = max z.depth 1 := rfl
  have hxs' : deepest xs ≤ deepest [z] := deepest_le_iff.mpr ⟨one_le_deepest _, fun x hx =>
    Nat.le_trans (hle x hx) (depth_le_deepest List.mem_cons_self)⟩
  have hone := one_le_deepest xs
  dsimp only
  -- the limit is checked against the operand made, which is the deepest one in sight
  refine ⟨List.forall_mem_singleton.mpr (hbuilt hxs), hxs', fun d hd => ⟨fun h => ?_, fun h => ?_⟩⟩
  · exact Operand.limit_eq_ok_iff.mpr ⟨by omega, rfl⟩
  · exact ⟨z.span, if_pos (show z.depth > d by omega)⟩

/-- Steps may be chained, since what the second one makes is at least as deep as what the first one
makes. -/
theorem bind {f : α → Nat → Except (Located ParseError) β} (hstep : Deepens xs view step)
    (hf : ∀ a, Deepens (view a) view' (f a)) :
    Deepens xs view' fun d => step d >>= fun a => f a d := by
  intro hxs limit b hb
  obtain ⟨a, ha, hb⟩ := bind_eq_ok_iff.mp hb
  obtain ⟨hbuilt, hle, hlimits⟩ := hstep hxs limit a ha
  obtain ⟨hbuilt', hle', hlimits'⟩ := hf a hbuilt limit b hb
  refine ⟨hbuilt', Nat.le_trans hle hle', fun d hd => ⟨fun h => ?_, fun h => ?_⟩⟩
  · have hd' := Nat.le_trans hle' h
    exact bind_eq_ok_iff.mpr ⟨a, (hlimits d hd).1 hd', (hlimits' d hd').1 h⟩
  · -- the limit is met by the first step or it is not, and then that step fails
    rcases Nat.lt_or_ge d (deepest (view a)) with hlt | hge
    · obtain ⟨span, herr⟩ := (hlimits d hd).2 hlt
      exact ⟨span, bind_eq_error_iff.mpr (Or.inl herr)⟩
    · obtain ⟨span, herr⟩ := (hlimits' d hge).2 h
      exact ⟨span, bind_eq_error_iff.mpr (Or.inr ⟨a, (hlimits d hd).1 hge, herr⟩)⟩

/-- What a step makes may be put differently as long as it has the same operands. -/
theorem map {f : α → β} (hstep : Deepens xs view step) (hf : ∀ a, view' (f a) = view a) :
    Deepens xs view' fun d => (step d).map f := by
  have hmap : (fun d => (step d).map f) = fun d => step d >>= fun a => .ok (f a) := by
    funext d
    cases step d <;> rfl
  rw [hmap]
  exact hstep.bind fun a => ok (hf a).symm

/-- A step leaves the operands around those that it works on alone. -/
theorem framed (hstep : Deepens xs view step) (before after : List (Operand K)) :
    Deepens (before ++ xs ++ after) (fun a => before ++ view a ++ after) step := by
  intro hall limit a ha
  obtain ⟨hall, hafter⟩ := List.forall_mem_append.mp hall
  obtain ⟨hbefore, hxs⟩ := List.forall_mem_append.mp hall
  obtain ⟨hbuilt, hle, hlimits⟩ := hstep hxs limit a ha
  have hall' : ∀ x ∈ before ++ view a ++ after, x.Built :=
    List.forall_mem_append.mpr ⟨List.forall_mem_append.mpr ⟨hbefore, hbuilt⟩, hafter⟩
  simp only [deepest_append]
  refine ⟨hall', by omega, fun d hd => ⟨fun h => ?_, fun h => ?_⟩⟩
  · exact (hlimits d (by omega)).1 (by omega)
  · exact (hlimits d (by omega)).2 (by omega)

theorem append_right (hstep : Deepens xs view step) (after : List (Operand K)) :
    Deepens (xs ++ after) (fun a => view a ++ after) step :=
  hstep.framed [] after

theorem append_left (hstep : Deepens xs view step) (before : List (Operand K)) :
    Deepens (before ++ xs) (fun a => before ++ view a) step := by
  simpa only [List.append_nil] using hstep.framed before []

end Deepens

end SymbolicCalculus
