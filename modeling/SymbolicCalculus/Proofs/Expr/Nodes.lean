import SymbolicCalculus.Expr.Traversal

/-!
# The nodes of a tree

The nodes of a tree are its root and the nodes of the children of the root. So what holds of a node
whenever it holds of its children holds of every tree, and what passes from a node to its children
holds of all nodes of a tree of which it holds.
-/

namespace SymbolicCalculus.Expr

variable {K : Type}

/-- The nodes of addends are the nodes of each of them in turn. -/
theorem postOrderAddends_eq (as : List (Addend (Expr K))) :
    postOrderAddends as = as.flatMap fun a => a.expr.postOrder := by
  induction as with
  | nil => rfl
  | cons a as ih => rw [postOrderAddends, List.flatMap_cons, ih]

/-- The nodes of factors are the nodes of each of them in turn. -/
theorem postOrderFactors_eq (es : List (Expr K)) :
    postOrderFactors es = es.flatMap postOrder := by
  induction es with
  | nil => rfl
  | cons e es ih => rw [postOrderFactors, List.flatMap_cons, ih]

/-- The post-order of a tree is that of the children of the root, then the root. -/
theorem postOrder_eq (e : Expr K) : e.postOrder = e.children.flatMap postOrder ++ [e] := by
  cases e with
  | number | constant | var => rfl
  | sum as => rw [postOrder, postOrderAddends_eq, children, List.flatMap_map]
  | product es => rw [postOrder, postOrderFactors_eq, children]
  | quotient a b | power a b | call f a => simp [postOrder, children]

/-- A node is the root or a node of a child. -/
theorem mem_postOrder_iff {e n : Expr K} :
    n ∈ e.postOrder ↔ n = e ∨ ∃ child ∈ e.children, n ∈ child.postOrder := by
  rw [postOrder_eq, List.mem_append, List.mem_flatMap, List.mem_singleton, Or.comm]

theorem self_mem_postOrder (e : Expr K) : e ∈ e.postOrder := mem_postOrder_iff.mpr (Or.inl rfl)

theorem mem_postOrder_of_mem_children {e child n : Expr K} (hchild : child ∈ e.children)
    (hn : n ∈ child.postOrder) : n ∈ e.postOrder :=
  mem_postOrder_iff.mpr (Or.inr ⟨child, hchild, hn⟩)

/-- What holds of every expression of whose children it holds holds of all expressions. -/
theorem children_induction {P : Expr K → Prop} (h : ∀ e, (∀ child ∈ e.children, P child) → P e)
    (e : Expr K) : P e :=
  h e fun child _ => children_induction h child
termination_by sizeOf e
decreasing_by exact sizeOf_lt_of_mem_children ‹_›

/-- What passes from every node to its children holds of all nodes of a tree of which it holds. -/
theorem forall_mem_postOrder {P : Expr K → Prop} (hP : ∀ e, P e → ∀ c ∈ e.children, P c)
    (e : Expr K) (he : P e) : ∀ n ∈ e.postOrder, P n := by
  induction e using children_induction with
  | _ e ih =>
    intro n hn
    rcases mem_postOrder_iff.mp hn with rfl | ⟨child, hchild, hn⟩
    · exact he
    · exact ih child hchild (hP e he child hchild) n hn

end SymbolicCalculus.Expr
