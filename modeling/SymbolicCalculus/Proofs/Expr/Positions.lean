import Mathlib.Data.List.Nodup
import SymbolicCalculus.Proofs.Expr.Nodes

/-!
# The places of the nodes of a tree

`Expr.subtree? e p` is the node of a tree at the position `p`. The recursive post-order visits every
position of a tree once (`Node.mem_postOrder_iff`, `Node.nodup_postOrder`), and forgetting the
positions leaves `Expr.postOrder`. So equal subtrees in different places are different nodes.
-/

namespace SymbolicCalculus

variable {K : Type}

namespace Expr

/-- The node at a position of the tree, if the tree reaches there. -/
def subtree? (e : Expr K) : Position → Option (Expr K)
  | [] => some e
  | i :: p => (e.subtree? p).bind fun parent => parent.children[i]?

/-- The last entry of a position says into which child of the root it leads. -/
theorem subtree?_append_singleton (e : Expr K) (q : Position) (i : Nat) :
    e.subtree? (q ++ [i]) = e.children[i]?.bind fun child => child.subtree? q := by
  induction q with
  | nil => simp [subtree?]
  | cons j q ih => rw [List.cons_append, subtree?, ih, Option.bind_assoc]; rfl

mutual

/-- A tree has as many nodes as are counted. -/
theorem length_postOrder (e : Expr K) : e.postOrder.length = e.nodeCount := by
  match e with
  | number _ | constant _ | var _ => rfl
  | sum as =>
    rw [postOrder, List.length_append, length_postOrderAddends as, nodeCount]
    rfl
  | product es =>
    rw [postOrder, List.length_append, length_postOrderFactors es, nodeCount]
    rfl
  | quotient a b | power a b =>
    rw [postOrder, List.length_append, List.length_append, length_postOrder a, length_postOrder b,
      nodeCount]
    rfl
  | call f a =>
    rw [postOrder, List.length_append, length_postOrder a, nodeCount]
    rfl

theorem length_postOrderAddends (as : List (Addend (Expr K))) :
    (postOrderAddends as).length = addendsNodeCount as := by
  match as with
  | [] => rfl
  | ⟨e, s⟩ :: as =>
    rw [postOrderAddends, List.length_append, length_postOrder e, length_postOrderAddends as,
      addendsNodeCount]

theorem length_postOrderFactors (es : List (Expr K)) :
    (postOrderFactors es).length = factorsNodeCount es := by
  match es with
  | [] => rfl
  | e :: es =>
    rw [postOrderFactors, List.length_append, length_postOrder e, length_postOrderFactors es,
      factorsNodeCount]

end

end Expr

namespace Node

/-- What holds of every node of whose children it holds holds of all nodes. -/
theorem children_induction {P : Node K → Prop} (h : ∀ n, (∀ child ∈ n.children, P child) → P n)
    (n : Node K) : P n :=
  h n fun child _ => children_induction h child
termination_by sizeOf n.expr
decreasing_by exact sizeOf_lt_of_mem_children ‹_›

/-- The children of a node stand one entry below it, each at its index. -/
theorem mem_children_iff {n c : Node K} : c ∈ n.children ↔
    ∃ i, c.position = i :: n.position ∧ n.expr.children[i]? = some c.expr := by
  rw [children, List.mem_mapIdx]
  constructor
  · rintro ⟨i, hi, rfl⟩
    exact ⟨i, rfl, List.getElem?_eq_getElem hi⟩
  · rintro ⟨i, hposition, hexpr⟩
    obtain ⟨hi, hchild⟩ := List.getElem?_eq_some_iff.mp hexpr
    exact ⟨i, hi, by rw [hchild, ← hposition]⟩

theorem map_expr_children (n : Node K) : n.children.map expr = n.expr.children := by
  refine List.ext_getElem ?_ fun i _ _ => ?_
  · rw [List.length_map, children, List.length_mapIdx]
  · simp only [children, List.getElem_map, List.getElem_mapIdx]

/-- No position lies below two children of a node. -/
theorem pairwise_children (n : Node K) :
    n.children.Pairwise fun c d => ∀ q, c.position <:+ q → ¬ d.position <:+ q := by
  rw [List.pairwise_iff_getElem]
  intro i j hi hj hij q hc hd
  simp only [children, List.getElem_mapIdx] at hc hd
  -- both positions have the same length and end `q`, so they would be the same
  have heq : i :: n.position = j :: n.position :=
    (List.suffix_of_suffix_length_le hc hd (Nat.le_refl _)).eq_of_length rfl
  exact absurd (List.cons.inj heq).1 (Nat.ne_of_lt hij)

/-- The nodes of the tree below a node and the node itself in their places, children before their
parent and left to right. -/
def postOrder (n : Node K) : List (Node K) :=
  (n.children.attach.flatMap fun c => c.1.postOrder) ++ [n]
termination_by sizeOf n.expr
decreasing_by exact sizeOf_lt_of_mem_children c.2

theorem postOrder_eq (n : Node K) : n.postOrder = n.children.flatMap postOrder ++ [n] := by
  rw [postOrder]
  simp only [List.flatMap_subtype, List.unattach_attach]

/-- Without their positions, the nodes are those of the expression in post-order. -/
theorem map_expr_postOrder (n : Node K) : n.postOrder.map expr = n.expr.postOrder := by
  -- induction over the tree of places, along the recursion of the traversal
  induction n using children_induction with
  | _ n ih =>
    rw [postOrder_eq, Expr.postOrder_eq, ← map_expr_children, List.map_append, List.map_flatMap,
      List.flatMap_map, List.flatMap_congr ih, List.map_singleton]

/-- The post-order visits the positions at which there is a node, and finds that node there. -/
theorem mem_postOrder_iff {n m : Node K} : m ∈ n.postOrder ↔
    ∃ q, m.position = q ++ n.position ∧ n.expr.subtree? q = some m.expr := by
  induction n using children_induction generalizing m with
  | _ n ih =>
    rw [postOrder_eq, List.mem_append, List.mem_flatMap, List.mem_singleton]
    constructor
    · rintro (⟨c, hc, hm⟩ | rfl)
      · obtain ⟨q, hposition, hexpr⟩ := (ih c hc).mp hm
        obtain ⟨i, hi, hchild⟩ := mem_children_iff.mp hc
        refine ⟨q ++ [i], by rw [hposition, hi, List.append_assoc, List.singleton_append], ?_⟩
        rw [Expr.subtree?_append_singleton, hchild]
        exact hexpr
      · exact ⟨[], rfl, rfl⟩
    · rintro ⟨q, hposition, hexpr⟩
      -- the node itself, or the last entry of the way says in which child it is
      rcases List.eq_nil_or_concat q with rfl | ⟨q, i, rfl⟩
      · refine Or.inr ?_
        obtain ⟨p, e⟩ := m
        cases hposition
        cases hexpr
        rfl
      · rw [List.concat_eq_append, Expr.subtree?_append_singleton] at hexpr
        obtain ⟨child, hchild, hexpr⟩ := Option.bind_eq_some_iff.mp hexpr
        have hc : ⟨i :: n.position, child⟩ ∈ n.children := mem_children_iff.mpr ⟨i, rfl, hchild⟩
        exact Or.inl ⟨_, hc, (ih _ hc).mpr ⟨q, by rw [hposition]; simp, hexpr⟩⟩

theorem position_suffix_of_mem_postOrder {n m : Node K} (h : m ∈ n.postOrder) :
    n.position <:+ m.position := by
  obtain ⟨q, hposition, -⟩ := mem_postOrder_iff.mp h
  exact ⟨q, hposition.symm⟩

/-- The post-order visits no position twice. -/
theorem nodup_postOrder (n : Node K) : (n.postOrder.map position).Nodup := by
  induction n using children_induction with
  | _ n ih =>
    rw [postOrder_eq, List.map_append, List.map_flatMap, List.nodup_append', List.nodup_flatMap]
    refine ⟨⟨ih, ?_⟩, List.nodup_singleton _, ?_⟩
    -- a position in two children would lie below both of their positions
    · refine n.pairwise_children.imp fun hapart q hc hd => ?_
      obtain ⟨m, hm, rfl⟩ := List.mem_map.mp hc
      obtain ⟨m', hm', heq⟩ := List.mem_map.mp hd
      exact hapart _ (position_suffix_of_mem_postOrder hm)
        (heq ▸ position_suffix_of_mem_postOrder hm')
    · -- the positions below the node are longer than its own
      intro q hq hself
      obtain ⟨c, hc, hq⟩ := List.mem_flatMap.mp hq
      obtain ⟨m, hm, rfl⟩ := List.mem_map.mp hq
      obtain ⟨i, hi, -⟩ := mem_children_iff.mp hc
      have hlength := (position_suffix_of_mem_postOrder hm).length_le
      rw [List.mem_singleton.mp hself, hi, List.length_cons] at hlength
      omega

end Node

namespace Expr

/-- The nodes of a tree in their places, in post-order. -/
def nodes (e : Expr K) : List (Node K) := Node.postOrder ⟨[], e⟩

/-- A node is in the tree if and only if it is found at its position. -/
theorem mem_nodes_iff {e : Expr K} {n : Node K} :
    n ∈ e.nodes ↔ e.subtree? n.position = some n.expr := by
  rw [nodes, Node.mem_postOrder_iff]
  simp

/-- No two nodes of a tree have the same position. -/
theorem nodup_nodes (e : Expr K) : (e.nodes.map Node.position).Nodup := Node.nodup_postOrder _

theorem map_expr_nodes (e : Expr K) : e.nodes.map Node.expr = e.postOrder :=
  Node.map_expr_postOrder _

theorem length_nodes (e : Expr K) : e.nodes.length = e.nodeCount := by
  rw [← length_postOrder, ← map_expr_nodes, List.length_map]

/-- The nodes in post-order are those at the positions of the tree. -/
theorem mem_postOrder_iff_subtree? {e f : Expr K} :
    f ∈ e.postOrder ↔ ∃ p, e.subtree? p = some f := by
  rw [← map_expr_nodes, List.mem_map]
  constructor
  · rintro ⟨n, hn, rfl⟩
    exact ⟨n.position, mem_nodes_iff.mp hn⟩
  · rintro ⟨p, hp⟩
    exact ⟨⟨p, f⟩, mem_nodes_iff.mpr hp, rfl⟩

end Expr

end SymbolicCalculus
