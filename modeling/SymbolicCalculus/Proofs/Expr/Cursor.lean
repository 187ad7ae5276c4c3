import SymbolicCalculus.Proofs.Expr.Positions
import SymbolicCalculus.Proofs.Expr.Variables

/-!
# The cursor yields the post-order

A cursor keeps the nodes it has passed on a stack and of the nodes it has yielded only the last one.
`Cursor.Yields c ns d` says that it yields `ns` on the way from `c` to `d`. With a node on top of
the stack below which nothing was yielded last, it yields the post-order of that node and takes it
off the stack (`Cursor.yields_postOrder`): when the node comes to the top again, its last child has
just been yielded, and at no other time.
-/

namespace SymbolicCalculus

variable {K : Type}

namespace Cursor

/-- The traversal yields the nodes `ns`, each in its place, and goes from the first cursor to the
second. -/
inductive Yields : Cursor K → List (Node K) → Cursor K → Prop where
  | nil (c : Cursor K) : Yields c [] c
  | cons {c d : Cursor K} {n : Node K} {stack ns : List (Node K)}
      (hnext : c.next? = some (n.expr, ⟨stack, some n.position⟩))
      (hrest : Yields ⟨stack, some n.position⟩ ns d) : Yields c (n :: ns) d

namespace Yields

variable {b c d : Cursor K} {ms ns : List (Node K)}

/-- What is yielded on the way to a cursor and what is yielded from there make one traversal. -/
theorem trans (hbc : Yields b ms c) (hcd : Yields c ns d) : Yields b (ms ++ ns) d := by
  induction hbc with
  | nil => exact hcd
  | cons hnext _ ih => exact .cons hnext (ih hcd)

/-- Only the next node counts, not how a cursor comes to it. -/
theorem of_next?_eq (hbc : b.next? = c.next?) (hns : ns ≠ []) (h : Yields c ns d) :
    Yields b ns d := by
  cases h with
  | nil => exact absurd rfl hns
  | cons hnext hrest => exact .cons (hbc.trans hnext) hrest

/-- If nothing is left after the nodes, they are all that the traversal yields. -/
theorem take_eq (h : Yields c ns d) (hd : d.next? = none) (count : Nat) :
    c.take count = (ns.map Node.expr).take count := by
  induction h generalizing count with
  | nil c =>
      cases count with
      | zero => rfl
      | succ count => rw [Cursor.take, hd]; rfl
  | cons hnext _ ih =>
      cases count with
      | zero => rfl
      | succ count => rw [Cursor.take, hnext, List.map_cons, List.take_succ_cons, ← ih hd count]

end Yields

/-! ## A single node -/

variable {last : Option Position} {n : Node K} {stack : List (Node K)}

/-- The cursor goes from a node whose children are not done to its first child. -/
theorem descend_of_children {first : Node K} {others : List (Node K)}
    (h : childrenDone last n = false) (hchildren : n.children = first :: others) :
    descend last n stack = descend last first (others ++ n :: stack) := by
  rw [descend.eq_1 last n, if_neg (Bool.eq_false_iff.mp h)]
  split
  · next hleaf => exact absurd (hleaf.symm.trans hchildren) (List.cons_ne_nil _ _).symm
  · next hcons =>
    obtain ⟨rfl, rfl⟩ := List.cons.inj (hcons.symm.trans hchildren)
    rfl

/-- A node whose children were yielded is the next one. -/
theorem next?_of_childrenDone (h : childrenDone last n = true) :
    next? ⟨n :: stack, last⟩ = some (n.expr, ⟨stack, some n.position⟩) := by
  have hdescend : descend last n stack = (n, stack) := by
    unfold descend
    exact if_pos h
  simp only [next?, hdescend]

/-- Otherwise its children come before it. -/
theorem next?_of_not_childrenDone (h : childrenDone last n = false) :
    next? ⟨n :: stack, last⟩ = next? ⟨n.children ++ n :: stack, last⟩ := by
  cases hchildren : n.children with
  | nil =>
      have hdone : childrenDone last n = true := by rw [childrenDone, hchildren]; rfl
      exact absurd (h.symm.trans hdone) Bool.false_ne_true
  | cons first others => simp only [next?, descend_of_children h hchildren, List.cons_append]

/-- Neither the node nor a node below it was yielded last. -/
def Fresh (last : Option Position) (n : Node K) : Prop := ∀ q ∈ last, ¬ n.position <:+ q

/-- The children of a fresh node are fresh. -/
theorem Fresh.child (h : Fresh last n) {c : Node K} (hc : c ∈ n.children) : Fresh last c := by
  obtain ⟨i, hi, -⟩ := Node.mem_children_iff.mp hc
  intro q hq hsuffix
  rw [hi] at hsuffix
  exact h q hq ((List.suffix_cons i n.position).trans hsuffix)

/-- The children of a fresh node are done only if there are none. -/
theorem Fresh.childrenDone_eq_false (h : Fresh last n) (hn : n.children ≠ []) :
    childrenDone last n = false := by
  rw [childrenDone, List.getLast?_eq_getLast_of_ne_nil hn]
  refine beq_eq_false_iff_ne.mpr fun hlast => ?_
  exact h.child (List.getLast_mem hn) _ hlast (List.suffix_refl _)

/-- The place of the last of the given nodes, or what was yielded before if there are none. -/
def lastOf (last : Option Position) (ns : List (Node K)) : Option Position :=
  (ns.getLast?.map Node.position).or last

/-- After its last child was yielded, a node is done. -/
theorem childrenDone_lastOf (last : Option Position) (n : Node K) :
    childrenDone (lastOf last n.children) n = true := by
  rw [childrenDone, lastOf]
  cases n.children.getLast? with
  | none => rfl
  | some c => exact beq_self_eq_true _

/-! ## The traversal -/

/-- Nodes that lie side by side are traversed one after the other, if each of them is when nothing
in it was yielded last. -/
theorem yields_siblings {ns : List (Node K)}
    (hns : ∀ n ∈ ns, ∀ last stack, Fresh last n →
      Yields ⟨n :: stack, last⟩ n.postOrder ⟨stack, some n.position⟩)
    (hapart : ns.Pairwise fun c d => ∀ q, c.position <:+ q → ¬ d.position <:+ q)
    (hfresh : ∀ n ∈ ns, Fresh last n) (stack : List (Node K)) :
    Yields ⟨ns ++ stack, last⟩ (ns.flatMap Node.postOrder) ⟨stack, lastOf last ns⟩ := by
  induction ns generalizing last with
  | nil => exact .nil _
  | cons n ns ih =>
      obtain ⟨hn, hns⟩ := List.forall_mem_cons.mp hns
      obtain ⟨hfirst, hapart⟩ := List.pairwise_cons.mp hapart
      -- no later sibling lies above what was yielded last, which is in the first one
      have hfresh' : ∀ m ∈ ns, Fresh (some n.position) m := by
        intro m hm q hq
        cases hq
        exact hfirst m hm _ (List.suffix_refl _)
      have hrest := ih hns hapart hfresh'
      have hlast : lastOf (some n.position) ns = lastOf last (n :: ns) := by
        rw [lastOf, lastOf, List.getLast?_cons]
        cases ns.getLast? <;> rfl
      rw [hlast] at hrest
      exact (hn last (ns ++ stack) (hfresh n List.mem_cons_self)).trans hrest

/-- A fresh node is traversed in post-order, and the last node yielded is the node itself. -/
theorem yields_postOrder (n : Node K) (last : Option Position) (stack : List (Node K))
    (hfresh : Fresh last n) :
    Yields ⟨n :: stack, last⟩ n.postOrder ⟨stack, some n.position⟩ := by
  -- induction over the tree: the children lie on the stack above the node until all are yielded
  induction n using Node.children_induction generalizing last stack with
  | _ n ih =>
    have hchildren : Yields ⟨n.children ++ n :: stack, last⟩ (n.children.flatMap Node.postOrder)
        ⟨n :: stack, lastOf last n.children⟩ :=
      yields_siblings ih n.pairwise_children (fun _ hc => hfresh.child hc) (n :: stack)
    have hself : Yields ⟨n :: stack, lastOf last n.children⟩ [n] ⟨stack, some n.position⟩ :=
      .cons (next?_of_childrenDone (childrenDone_lastOf last n)) (.nil _)
    rw [Node.postOrder_eq]
    refine .of_next?_eq ?_ (by simp) (hchildren.trans hself)
    -- a leaf is done at once, and any other node is put off until its last child is yielded
    by_cases hleaf : n.children = []
    · rw [hleaf, List.nil_append]
    · exact next?_of_not_childrenDone (hfresh.childrenDone_eq_false hleaf)

/-- From the start, a cursor yields all nodes of the tree. -/
theorem yields_nodes (e : Expr K) : Yields (start e) e.nodes ⟨[], some []⟩ :=
  yields_postOrder ⟨[], e⟩ none [] fun _ hq => nomatch hq

end Cursor

namespace Expr

/-! ## The names of the variables -/

/-- Inserting a name keeps the order. -/
theorem pairwise_insertName {name : String} {names : List String}
    (h : names.Pairwise (· < ·)) : (insertName name names).Pairwise (· < ·) := by
  induction names with
  | nil => exact List.pairwise_singleton _ _
  | cons other names ih =>
      obtain ⟨hother, hnames⟩ := List.pairwise_cons.mp h
      unfold insertName
      split
      · next hlt =>
        refine List.pairwise_cons.mpr ⟨List.forall_mem_cons.mpr ⟨hlt, fun n hn => ?_⟩, h⟩
        exact String.lt_trans hlt (hother n hn)
      · split
        · exact h
        · next hnlt hne =>
          have hlt : other < name := String.not_le.mp fun hle =>
            hne (beq_iff_eq.mpr (String.le_antisymm hle (String.not_lt.mp hnlt)))
          refine List.pairwise_cons.mpr ⟨fun n hn => ?_, ih hnames⟩
          -- the names behind are the new one and the old ones, and both come later
          rcases mem_insertName_iff.mp hn with rfl | hn
          · exact hlt
          · exact hother n hn

/-- The names of the variables ascend, so none is repeated. -/
theorem pairwise_varNames (e : Expr K) : e.varNames.Pairwise (· < ·) := by
  unfold varNames
  induction e.postOrder.filterMap asVar? with
  | nil => exact .nil
  | cons name names ih => exact pairwise_insertName ih

/-- The names of the variables are those that stand at some position of the tree. -/
theorem mem_varNames_iff_subtree? {name : String} {e : Expr K} :
    name ∈ e.varNames ↔ ∃ p, e.subtree? p = some (var name) := by
  have hvar (f : Expr K) : f.asVar? = some name ↔ f = var name := by
    cases f <;> simp [asVar?]
  simp only [mem_varNames_iff, varOccurrences, List.mem_filterMap, hvar, exists_eq_right,
    mem_postOrder_iff_subtree?]

end Expr

open SymbolicCalculus.Expr

/-- **The cursor is the recursive traversal.** It yields the nodes of the tree in post-order and
then ends. These are the nodes at all positions of the tree, each once. So their number is that of
the nodes, and the variables among them have exactly the names that occur in the tree, in ascending
order and each once. -/
theorem Cursor.start_yields_nodes (e : Expr K) :
    (∃ done, (Cursor.start e).Yields e.nodes done ∧ done.next? = none) ∧
      (∀ count, (Cursor.start e).take count = e.postOrder.take count) ∧
      e.nodes.map Node.expr = e.postOrder ∧
      (e.nodes.map Node.position).Nodup ∧
      (∀ n : Node K, n ∈ e.nodes ↔ e.subtree? n.position = some n.expr) ∧
      e.nodeCount = e.nodes.length ∧
      (∀ name, name ∈ e.varNames ↔ ∃ p, e.subtree? p = some (var name)) ∧
      e.varNames.Pairwise (· < ·) := by
  refine ⟨⟨_, Cursor.yields_nodes e, rfl⟩, fun count => ?_, map_expr_nodes e, nodup_nodes e,
    fun n => mem_nodes_iff, (length_nodes e).symm, fun name => mem_varNames_iff_subtree?,
    pairwise_varNames e⟩
  rw [(Cursor.yields_nodes e).take_eq rfl, map_expr_nodes]

end SymbolicCalculus
