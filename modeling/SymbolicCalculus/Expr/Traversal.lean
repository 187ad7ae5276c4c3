import SymbolicCalculus.Expr.Basic

/-!
# Traversal

The nodes of an expression in post-order: children before their parent, left to right. `postOrder`
lists them by recursion. A `Cursor` yields them one at a time from an explicit stack, and knows a
node by its position in the tree, so equal subtrees in different places stay apart.

`nodeCount`, `depth` and `varNames` measure an expression.
-/

namespace SymbolicCalculus

namespace Expr

variable {K : Type}

/-! ### By recursion -/

mutual

/-- Every node of the expression, children before their parent and left to right. -/
def postOrder : Expr K → List (Expr K)
  | number value => [number value]
  | constant c => [constant c]
  | var name => [var name]
  | sum addends => postOrderAddends addends ++ [sum addends]
  | product factors => postOrderFactors factors ++ [product factors]
  | quotient a b => postOrder a ++ postOrder b ++ [quotient a b]
  | power a b => postOrder a ++ postOrder b ++ [power a b]
  | call f a => postOrder a ++ [call f a]

/-- The nodes below a sum. -/
def postOrderAddends : List (Addend (Expr K)) → List (Expr K)
  | [] => []
  | ⟨e, _⟩ :: as => postOrder e ++ postOrderAddends as

/-- The nodes below a product. -/
def postOrderFactors : List (Expr K) → List (Expr K)
  | [] => []
  | e :: es => postOrder e ++ postOrderFactors es

end

mutual

/-- The number of nodes. -/
def nodeCount : Expr K → Nat
  | number _ => 1
  | constant _ => 1
  | var _ => 1
  | sum addends => addendsNodeCount addends + 1
  | product factors => factorsNodeCount factors + 1
  | quotient a b => nodeCount a + nodeCount b + 1
  | power a b => nodeCount a + nodeCount b + 1
  | call _ a => nodeCount a + 1

/-- The number of nodes below a sum. -/
def addendsNodeCount : List (Addend (Expr K)) → Nat
  | [] => 0
  | ⟨e, _⟩ :: as => nodeCount e + addendsNodeCount as

/-- The number of nodes below a product. -/
def factorsNodeCount : List (Expr K) → Nat
  | [] => 0
  | e :: es => nodeCount e + factorsNodeCount es

end

mutual

/-- The number of levels of the tree. A leaf has one, and so has an empty sum or product. -/
def depth : Expr K → Nat
  | number _ => 1
  | constant _ => 1
  | var _ => 1
  | sum addends => addendsDepth addends + 1
  | product factors => factorsDepth factors + 1
  | quotient a b => max (depth a) (depth b) + 1
  | power a b => max (depth a) (depth b) + 1
  | call _ a => depth a + 1

/-- The number of levels below a sum. -/
def addendsDepth : List (Addend (Expr K)) → Nat
  | [] => 0
  | ⟨e, _⟩ :: as => max (depth e) (addendsDepth as)

/-- The number of levels below a product. -/
def factorsDepth : List (Expr K) → Nat
  | [] => 0
  | e :: es => max (depth e) (factorsDepth es)

end

/-- Adds a name to names in ascending order, unless it is already there. -/
def insertName (name : String) : List String → List String
  | [] => [name]
  | other :: rest =>
    if name < other then name :: other :: rest
    else if name == other then other :: rest
    else other :: insertName name rest

/-- The distinct names of the variables, in ascending order of their characters. -/
def varNames (e : Expr K) : List String :=
  (e.postOrder.filterMap asVar?).foldr insertName []

/-! ### With a cursor -/

/-- The children of a node, left to right. -/
def children : Expr K → List (Expr K)
  | number _ => []
  | constant _ => []
  | var _ => []
  | sum addends => addends.map Addend.expr
  | product factors => factors
  | quotient a b => [a, b]
  | power a b => [a, b]
  | call _ a => [a]

theorem sizeOf_lt_of_mem_children {e child : Expr K} (h : child ∈ e.children) :
    sizeOf child < sizeOf e := by
  cases e with
  | number | constant | var => exact absurd h List.not_mem_nil
  | sum addends =>
    obtain ⟨⟨_, s⟩, ha, rfl⟩ := List.mem_map.1 h
    have := List.sizeOf_lt_of_mem ha
    simp only [Addend.mk.sizeOf_spec, Expr.sum.sizeOf_spec] at this ⊢
    omega
  | product factors =>
    have := List.sizeOf_lt_of_mem (show child ∈ factors from h)
    simp only [Expr.product.sizeOf_spec]
    omega
  | quotient a b | power a b =>
    simp only [children, List.mem_cons, List.not_mem_nil, or_false] at h
    simp only [Expr.quotient.sizeOf_spec, Expr.power.sizeOf_spec]
    rcases h with rfl | rfl <;> omega
  | call f a =>
    simp only [children, List.mem_singleton] at h
    simp only [Expr.call.sizeOf_spec, h]
    omega

end Expr

/-- The place of a node in a tree: which child it is of its parent, then which child that is, and
so on up to the root, whose position is empty. -/
abbrev Position := List Nat

/-- A node together with its place in the tree. -/
structure Node (K : Type) where
  position : Position
  expr : Expr K

namespace Node

variable {K : Type}

/-- The children of a node, in their places. -/
def children (n : Node K) : List (Node K) :=
  n.expr.children.mapIdx fun i e => ⟨i :: n.position, e⟩

theorem sizeOf_lt_of_mem_children {n child : Node K} (h : child ∈ n.children) :
    sizeOf child.expr < sizeOf n.expr := by
  obtain ⟨i, hi, rfl⟩ := List.mem_mapIdx.1 h
  exact Expr.sizeOf_lt_of_mem_children (List.getElem_mem hi)

end Node

/-- A traversal under way: the nodes that are still to be yielded and are already known, the next
one to look at first, and the place of the node that was yielded last. -/
structure Cursor (K : Type) where
  /-- The nodes to look at. -/
  stack : List (Node K)
  /-- The place of the node that was yielded last. -/
  last : Option Position

namespace Cursor

variable {K : Type}

/-- A traversal of the whole expression that has yielded nothing yet. -/
def start (e : Expr K) : Cursor K := ⟨[⟨[], e⟩], none⟩

/-- The children of the node have all been yielded, or it has none: they are yielded left to right,
so it is enough to ask whether the last one was the latest. -/
def childrenDone (last : Option Position) (n : Node K) : Bool :=
  match n.children.getLast? with
  | none => true
  | some child => last == some child.position

/-- Goes down from the node `n` on top of the stack to the next node to yield, and returns it with
the nodes that were passed on the way put on the stack. -/
def descend (last : Option Position) (n : Node K) (stack : List (Node K)) :
    Node K × List (Node K) :=
  if childrenDone last n then (n, stack)
  else
    match h : n.children with
    | [] => (n, stack)
    | first :: others =>
      have : sizeOf first.expr < sizeOf n.expr := Node.sizeOf_lt_of_mem_children (by simp [h])
      -- the node itself comes after its other children and is looked at again then
      descend last first (others ++ n :: stack)
termination_by sizeOf n.expr

/-- The next node of the traversal with the traversal after it, or nothing when all nodes have been
yielded. -/
def next? (c : Cursor K) : Option (Expr K × Cursor K) :=
  match c.stack with
  | [] => none
  | n :: stack =>
    let (found, stack) := descend c.last n stack
    some (found.expr, ⟨stack, some found.position⟩)

/-- The next nodes of the traversal, at most `count` of them. -/
def take : (count : Nat) → Cursor K → List (Expr K)
  | 0, _ => []
  | count + 1, c =>
    match c.next? with
    | none => []
    | some (e, c) => e :: take count c

end Cursor

end SymbolicCalculus
