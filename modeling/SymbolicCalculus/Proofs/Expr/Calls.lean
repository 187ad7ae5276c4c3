import SymbolicCalculus.Proofs.Expr.Nodes
import SymbolicCalculus.Proofs.Expr.Normal

/-!
# Calls of functions

`preOrder` lists the nodes of a tree with a node before its children, left to right, and `calls` the
functions that the calls among them are to. Neither normalizing nor collapsing a tree adds a call,
drops one or changes their order.
-/

namespace SymbolicCalculus.Expr

variable {K : Type}

/-- Every node of the expression, a node before its children and left to right. -/
def preOrder (e : Expr K) : List (Expr K) :=
  e :: e.children.attach.flatMap fun c => c.1.preOrder
termination_by sizeOf e
decreasing_by exact sizeOf_lt_of_mem_children c.2

theorem preOrder_eq (e : Expr K) : e.preOrder = e :: e.children.flatMap preOrder := by
  rw [preOrder]
  simp only [List.flatMap_subtype, List.unattach_attach]

/-- The function that a call is to. -/
def called? : Expr K → Option Fn
  | call f _ => some f
  | _ => none

theorem called?_eq_some_iff {e : Expr K} {f : Fn} : e.called? = some f ↔ ∃ u, e = call f u := by
  cases e <;> simp [called?]

/-- The functions called in an expression, in pre-order. -/
def calls (e : Expr K) : List Fn := e.preOrder.filterMap called?

theorem mem_calls_iff {e : Expr K} {f : Fn} : f ∈ e.calls ↔ ∃ u, call f u ∈ e.preOrder := by
  simp only [calls, List.mem_filterMap, called?_eq_some_iff]
  grind

/-! ## Nodes -/

theorem calls_eq (e : Expr K) : e.calls = e.called?.toList ++ e.children.flatMap calls := by
  rw [calls, preOrder_eq, List.filterMap_cons, List.filterMap_flatMap]
  cases e.called? <;> rfl

@[simp] theorem calls_number (v : K) : (number v).calls = [] := calls_eq _

@[simp] theorem calls_constant (c : Constant) : (constant c : Expr K).calls = [] := calls_eq _

@[simp] theorem calls_var (name : String) : (var name : Expr K).calls = [] := calls_eq _

@[simp] theorem calls_sum (as : List (Addend (Expr K))) :
    (sum as).calls = as.flatMap fun a => a.expr.calls := by
  rw [calls_eq, children, List.flatMap_map]
  rfl

@[simp] theorem calls_product (es : List (Expr K)) : (product es).calls = es.flatMap calls :=
  calls_eq _

@[simp] theorem calls_quotient (a b : Expr K) : (quotient a b).calls = a.calls ++ b.calls := by
  simp [calls_eq (quotient a b), called?, children]

@[simp] theorem calls_power (a b : Expr K) : (power a b).calls = a.calls ++ b.calls := by
  simp [calls_eq (power a b), called?, children]

@[simp] theorem calls_call (f : Fn) (a : Expr K) : (call f a).calls = f :: a.calls := by
  simp [calls_eq (call f a), called?, children]

/-! ## Lists of entries -/

/-- Splicing a sum into another one keeps its calls. -/
theorem calls_asAddends (e : Expr K) (s : Bool) :
    ((e.asAddends s).flatMap fun a => a.expr.calls) = e.calls := by
  cases e with
  | sum as => simp [asAddends, List.flatMap_map]
  | _ => exact List.append_nil _

theorem calls_asFactors (e : Expr K) : e.asFactors.flatMap calls = e.calls := by
  cases e with
  | product es => exact (calls_product es).symm
  | _ => exact List.append_nil _

@[simp] theorem calls_collapse [Scalar K] (e : Expr K) : e.collapse.calls = e.calls := by
  unfold collapse
  split <;> simp

/-! ## Normal forms -/

mutual

/-- Normalizing a tree keeps its calls and their order. -/
@[simp] theorem calls_normalize (e : Expr K) : e.normalize.calls = e.calls := by
  match e with
  | number _ | constant _ | var _ => rfl
  | sum as => rw [normalize, calls_sum, calls_sum, calls_normalizeAddends as]
  | product es => rw [normalize, calls_product, calls_product, calls_normalizeFactors es]
  | quotient a b =>
    rw [normalize, calls_quotient, calls_quotient, calls_normalize a, calls_normalize b]
  | power a b => rw [normalize, calls_power, calls_power, calls_normalize a, calls_normalize b]
  | call f a => rw [normalize, calls_call, calls_call, calls_normalize a]

theorem calls_normalizeAddends (as : List (Addend (Expr K))) :
    ((normalizeAddends as).flatMap fun a => a.expr.calls) = as.flatMap fun a => a.expr.calls := by
  match as with
  | [] => rfl
  | ⟨e, s⟩ :: as =>
    rw [normalizeAddends, List.flatMap_append, calls_asAddends, calls_normalize e,
      calls_normalizeAddends as, List.flatMap_cons]

theorem calls_normalizeFactors (es : List (Expr K)) :
    (normalizeFactors es).flatMap calls = es.flatMap calls := by
  match es with
  | [] => rfl
  | e :: es =>
    rw [normalizeFactors, List.flatMap_append, calls_asFactors, calls_normalize e,
      calls_normalizeFactors es, List.flatMap_cons]

end

end SymbolicCalculus.Expr
