import SymbolicCalculus.Proofs.Expr.Normal
import SymbolicCalculus.Proofs.Expr.Variables

/-!
# What holds of all variables of an expression

`AllVars P e` says that `P` holds of every variable that occurs in `e`. It holds of a tree exactly
if it holds of the parts, and neither normalizing nor collapsing a tree makes a difference to it.
-/

namespace SymbolicCalculus.Expr

variable {K : Type} {P : String → Prop}

/-- The property holds of every variable of the expression. -/
def AllVars (P : String → Prop) (e : Expr K) : Prop := ∀ name ∈ e.varOccurrences, P name

theorem AllVars.mono {Q : String → Prop} {e : Expr K} (h : e.AllVars P)
    (hPQ : ∀ name, P name → Q name) : e.AllVars Q :=
  fun name hname => hPQ name (h name hname)

/-! ## Nodes -/

theorem allVars_number {v : K} : (number v).AllVars P := List.forall_mem_nil _

theorem allVars_constant {c : Constant} : (constant c : Expr K).AllVars P := List.forall_mem_nil _

theorem allVars_var {name : String} : (var name : Expr K).AllVars P ↔ P name :=
  List.forall_mem_singleton

/-- A property holds of all variables of a sum if it does for each term. -/
theorem allVars_sum {as : List (Addend (Expr K))} :
    (sum as).AllVars P ↔ ∀ a ∈ as, a.expr.AllVars P := by
  unfold AllVars
  rw [varOccurrences_sum]
  induction as with
  | nil => simp
  | cons a as ih => rw [addendOccurrences_cons, List.forall_mem_append, ih, List.forall_mem_cons]

/-- A property holds of all variables of a product if it does for each factor. -/
theorem allVars_product {es : List (Expr K)} :
    (product es).AllVars P ↔ ∀ e ∈ es, e.AllVars P := by
  unfold AllVars
  rw [varOccurrences_product]
  induction es with
  | nil => simp
  | cons e es ih => rw [factorOccurrences_cons, List.forall_mem_append, ih, List.forall_mem_cons]

theorem allVars_quotient {a b : Expr K} :
    (quotient a b).AllVars P ↔ a.AllVars P ∧ b.AllVars P := by
  unfold AllVars
  rw [varOccurrences_quotient, List.forall_mem_append]

theorem allVars_power {a b : Expr K} : (power a b).AllVars P ↔ a.AllVars P ∧ b.AllVars P := by
  unfold AllVars
  rw [varOccurrences_power, List.forall_mem_append]

theorem allVars_call {f : Fn} {a : Expr K} : (call f a).AllVars P ↔ a.AllVars P := by
  unfold AllVars
  rw [varOccurrences_call]

attribute [simp] allVars_number allVars_constant allVars_var allVars_sum allVars_product
  allVars_quotient allVars_power allVars_call

/-! ## Lists of entries -/

/-- Splicing a sum into another one makes no difference. -/
theorem forall_mem_asAddends {e : Expr K} {s : Bool} :
    (∀ a ∈ e.asAddends s, a.expr.AllVars P) ↔ e.AllVars P := by
  cases e with
  | sum as => simp [asAddends]
  | _ => exact List.forall_mem_singleton

/-- Splicing a product into another one makes no difference. -/
theorem forall_mem_asFactors {e : Expr K} :
    (∀ f ∈ e.asFactors, f.AllVars P) ↔ e.AllVars P := by
  cases e with
  | product es => exact allVars_product.symm
  | _ => exact List.forall_mem_singleton

@[simp] theorem allVars_collapse [Scalar K] {e : Expr K} :
    e.collapse.AllVars P ↔ e.AllVars P := by
  unfold collapse
  split <;> simp

/-! ## Normal forms -/

mutual

/-- Normalizing makes no difference. -/
@[simp] theorem allVars_normalize (e : Expr K) : e.normalize.AllVars P ↔ e.AllVars P := by
  match e with
  | number _ | constant _ | var _ => rfl
  | sum as => rw [normalize, allVars_sum, allVars_sum, forall_mem_normalizeAddends as]
  | product es => rw [normalize, allVars_product, allVars_product, forall_mem_normalizeFactors es]
  | quotient a b =>
    rw [normalize, allVars_quotient, allVars_quotient, allVars_normalize a, allVars_normalize b]
  | power a b =>
    rw [normalize, allVars_power, allVars_power, allVars_normalize a, allVars_normalize b]
  | call f a => rw [normalize, allVars_call, allVars_call, allVars_normalize a]

theorem forall_mem_normalizeAddends (as : List (Addend (Expr K))) :
    (∀ a ∈ normalizeAddends as, a.expr.AllVars P) ↔ ∀ a ∈ as, a.expr.AllVars P := by
  match as with
  | [] => rfl
  | ⟨e, s⟩ :: as =>
    rw [normalizeAddends, List.forall_mem_append, forall_mem_asAddends, allVars_normalize e,
      forall_mem_normalizeAddends as, List.forall_mem_cons]

theorem forall_mem_normalizeFactors (es : List (Expr K)) :
    (∀ e ∈ normalizeFactors es, e.AllVars P) ↔ ∀ e ∈ es, e.AllVars P := by
  match es with
  | [] => rfl
  | e :: es =>
    rw [normalizeFactors, List.forall_mem_append, forall_mem_asFactors, allVars_normalize e,
      forall_mem_normalizeFactors es, List.forall_mem_cons]

end

end SymbolicCalculus.Expr
