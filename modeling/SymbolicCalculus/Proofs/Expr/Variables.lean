import SymbolicCalculus.Expr.Traversal

/-!
# Occurrences of variables

`varOccurrences` lists the variables of an expression from left to right, once for each time they
occur. `varNames` holds the same names, each once (`mem_varNames_iff`).
-/

namespace SymbolicCalculus.Expr

variable {K : Type}

/-- The variables of an expression in the order in which they occur, from left to right. -/
def varOccurrences (e : Expr K) : List String := e.postOrder.filterMap asVar?

/-- The variables that occur in a list of addends. -/
def addendOccurrences (as : List (Addend (Expr K))) : List String :=
  (postOrderAddends as).filterMap asVar?

/-- The variables that occur in a list of factors. -/
def factorOccurrences (es : List (Expr K)) : List String :=
  (postOrderFactors es).filterMap asVar?

@[simp] theorem varOccurrences_number (v : K) : (number v).varOccurrences = [] := rfl

@[simp] theorem varOccurrences_constant (c : Constant) :
    (constant c : Expr K).varOccurrences = [] := rfl

@[simp] theorem varOccurrences_var (name : String) :
    (var name : Expr K).varOccurrences = [name] := rfl

@[simp] theorem varOccurrences_sum (as : List (Addend (Expr K))) :
    (sum as).varOccurrences = addendOccurrences as := by
  simp [varOccurrences, addendOccurrences, postOrder, asVar?]

@[simp] theorem varOccurrences_product (es : List (Expr K)) :
    (product es).varOccurrences = factorOccurrences es := by
  simp [varOccurrences, factorOccurrences, postOrder, asVar?]

@[simp] theorem varOccurrences_quotient (a b : Expr K) :
    (quotient a b).varOccurrences = a.varOccurrences ++ b.varOccurrences := by
  simp [varOccurrences, postOrder, asVar?]

@[simp] theorem varOccurrences_power (a b : Expr K) :
    (power a b).varOccurrences = a.varOccurrences ++ b.varOccurrences := by
  simp [varOccurrences, postOrder, asVar?]

@[simp] theorem varOccurrences_call (f : Fn) (a : Expr K) :
    (call f a).varOccurrences = a.varOccurrences := by
  simp [varOccurrences, postOrder, asVar?]

@[simp] theorem addendOccurrences_nil : addendOccurrences ([] : List (Addend (Expr K))) = [] := rfl

@[simp] theorem addendOccurrences_cons (e : Expr K) (s : Bool) (as : List (Addend (Expr K))) :
    addendOccurrences (⟨e, s⟩ :: as) = e.varOccurrences ++ addendOccurrences as := by
  simp [varOccurrences, addendOccurrences, postOrderAddends]

@[simp] theorem factorOccurrences_nil : factorOccurrences ([] : List (Expr K)) = [] := rfl

@[simp] theorem factorOccurrences_cons (e : Expr K) (es : List (Expr K)) :
    factorOccurrences (e :: es) = e.varOccurrences ++ factorOccurrences es := by
  simp [varOccurrences, factorOccurrences, postOrderFactors]

/-- Inserting a name adds that name. -/
theorem mem_insertName_iff {name other : String} {names : List String} :
    other ∈ insertName name names ↔ other = name ∨ other ∈ names := by
  induction names with
  | nil => simp [insertName]
  | cons n names ih =>
      unfold insertName
      split
      · simp
      · split
        · next heq =>
            rw [beq_iff_eq] at heq
            simp [heq]
        · rw [List.mem_cons, ih, List.mem_cons]
          exact or_left_comm

/-- The names of the variables are those that occur. -/
theorem mem_varNames_iff {name : String} {e : Expr K} :
    name ∈ e.varNames ↔ name ∈ e.varOccurrences := by
  unfold varNames varOccurrences
  -- the names are inserted one after another, which may be in any order here
  induction e.postOrder.filterMap asVar? with
  | nil => rfl
  | cons n names ih => rw [List.foldr_cons, mem_insertName_iff, ih, List.mem_cons]

end SymbolicCalculus.Expr
