import Mathlib.Logic.Relation
import SymbolicCalculus.Proofs.Evaluation.Failure
import SymbolicCalculus.Scalar.Binary64

/-!
# Evaluation is evaluation of the expanded tree

`Expands context n e e'` says that `e'` arises from `e` by putting, in place of every variable, what
its first binding expands to, with replacements nested at most `n` deep. The expanded tree has no
variables left.

Evaluation of an expression under a context and evaluation of its expansion under no context do the
same (`Expands.valueWith_eq`), an expression has a value only if it has an expansion
(`exists_expands`), and then it has one. A variable on a circle of bindings has no expansion, since
each step around the circle uses up one level of nesting.
-/

namespace SymbolicCalculus

variable {K : Type}

/-! ## Expansion -/

mutual

/-- The second expression arises from the first by replacing every variable by what its first
binding expands to, with replacements nested at most so deep. -/
inductive Expands (context : Context K) : Nat → Expr K → Expr K → Prop
  | number {n} (v : K) : Expands context n (.number v) (.number v)
  | constant {n} (c : Constant) : Expands context n (.constant c) (.constant c)
  | var {n name e e'} : context.get? name = some e → Expands context n e e' →
      Expands context (n + 1) (.var name) e'
  | sum {n as bs} : ExpandsAddends context n as bs → Expands context n (.sum as) (.sum bs)
  | product {n as bs} : ExpandsFactors context n as bs →
      Expands context n (.product as) (.product bs)
  | quotient {n a b a' b'} : Expands context n a a' → Expands context n b b' →
      Expands context n (.quotient a b) (.quotient a' b')
  | power {n a b a' b'} : Expands context n a a' → Expands context n b b' →
      Expands context n (.power a b) (.power a' b')
  | call {n f a a'} : Expands context n a a' → Expands context n (.call f a) (.call f a')

/-- The addends of the second list arise from those of the first, and keep their signs. -/
inductive ExpandsAddends (context : Context K) :
    Nat → List (Addend (Expr K)) → List (Addend (Expr K)) → Prop
  | nil {n} : ExpandsAddends context n [] []
  | cons {n a a' s as bs} : Expands context n a a' → ExpandsAddends context n as bs →
      ExpandsAddends context n (⟨a, s⟩ :: as) (⟨a', s⟩ :: bs)

/-- The factors of the second list arise from those of the first. -/
inductive ExpandsFactors (context : Context K) : Nat → List (Expr K) → List (Expr K) → Prop
  | nil {n} : ExpandsFactors context n [] []
  | cons {n a a' as bs} : Expands context n a a' → ExpandsFactors context n as bs →
      ExpandsFactors context n (a :: as) (a' :: bs)

end

variable {context : Context K}

/-! ## The expanded tree -/

mutual

/-- No variable is left in the expanded tree. -/
theorem Expands.varOccurrences_eq_nil {n : Nat} {e e' : Expr K} (h : Expands context n e e') :
    e'.varOccurrences = [] := by
  match h with
  | .number v => rfl
  | .constant c => rfl
  | .var _ h => exact h.varOccurrences_eq_nil
  | .sum h => simpa using h.addendOccurrences_eq_nil
  | .product h => simpa using h.factorOccurrences_eq_nil
  | .quotient ha hb => simp [ha.varOccurrences_eq_nil, hb.varOccurrences_eq_nil]
  | .power ha hb => simp [ha.varOccurrences_eq_nil, hb.varOccurrences_eq_nil]
  | .call ha => simpa using ha.varOccurrences_eq_nil

/-- No variable is left in expanded addends. -/
theorem ExpandsAddends.addendOccurrences_eq_nil {n : Nat} {as bs : List (Addend (Expr K))}
    (h : ExpandsAddends context n as bs) : Expr.addendOccurrences bs = [] := by
  match h with
  | .nil => rfl
  | .cons ha has => simp [ha.varOccurrences_eq_nil, has.addendOccurrences_eq_nil]

/-- No variable is left in expanded factors. -/
theorem ExpandsFactors.factorOccurrences_eq_nil {n : Nat} {as bs : List (Expr K)}
    (h : ExpandsFactors context n as bs) : Expr.factorOccurrences bs = [] := by
  match h with
  | .nil => rfl
  | .cons ha has => simp [ha.varOccurrences_eq_nil, has.factorOccurrences_eq_nil]

end

section

variable [Scalar K] {lookup : String → Except EvalError K}

mutual

/-- An expression and its expansion evaluate alike, whatever variables would stand for in the
expansion. -/
theorem Expands.valueWith_eq {n : Nat} {e e' : Expr K} (h : Expands context n e e') :
    e.valueWith (context.valueOf n) = e'.valueWith lookup := by
  match h with
  | .number v => rfl
  | .constant c => rfl
  -- the only case where the lookups differ: the binding is evaluated in place of the variable
  | .var hget h =>
    rw [Expr.valueWith, Context.valueOf, hget]
    exact h.valueWith_eq
  | .sum h => rw [Expr.valueWith, Expr.valueWith, h.addendValues_eq]
  | .product h => rw [Expr.valueWith, Expr.valueWith, h.factorValues_eq]
  | .quotient ha hb => rw [Expr.valueWith, Expr.valueWith, ha.valueWith_eq, hb.valueWith_eq]
  | .power ha hb => rw [Expr.valueWith, Expr.valueWith, ha.valueWith_eq, hb.valueWith_eq]
  | .call ha => rw [Expr.valueWith, Expr.valueWith, ha.valueWith_eq]

/-- Addends and their expansions have the same values. -/
theorem ExpandsAddends.addendValues_eq {n : Nat} {as bs : List (Addend (Expr K))}
    (h : ExpandsAddends context n as bs) :
    Expr.addendValues (context.valueOf n) as = Expr.addendValues lookup bs := by
  match h with
  | .nil => rfl
  | .cons ha has =>
    rw [Expr.addendValues, Expr.addendValues, ha.valueWith_eq, has.addendValues_eq]

/-- Factors and their expansions have the same values. -/
theorem ExpandsFactors.factorValues_eq {n : Nat} {as bs : List (Expr K)}
    (h : ExpandsFactors context n as bs) :
    Expr.factorValues (context.valueOf n) as = Expr.factorValues lookup bs := by
  match h with
  | .nil => rfl
  | .cons ha has =>
    rw [Expr.factorValues, Expr.factorValues, ha.valueWith_eq, has.factorValues_eq]

end

end

/-! ## What has a value has an expansion -/

mutual

/-- An expression has an expansion if each of its variables has one. -/
theorem exists_expands_of_vars {n : Nat} (e : Expr K)
    (h : ∀ name ∈ e.varOccurrences, ∃ e', Expands context n (.var name) e') :
    ∃ e', Expands context n e e' := by
  -- the replacement of different variables is independent, so each part expands on its own
  cases e with
  | number v => exact ⟨_, .number v⟩
  | constant c => exact ⟨_, .constant c⟩
  | var name => exact h name (by simp)
  | sum as =>
      obtain ⟨bs, hbs⟩ := exists_expandsAddends_of_vars as (by simpa using h)
      exact ⟨_, .sum hbs⟩
  | product es =>
      obtain ⟨bs, hbs⟩ := exists_expandsFactors_of_vars es (by simpa using h)
      exact ⟨_, .product hbs⟩
  | quotient a b =>
      rw [Expr.varOccurrences_quotient, List.forall_mem_append] at h
      obtain ⟨a', ha⟩ := exists_expands_of_vars a h.1
      obtain ⟨b', hb⟩ := exists_expands_of_vars b h.2
      exact ⟨_, .quotient ha hb⟩
  | power a b =>
      rw [Expr.varOccurrences_power, List.forall_mem_append] at h
      obtain ⟨a', ha⟩ := exists_expands_of_vars a h.1
      obtain ⟨b', hb⟩ := exists_expands_of_vars b h.2
      exact ⟨_, .power ha hb⟩
  | call f a =>
      obtain ⟨a', ha⟩ := exists_expands_of_vars a (by simpa using h)
      exact ⟨_, .call ha⟩

theorem exists_expandsAddends_of_vars {n : Nat} (as : List (Addend (Expr K)))
    (h : ∀ name ∈ Expr.addendOccurrences as, ∃ e', Expands context n (.var name) e') :
    ∃ bs, ExpandsAddends context n as bs := by
  match as with
  | [] => exact ⟨_, .nil⟩
  | ⟨a, s⟩ :: as =>
    rw [Expr.addendOccurrences_cons, List.forall_mem_append] at h
    obtain ⟨a', ha⟩ := exists_expands_of_vars a h.1
    obtain ⟨bs, has⟩ := exists_expandsAddends_of_vars as h.2
    exact ⟨_, .cons ha has⟩

theorem exists_expandsFactors_of_vars {n : Nat} (as : List (Expr K))
    (h : ∀ name ∈ Expr.factorOccurrences as, ∃ e', Expands context n (.var name) e') :
    ∃ bs, ExpandsFactors context n as bs := by
  match as with
  | [] => exact ⟨_, .nil⟩
  | a :: as =>
    rw [Expr.factorOccurrences_cons, List.forall_mem_append] at h
    obtain ⟨a', ha⟩ := exists_expands_of_vars a h.1
    obtain ⟨bs, has⟩ := exists_expandsFactors_of_vars as h.2
    exact ⟨_, .cons ha has⟩

end

section

variable [Scalar K]

namespace Context

/-- Where no lookup may be nested, no variable has a value. -/
theorem not_exists_valueOf_zero (name : String) : ¬∃ v, context.valueOf 0 name = .ok v := by
  rw [valueOf]
  cases context.get? name <;> simp

/-- A variable has a value if it is bound to an expression that has one when one lookup less may be
nested. -/
theorem exists_valueOf_succ_iff {n : Nat} {name : String} :
    (∃ v, context.valueOf (n + 1) name = .ok v) ↔
      ∃ e, context.get? name = some e ∧ ∃ v, e.valueWith (context.valueOf n) = .ok v := by
  rw [valueOf]
  cases context.get? name <;> simp

end Context

/-- An expression that has a value has an expansion. -/
theorem exists_expands {n : Nat} {e : Expr K}
    (h : ∃ v, e.valueWith (context.valueOf n) = .ok v) : ∃ e', Expands context n e e' := by
  -- an expansion of the variables is enough, and theirs has one lookup less to nest
  induction n generalizing e with
  | zero =>
      refine exists_expands_of_vars e fun name hname => ?_
      exact absurd (Expr.exists_valueWith_eq_ok_iff.1 h name hname)
        (Context.not_exists_valueOf_zero name)
  | succ n ih =>
      refine exists_expands_of_vars e fun name hname => ?_
      obtain ⟨e₁, hget, hv⟩ :=
        Context.exists_valueOf_succ_iff.1 (Expr.exists_valueWith_eq_ok_iff.1 h name hname)
      obtain ⟨e', he'⟩ := ih hv
      exact ⟨e', .var hget he'⟩

/-- The expanded tree always has a value. -/
theorem Expands.exists_evaluate_nil {n : Nat} {e e' : Expr K} (h : Expands context n e e') :
    ∃ v, evaluate [] e' = .ok v := by
  refine Expr.exists_valueWith_eq_ok_iff.2 fun name hname => ?_
  rw [h.varOccurrences_eq_nil] at hname
  cases hname

/-- Evaluation succeeds with a value if and only if there is an expansion that has it. -/
theorem evaluate_eq_ok_iff_expands {e : Expr K} {v : K} : evaluate context e = .ok v ↔
    ∃ e', Expands context maxLookups e e' ∧ evaluate [] e' = .ok v := by
  constructor
  · intro h
    obtain ⟨e', he'⟩ := exists_expands ⟨v, h⟩
    exact ⟨e', he', he'.valueWith_eq.symm.trans h⟩
  · rintro ⟨e', he', hv⟩
    exact he'.valueWith_eq.trans hv

end

/-! ## Circles of bindings -/

namespace Context

/-- The first variable is bound to an expression in which the second one occurs. -/
def Refers (context : Context K) (x y : String) : Prop :=
  ∃ e, context.get? x = some e ∧ y ∈ e.varNames

variable [Scalar K]

/-- A variable that is referred to has a value when one lookup less may be nested. -/
theorem Refers.exists_valueOf {n : Nat} {x y : String} (hxy : context.Refers x y)
    (hx : ∃ v, context.valueOf n x = .ok v) : ∃ m < n, ∃ v, context.valueOf m y = .ok v := by
  obtain ⟨e, hget, hy⟩ := hxy
  cases n with
  | zero => exact absurd hx (not_exists_valueOf_zero x)
  | succ n =>
      obtain ⟨e', hget', hv⟩ := exists_valueOf_succ_iff.1 hx
      rw [hget] at hget'
      cases hget'
      exact ⟨n, n.lt_succ_self,
        Expr.exists_valueWith_eq_ok_iff.1 hv y (Expr.mem_varNames_iff.1 hy)⟩

/-- A variable that can be reached from one with a value has a value with fewer lookups. -/
theorem exists_valueOf_of_transGen {n : Nat} {x y : String}
    (hxy : Relation.TransGen context.Refers x y) (hx : ∃ v, context.valueOf n x = .ok v) :
    ∃ m < n, ∃ v, context.valueOf m y = .ok v := by
  -- each step from `x` to `y` uses up a lookup
  induction hxy with
  | single hxy => exact hxy.exists_valueOf hx
  | tail _ hyz ih =>
      obtain ⟨m, hm, hy⟩ := ih
      obtain ⟨k, hk, hz⟩ := hyz.exists_valueOf hy
      exact ⟨k, Nat.lt_trans hk hm, hz⟩

/-- A variable on a circle of bindings never has a value: there would be a smaller number of nested
lookups with which it has one, too. -/
theorem not_exists_valueOf_of_circle {x : String} (hx : Relation.TransGen context.Refers x x)
    (n : Nat) : ¬∃ v, context.valueOf n x = .ok v := by
  -- descent on the number of lookups, once around the circle
  induction n using Nat.strongRecOn with
  | _ n ih =>
      intro hv
      obtain ⟨m, hm, hv'⟩ := exists_valueOf_of_transGen hx hv
      exact ih m hm hv'

end Context

variable [Scalar K]

/-- An expression from which a circle of bindings can be reached has no value. -/
theorem evaluate_ne_ok_of_circle {e : Expr K} {x y : String} (hx : x ∈ e.varNames)
    (hxy : Relation.ReflTransGen context.Refers x y) (hy : Relation.TransGen context.Refers y y)
    (v : K) : evaluate context e ≠ .ok v := by
  intro hv
  have hvx := Expr.exists_valueWith_eq_ok_iff.1 ⟨v, hv⟩ x (Expr.mem_varNames_iff.1 hx)
  rcases Relation.reflTransGen_iff_eq_or_transGen.1 hxy with rfl | hxy
  · exact Context.not_exists_valueOf_of_circle hy maxLookups hvx
  · obtain ⟨m, -, hvy⟩ := Context.exists_valueOf_of_transGen hxy hvx
    exact Context.not_exists_valueOf_of_circle hy m hvy

/-! ## The main result -/

/-- **Evaluation under bindings is evaluation of the expanded tree.** An expression has a value
exactly if it can be expanded with replacements nested at most `maxLookups` deep, and then the
value is that of the expanded tree, which has no variables and always has a value. It has none if
a variable on a circle of bindings can be reached from it. Otherwise it fails as the first variable
does that fails among those met from left to right and depth first. -/
theorem evaluate_eq_evaluate_expanded (context : Context K) (e : Expr K) :
    (∀ v, evaluate context e = .ok v ↔
      ∃ e', Expands context maxLookups e e' ∧ evaluate [] e' = .ok v) ∧
    (∀ e', Expands context maxLookups e e' →
      e'.varNames = [] ∧ ∃ v, evaluate [] e' = .ok v) ∧
    (∀ x y, x ∈ e.varNames → Relation.ReflTransGen context.Refers x y →
      Relation.TransGen context.Refers y y → ∀ v, evaluate context e ≠ .ok v) ∧
    (∀ err, evaluate context e = .error err ↔
      (context.visits maxLookups e).findSome? context.failureAt? = some err) := by
  refine ⟨fun v => evaluate_eq_ok_iff_expands, fun e' he' => ⟨?_, he'.exists_evaluate_nil⟩,
    fun x y => evaluate_ne_ok_of_circle, fun err => ?_⟩
  · rw [List.eq_nil_iff_forall_not_mem]
    intro name hname
    rw [Expr.mem_varNames_iff, he'.varOccurrences_eq_nil] at hname
    cases hname
  · rw [← failure?_eq_some_iff, failure?_evaluate]

/-- With `c` bound to `2` and with `x` and `y` bound to expressions in each other, `sin c` expands
to `sin 2`, and `c ^ x` has no value. -/
theorem evaluate_eq_evaluate_expanded_circle :
    let context : Context Float :=
      [⟨"c", .number 2⟩, ⟨"x", .call .sin (.var "y")⟩, ⟨"y", .power (.var "c") (.var "x")⟩]
    (Expands context maxLookups (.call .sin (.var "c")) (.call .sin (.number 2)) ∧
      ∃ v, evaluate [] (.call .sin (.number 2 : Expr Float)) = .ok v) ∧
    (Context.Refers context "x" "y" ∧ Context.Refers context "y" "x" ∧
      ∀ v, evaluate context (.power (.var "c") (.var "x")) ≠ .ok v) := by
  intro context
  have hc : Expands context maxLookups (.call .sin (.var "c")) (.call .sin (.number 2)) :=
    .call (.var rfl (.number 2))
  have hxy : context.Refers "x" "y" := ⟨_, rfl, Expr.mem_varNames_iff.2 (by simp)⟩
  have hyx : context.Refers "y" "x" := ⟨_, rfl, Expr.mem_varNames_iff.2 (by simp)⟩
  obtain ⟨-, -, hcircle, -⟩ := evaluate_eq_evaluate_expanded context (.power (.var "c") (.var "x"))
  refine ⟨⟨hc, ((evaluate_eq_evaluate_expanded context _).2.1 _ hc).2⟩, hxy, hyx, ?_⟩
  exact hcircle "x" "y" (Expr.mem_varNames_iff.2 (by simp)) (.single hxy) (.tail (.single hyx) hxy)

end SymbolicCalculus
