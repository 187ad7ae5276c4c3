import Mathlib.Data.List.Forall2
import SymbolicCalculus.Proofs.Simplify.Loop

/-!
# What rewriting keeps

A property of simplification is a relation between a tree and what takes its place. If the relation
is reflexive and transitive, passes through every kind of node, and holds of every replacement by a
rule, then it holds between a tree and what a pass makes of it (`rel_pass`), and between a tree and
its simplification under any limits (`rel_simplify`). Both inductions are made here, once for all
relations.
-/

namespace SymbolicCalculus

variable {K : Type}

/-- Two addends with related expressions and the same sign. -/
def AddendRel (R : Expr K → Expr K → Prop) (a b : Addend (Expr K)) : Prop :=
  R a.expr b.expr ∧ a.subtract = b.subtract

/-- A relation that may be applied step after step and at every place of a tree. -/
structure IsRewriting (R : Expr K → Expr K → Prop) : Prop where
  refl : ∀ e, R e e
  trans : ∀ {a b c}, R a b → R b c → R a c
  sum : ∀ {as bs}, List.Forall₂ (AddendRel R) as bs → R (.sum as) (.sum bs)
  product : ∀ {as bs}, List.Forall₂ R as bs → R (.product as) (.product bs)
  quotient : ∀ {a b c d}, R a c → R b d → R (.quotient a b) (.quotient c d)
  power : ∀ {a b c d}, R a c → R b d → R (.power a b) (.power c d)
  call : ∀ {f a b}, R a b → R (.call f a) (.call f b)

namespace Rule

/-- Every tree is related to the one that the rule puts in its place. -/
def Respects (R : Expr K → Expr K → Prop) (r : Rule K) : Prop :=
  ∀ e e', r.replace? e = some e' → R e e'

variable {R : Expr K → Expr K → Prop}

/-- Of rules that all respect a relation, so does the first one that applies. -/
theorem Respects.firstOf {step : Step} {rules : List (Rule K)} (h : ∀ r ∈ rules, r.Respects R) :
    (firstOf step rules).Respects R := by
  intro e e' he
  obtain ⟨r, hr, hre⟩ := List.exists_of_findSome?_eq_some he
  exact h r hr e e' hre

/-- What takes the place of a tree that a candidate is compared with is the candidate. -/
theorem eq_of_ifChanged [Scalar K] {e candidate e' : Expr K}
    (h : ifChanged e candidate = some e') : e' = candidate := by
  unfold ifChanged at h
  split at h
  · cases h
  · exact (Option.some.inj h).symm

/-- What takes the place of a tree under a condition is the tree that was put there. -/
theorem eq_of_guarded {c : Prop} [Decidable c] {a e' : Expr K}
    (h : (if c then some a else none) = some e') : e' = a :=
  (Option.some.inj (Option.ite_none_right_eq_some.mp h).2).symm

/-- Merging is normalization, once it was seen that there is something to merge. -/
theorem eq_normalize_of_flatten {e e' : Expr K} (h : flatten.replace? e = some e') :
    e' = e.normalize := by
  simp only [flatten] at h
  split at h
  · exact eq_of_guarded h
  · exact eq_of_guarded h
  · cases h

end Rule

/-- The test only decides whether a fraction is read off, not which one. -/
theorem Fraction.ofExpr?_eq_some {e : Expr K} {a : Fraction K} (h : ofExpr? e = some a) :
    a = ofExpr e := by
  unfold ofExpr? at h
  split at h
  · exact (Option.some.inj h).symm
  · exact (Option.some.inj (Option.ite_none_right_eq_some.mp h).2).symm
  · cases h

variable {R : Expr K → Expr K → Prop}

/-- Stages one after another are steps one after another. -/
theorem rel_applyStages (hR : IsRewriting R) (rules : List (Rule K))
    (h : ∀ r ∈ rules, r.Respects R) (e : Expr K) : R e (applyStages rules e).1 := by
  -- along the stages, each of which starts from what the one before has made
  induction rules generalizing e with
  | nil => exact hR.refl e
  | cons r rules ih =>
      have hrules : ∀ s ∈ rules, s.Respects R := fun s hs => h s (List.mem_cons_of_mem r hs)
      rw [applyStages]
      split
      · exact ih hrules e
      · next next hnext =>
          exact hR.trans (h r List.mem_cons_self e next hnext) (ih hrules next)

variable [Scalar K]

theorem rel_finishNode (hR : IsRewriting R) (h : ∀ r ∈ (stages : List (Rule K)), r.Respects R)
    (changes : List (Change K)) (e : Expr K) : R e (finishNode changes e).1 :=
  rel_applyStages hR stages h e

mutual

/-- A tree is related to what one pass makes of it. -/
theorem rel_pass (hR : IsRewriting R) (h : ∀ r ∈ (stages : List (Rule K)), r.Respects R)
    (e : Expr K) : R e e.pass.1 := by
  -- the children change first, then the node with its new children
  cases e with
  | number v => exact rel_finishNode hR h [] _
  | constant c => exact rel_finishNode hR h [] _
  | var name => exact rel_finishNode hR h [] _
  | sum addends =>
      exact hR.trans (hR.sum (rel_passAddends hR h addends)) (rel_finishNode hR h _ _)
  | product factors =>
      exact hR.trans (hR.product (rel_passFactors hR h factors)) (rel_finishNode hR h _ _)
  | quotient a b =>
      exact hR.trans (hR.quotient (rel_pass hR h a) (rel_pass hR h b)) (rel_finishNode hR h _ _)
  | power a b =>
      exact hR.trans (hR.power (rel_pass hR h a) (rel_pass hR h b)) (rel_finishNode hR h _ _)
  | call f a => exact hR.trans (hR.call (rel_pass hR h a)) (rel_finishNode hR h _ _)

theorem rel_passAddends (hR : IsRewriting R) (h : ∀ r ∈ (stages : List (Rule K)), r.Respects R)
    (as : List (Addend (Expr K))) :
    List.Forall₂ (AddendRel R) as (Expr.passAddends as).1 := by
  match as with
  | [] => exact .nil
  | ⟨e, s⟩ :: as => exact .cons ⟨rel_pass hR h e, rfl⟩ (rel_passAddends hR h as)

theorem rel_passFactors (hR : IsRewriting R) (h : ∀ r ∈ (stages : List (Rule K)), r.Respects R)
    (es : List (Expr K)) : List.Forall₂ R es (Expr.passFactors es).1 := by
  match es with
  | [] => exact .nil
  | e :: es => exact .cons (rel_pass hR h e) (rel_passFactors hR h es)

end

/-- The rounds of the loop are passes one after another, from whichever round one starts to look. -/
theorem rel_simplifyFrom (hR : IsRewriting R) (h : ∀ r ∈ (stages : List (Rule K)), r.Respects R)
    (limits : SimplifyLimits) (left done : Nat) (e : Expr K) :
    R e (simplifyFrom limits left done e).result := by
  -- on the passes that are left, with the tree that they start from kept general
  induction left generalizing done e with
  | zero => exact hR.refl e
  | succ left ih =>
      have hpass : R e e.pass.1 := rel_pass hR h e
      -- a round ends the loop at a fixed point or at a limit, or else goes on
      obtain ⟨-, hround⟩ | ⟨nodes, max, hround⟩ | ⟨-, hround⟩ :=
        simplifyFrom_cases limits left done e
      · rw [hround]
        exact hpass
      · rw [hround]
        exact hpass
      · rw [hround]
        exact hR.trans hpass (ih (done + 1) e.pass.1)

/-- A tree is related to its simplification, however that ended. -/
theorem rel_simplify (hR : IsRewriting R) (h : ∀ r ∈ (stages : List (Rule K)), r.Respects R)
    (limits : SimplifyLimits) (e : Expr K) : R e (simplify limits e) :=
  rel_simplifyFrom hR h limits limits.passes 0 e

end SymbolicCalculus
