import SymbolicCalculus.Grammar.Chain
import SymbolicCalculus.Proofs.Results

/-!
# Why a chain is refused

`FailsOnly` says that a computation fails, if at all, for a reason of some kind. The sign step
refuses trees that get too deep and misplaced operators, and the check refuses misplaced operators
only.
-/

namespace SymbolicCalculus

variable {K : Type}

/-- The reasons for which misplaced operators are refused. -/
def ParseError.IsMisplaced : ParseError → Prop
  | adjacentOperators => True
  | missingOperand _ => True
  | _ => False

/-- A computation fails, if at all, for a reason of a kind. -/
def FailsOnly {α : Type} (kind : ParseError → Prop) (x : Except (Located ParseError) α) : Prop :=
  ∀ err, x = .error err → kind err.cause

namespace FailsOnly

variable {α β : Type} {kind : ParseError → Prop}

theorem ok (a : α) : FailsOnly kind (.ok a : Except (Located ParseError) α) := by
  intro err h
  cases h

/-- An error of the kind is one. -/
theorem atSpan {cause : ParseError} (h : kind cause) (span : Span) :
    FailsOnly kind (.error (.atSpan cause span) : Except (Located ParseError) α) := by
  intro err herr
  cases herr
  exact h

/-- Two computations in a row fail only for reasons of the kind if each of them does. -/
theorem bind {x : Except (Located ParseError) α} {f : α → Except (Located ParseError) β}
    (hx : FailsOnly kind x) (hf : ∀ a, FailsOnly kind (f a)) : FailsOnly kind (x >>= f) := by
  intro err h
  rcases bind_eq_error_iff.1 h with hx' | ⟨a, -, hf'⟩
  · exact hx err hx'
  · exact hf a err hf'

theorem map {x : Except (Located ParseError) α} (hx : FailsOnly kind x) (f : α → β) :
    FailsOnly kind (x.map f) := by
  intro err h
  cases x with
  | error err' =>
      cases h
      exact hx err rfl
  | ok a => cases h

theorem mono {kind' : ParseError → Prop} {x : Except (Located ParseError) α}
    (hx : FailsOnly kind x) (h : ∀ cause, kind cause → kind' cause) : FailsOnly kind' x :=
  fun err herr => h _ (hx err herr)

/-- The check of depth refuses trees that are too deep, and nothing else. -/
theorem limit (maxDepth : Nat) (x : Operand K) :
    FailsOnly (· = .expressionTooDeep maxDepth) (x.limit maxDepth) := by
  unfold Operand.limit
  split
  · refine atSpan ?_ x.span
    rfl
  · exact ok x

end FailsOnly

namespace Chain

/-- The sign step refuses trees that get too deep and misplaced operators. -/
theorem failsOnly_applySignsAfter [Scalar K] (maxDepth : Nat) (previous : Option (Link K))
    (c : Chain K) :
    FailsOnly (fun cause => cause = .expressionTooDeep maxDepth ∨ cause.IsMisplaced)
      (applySignsAfter maxDepth previous c) := by
  -- one case for each branch of the sign step; two of them refuse a minus with no operand after it
  fun_induction applySignsAfter maxDepth previous c with
  | case1 => exact .ok _
  | case2 previous sign x rest _ ih =>
      refine FailsOnly.bind ?_ fun z => (ih z).bind fun _ => .ok _
      exact (FailsOnly.limit maxDepth _).mono fun _ => Or.inl
  | case3 => exact .atSpan (Or.inr trivial) _
  | case4 => exact .atSpan (Or.inr trivial) _
  | case5 _ _ _ _ ih => exact ih.bind fun _ => .ok _
  | case6 _ _ _ _ ih => exact ih.bind fun _ => .ok _

/-- The check for misplaced operators refuses nothing else. -/
theorem failsOnly_checkAfter (previous : Option (Link K)) (c : Chain K) :
    FailsOnly ParseError.IsMisplaced (checkAfter previous c) := by
  fun_induction checkAfter previous c with
  | case1 => exact .ok _
  | case2 _ _ _ ih => exact ih
  | case3 => exact .atSpan trivial _
  | case4 _ _ _ _ ih => exact ih
  | case5 => exact .atSpan trivial _
  | case6 => exact .atSpan trivial _
  | case7 _ _ _ _ _ ih => exact ih

end Chain

end SymbolicCalculus
