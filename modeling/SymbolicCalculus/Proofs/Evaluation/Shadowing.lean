import Mathlib.Data.List.Basic
import SymbolicCalculus.Evaluation.Evaluate
import SymbolicCalculus.Scalar.Binary64

/-!
# Later bindings do not interfere

The first binding of a name counts, so bindings at the end of a context are seen only where a lookup
would find nothing without them. A result is `Settled` if it is anything but the complaint that a
name has no binding. Such a result was reached without a lookup that found nothing, and more
bindings do not change it.

A binding of a name that is bound before is hidden altogether, from lookups as well as from
suggestions.
-/

namespace SymbolicCalculus

variable {K α β : Type}

/-! ## Settled results -/

/-- The result is a value, or a failure for another reason than a name without a binding. -/
def Settled (r : Except EvalError α) : Prop :=
  ∀ name suggestions, r ≠ .error (.unknownVariable name suggestions)

theorem settled_ok (a : α) : Settled (.ok a : Except EvalError α) := by
  rintro name suggestions ⟨⟩

theorem settled_recursionLimit (max : Nat) :
    Settled (.error (.recursionLimit max) : Except EvalError α) := by
  rintro name suggestions ⟨⟩

/-- The first result, if it is settled, is the second one as well. -/
def Persists (r r' : Except EvalError α) : Prop := Settled r → r' = r

namespace Persists

theorem refl (r : Except EvalError α) : Persists r r := fun _ => rfl

/-- If the first of two computations persists, and the second one does whatever the first gives,
then so do the two in a row. -/
theorem bind {x x' : Except EvalError α} {f f' : α → Except EvalError β} (hx : Persists x x')
    (hf : ∀ a, Persists (f a) (f' a)) : Persists (x >>= f) (x' >>= f') := by
  intro hsettled
  cases x with
  | ok a =>
      rw [hx (settled_ok a)]
      exact hf a hsettled
  | error err =>
      -- an error of the first computation is that of both, so it is settled as well
      have herr : Settled (.error err : Except EvalError α) := by
        rintro name suggestions ⟨⟩
        exact hsettled name suggestions rfl
      rw [hx herr]
      rfl

theorem bind_pure {x x' : Except EvalError α} (hx : Persists x x') (g : α → β) :
    Persists (x >>= fun a => pure (g a)) (x' >>= fun a => pure (g a)) :=
  hx.bind fun _ => refl _

end Persists

/-! ## Expressions -/

namespace Expr

variable [Scalar K] {lookup lookup' : String → Except EvalError K}

mutual

/-- An expression keeps its settled result if its variables keep theirs. -/
theorem persists_valueWith (h : ∀ name, Persists (lookup name) (lookup' name)) (e : Expr K) :
    Persists (e.valueWith lookup) (e.valueWith lookup') := by
  -- recursion as in `valueWith`; operands are chained, so each may rely on the ones before it
  cases e with
  | number v => exact .refl _
  | constant c => exact .refl _
  | var name =>
      rw [valueWith, valueWith]
      exact h name
  | sum addends =>
      rw [valueWith, valueWith]
      exact (persists_addendValues h addends).bind_pure _
  | product factors =>
      rw [valueWith, valueWith]
      exact (persists_factorValues h factors).bind_pure _
  | quotient a b =>
      rw [valueWith, valueWith]
      exact (persists_valueWith h a).bind fun _ => (persists_valueWith h b).bind_pure _
  | power a b =>
      rw [valueWith, valueWith]
      exact (persists_valueWith h a).bind fun _ => (persists_valueWith h b).bind_pure _
  | call f a =>
      rw [valueWith, valueWith]
      exact (persists_valueWith h a).bind_pure _

/-- The values of addends persist if those of the variables do. -/
theorem persists_addendValues (h : ∀ name, Persists (lookup name) (lookup' name))
    (as : List (Addend (Expr K))) :
    Persists (addendValues lookup as) (addendValues lookup' as) := by
  match as with
  | [] => exact .refl _
  | ⟨e, s⟩ :: as =>
    rw [addendValues, addendValues]
    exact (persists_valueWith h e).bind fun _ => (persists_addendValues h as).bind_pure _

/-- The values of factors persist if those of the variables do. -/
theorem persists_factorValues (h : ∀ name, Persists (lookup name) (lookup' name))
    (es : List (Expr K)) : Persists (factorValues lookup es) (factorValues lookup' es) := by
  match es with
  | [] => exact .refl _
  | e :: es =>
    rw [factorValues, factorValues]
    exact (persists_valueWith h e).bind fun _ => (persists_factorValues h es).bind_pure _

end

end Expr

/-! ## Contexts -/

namespace Context

/-- The names of the second context are all bound in the first one. -/
def Hides (b c : Context K) : Prop := ∀ binding ∈ c, binding.name ∈ b.map Binding.name

/-- A hidden binding is never looked up. -/
theorem Hides.get?_append {b c : Context K} (h : b.Hides c) (name : String) :
    get? (b ++ c) name = b.get? name := by
  rw [Context.get?_append]
  cases hb : b.get? name with
  | some e => rfl
  | none =>
      have hc : c.get? name = none := by
        rw [get?_eq_none_iff] at hb ⊢
        intro hname
        obtain ⟨binding, hbinding, rfl⟩ := List.mem_map.mp hname
        exact hb (h binding hbinding)
      rw [hc]
      rfl

/-- A name is suggested at its first binding, so a binding that is hidden suggests nothing. -/
theorem Hides.similar_append {b c : Context K} (h : b.Hides c) (name : String) :
    similar (b ++ c) name = b.similar name := by
  have hnone : ((c.map Binding.name).filter (isSimilar · name)).removeAll
      ((b.map Binding.name).filter (isSimilar · name)) = [] := by
    rw [List.removeAll, List.filter_eq_nil_iff]
    intro other hother
    obtain ⟨hmem, hsimilar⟩ := List.mem_filter.mp hother
    obtain ⟨binding, hbinding, rfl⟩ := List.mem_map.mp hmem
    simpa using ⟨List.mem_map.mp (h binding hbinding), hsimilar⟩
  rw [similar, List.map_append, List.filter_append, List.eraseDups_append, hnone,
    List.eraseDups_nil, List.append_nil]
  rfl

variable [Scalar K]

/-- A variable keeps its settled result when bindings are added at the end. -/
theorem persists_valueOf (b c : Context K) (lookups : Nat) (name : String) :
    Persists (b.valueOf lookups name) (valueOf (b ++ c) lookups name) := by
  -- the bindings may go in circles, so the induction is on the lookups that may be nested
  induction lookups generalizing name with
  | zero =>
      rw [valueOf, valueOf, get?_append]
      cases b.get? name with
      -- the name has no binding in `b`, and complaining about it is not settled
      | none => exact fun hsettled => absurd rfl (hsettled _ _)
      | some e => exact .refl _
  | succ n ih =>
      rw [valueOf, valueOf, get?_append]
      cases b.get? name with
      | none => exact fun hsettled => absurd rfl (hsettled _ _)
      | some e => exact Expr.persists_valueWith ih e

/-- Contexts that bind and suggest the same give the same values and the same errors. -/
theorem valueOf_congr {b c : Context K} (hget : ∀ name, b.get? name = c.get? name)
    (hsimilar : ∀ name, b.similar name = c.similar name) (lookups : Nat) :
    b.valueOf lookups = c.valueOf lookups := by
  induction lookups with
  | zero =>
      funext name
      rw [valueOf, valueOf, hget, hsimilar]
  | succ n ih =>
      funext name
      rw [valueOf, valueOf, hget, hsimilar]
      dsimp only
      rw [ih]

end Context

variable [Scalar K]

/-! ## The main result -/

/-- **Later bindings never interfere.** The value of an expression under a context is its value
under the context with more bindings at its end, and so is the failure for lookups that are nested
too deeply. If the names of these bindings are all bound before, the two contexts agree on the
result of every expression, in its errors with the name and the suggestions too, and they bind every
name to the same expression and suggest the same names for it, in the same order. -/
theorem evaluate_append (b c : Context K) (e : Expr K) :
    (∀ v, evaluate b e = .ok v → evaluate (b ++ c) e = .ok v) ∧
    (∀ max, evaluate b e = .error (.recursionLimit max) →
      evaluate (b ++ c) e = .error (.recursionLimit max)) ∧
    ((∀ binding ∈ c, binding.name ∈ b.map Binding.name) →
      evaluate (b ++ c) e = evaluate b e ∧
      (∀ name, Context.get? (b ++ c) name = b.get? name) ∧
      ∀ name, Context.similar (b ++ c) name = b.similar name) := by
  have hpersists : Persists (evaluate b e) (evaluate (b ++ c) e) :=
    Expr.persists_valueWith (b.persists_valueOf c maxLookups) e
  refine ⟨fun v hv => ?_, fun max herr => ?_, fun hhides => ?_⟩
  · rw [← hv]
    exact hpersists (hv ▸ settled_ok v)
  · rw [← herr]
    exact hpersists (herr ▸ settled_recursionLimit max)
  · have hhides : b.Hides c := hhides
    refine ⟨?_, hhides.get?_append, hhides.similar_append⟩
    rw [evaluate, evaluate, Context.valueOf_congr hhides.get?_append hhides.similar_append]

/-- With `y` bound to `x` and `x` to `2`, later bindings of `y` and of `z` leave the value of `y`
alone, and later bindings of `x` and `y` are not suggested for `q`. With `x` bound to itself, a
number that `x` is bound to later comes too late. -/
theorem evaluate_append_hidden :
    let two : Expr Float := .number 2
    let b : Context Float := [⟨"y", .var "x"⟩, ⟨"x", two⟩]
    let circle : Context Float := [⟨"x", .var "x"⟩]
    (evaluate b (.var "y") = .ok 2 ∧
      evaluate (b ++ [⟨"y", .var "z"⟩, ⟨"z", two⟩]) (.var "y") = .ok 2) ∧
    (evaluate circle (.var "x") = .error (.recursionLimit 256) ∧
      evaluate (circle ++ [⟨"x", two⟩]) (.var "x") = .error (.recursionLimit 256)) ∧
    (evaluate b (.var "q") = .error (.unknownVariable "q" ["y", "x"]) ∧
      evaluate (b ++ [⟨"x", two⟩, ⟨"y", two⟩]) (.var "q") =
        .error (.unknownVariable "q" ["y", "x"])) := by
  intro two b circle
  have hvalue : evaluate b (.var "y") = .ok 2 := rfl
  have hcircle : evaluate circle (.var "x") = .error (.recursionLimit 256) := by
    -- the binding of `x` leads to `x` again until no lookup is left
    have hlookups (n : Nat) : circle.valueOf n "x" = .error (.recursionLimit 256) := by
      induction n with
      | zero => rfl
      | succ n ih => exact ih
    rw [evaluate, Expr.valueWith]
    exact hlookups _
  have hunknown : evaluate b (.var "q") = .error (.unknownVariable "q" ["y", "x"]) := by
    cbv
  refine ⟨⟨hvalue, (evaluate_append b _ _).1 2 hvalue⟩,
    ⟨hcircle, (evaluate_append circle _ _).2.1 256 hcircle⟩, hunknown, ?_⟩
  obtain ⟨hsame, -, -⟩ := (evaluate_append b [⟨"x", two⟩, ⟨"y", two⟩] (.var "q")).2.2 (by simp [b])
  exact hsame.trans hunknown

end SymbolicCalculus
