import SymbolicCalculus.Expr.Equality
import SymbolicCalculus.Text.EditDistance

/-!
# Bindings and contexts

A context is a list of bindings of names to expressions. The first binding of a name counts, so a
later one of the same name is hidden by it. A binding may speak of other variables, which are
looked up in the same context.
-/

namespace SymbolicCalculus

/-- A name and the expression it stands for. -/
structure Binding (K : Type) where
  name : String
  value : Expr K

/-- Bindings in the order in which they are looked up. -/
abbrev Context (K : Type) := List (Binding K)

namespace Binding

variable {K : Type}

/-- Binds a name, which has to be one that a formula can write. -/
def make? (name : String) (value : Expr K) : Except InvalidName (Binding K) :=
  if isVariableName name then .ok ⟨name, value⟩ else .error ⟨name⟩

/-- Bindings are equal when their names are and their expressions are structurally equal. -/
instance [Scalar K] : BEq (Binding K) where
  beq a b := a.name == b.name && a.value == b.value

end Binding

namespace Context

variable {K : Type}

/-- The context with a binding added at its end. -/
def add? (context : Context K) (name : String) (value : Expr K) :
    Except InvalidName (Context K) := do
  let binding ← Binding.make? name value
  return context ++ [binding]

/-- The expression that a name stands for: the one of its first binding. -/
def get? (context : Context K) (name : String) : Option (Expr K) :=
  (context.find? fun b => b.name == name).map Binding.value

theorem get?_eq_none_iff {context : Context K} {name : String} :
    context.get? name = none ↔ name ∉ context.map Binding.name := by
  simp [get?, List.find?_eq_none]

/-- The bindings of the first of two contexts come first. -/
theorem get?_append (b c : Context K) (name : String) :
    get? (b ++ c) name = (b.get? name).or (c.get? name) := by
  simp only [get?, List.find?_append]
  cases b.find? fun binding => binding.name == name <;> rfl

/-- Two names are similar when they are equal or one edit apart. -/
def isSimilar (a b : String) : Bool := Text.distance a.toList b.toList < 2

/-- The names that have a binding and are similar to the given one, each once, in the order of
their first bindings. -/
def similar (context : Context K) (name : String) : List String :=
  ((context.map Binding.name).filter (isSimilar · name)).eraseDups

end Context

end SymbolicCalculus
