import SymbolicCalculus.Simplify.Gather

/-!
# Numbers among the entries of a list

Gathering tells the numbers of a list from its other entries. Either there is no number, and the
other entries are the whole list, or a number that comes last can be split off the list.
-/

namespace SymbolicCalculus

variable {K : Type}

section Lists

variable {α β : Type} {f : α → Option β}

/-- If only the last entry of a list is kept by `f`, the entries that are not are those before
it. -/
theorem filter_isNone_of_filterMap_append {init : List α} {x : α} {b : β}
    (h : (init ++ [x]).filterMap f = [b]) (hx : (f x).isSome) :
    (init ++ [x]).filter (fun a => (f a).isNone) = init ∧ f x = some b := by
  obtain ⟨c, hc⟩ := Option.isSome_iff_exists.mp hx
  -- `b` is the only value, and the last entry has one, so no other entry has
  have hinit : init.filterMap f = [] ∧ c = b := by
    simpa [List.filterMap_append, hc, List.append_eq_singleton_iff] using h
  obtain ⟨hnil, rfl⟩ := hinit
  have hnone : ∀ a ∈ init, f a = none := List.filterMap_eq_nil_iff.mp hnil
  constructor
  · rw [List.filter_append, List.filter_eq_self.mpr (by simpa using hnone)]
    simp [hc]
  · exact hc

end Lists

namespace Expr

@[simp] theorem isNumber_number (v : K) : (number v).isNumber = true := rfl

@[simp] theorem asNumber?_number (v : K) : (number v).asNumber? = some v := rfl

/-- An expression either is a number or gives no number. -/
theorem eq_number_or (e : Expr K) :
    (∃ v, e = number v) ∨ (e.isNumber = false ∧ e.asNumber? = none) := by
  cases e with
  | number v => exact Or.inl ⟨v, rfl⟩
  | _ => exact Or.inr ⟨rfl, rfl⟩

theorem isNone_asNumber? (e : Expr K) : e.asNumber?.isNone = !e.isNumber := by
  cases e <;> rfl

theorem isNone_addendNumber? (a : Addend (Expr K)) :
    (addendNumber? a).isNone = !a.expr.isNumber := by
  rw [addendNumber?, Option.isNone_map, isNone_asNumber?]

end Expr

end SymbolicCalculus
