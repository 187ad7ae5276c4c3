import SymbolicCalculus.Proofs.Evaluation.Failure
import SymbolicCalculus.Proofs.Text.EditDistance
import SymbolicCalculus.Scalar.Binary64

/-!
# Suggestions are one edit away

The names that are similar to a given one are those bindings' names that equal it or are one edit
away from it, each of them once, in the order of their first bindings. A name is complained about
only if it has no binding, so it is not among the names suggested for it.
-/

namespace SymbolicCalculus

/-! ## First occurrences -/

/-- Duplicates may be removed before or after names are selected. -/
theorem eraseDups_filter (p : String → Bool) (names : List String) :
    (names.filter p).eraseDups = names.eraseDups.filter p := by
  -- what follows the first name is filtered before duplicates are taken out, so it is only shorter
  induction hn : names.length using Nat.strongRecOn generalizing names with
  | _ n ih =>
      cases names with
      | nil => rfl
      | cons name names =>
          have hlength : (names.filter fun other => !other == name).length < n := by
            have := List.length_filter_le (fun other => !other == name) names
            rw [List.length_cons] at hn
            omega
          have hrest := ih _ hlength _ rfl
          rw [List.eraseDups_cons]
          by_cases hname : p name = true
          · rw [List.filter_cons_of_pos hname, List.filter_cons_of_pos hname, List.eraseDups_cons,
              ← hrest, List.filter_filter, List.filter_filter]
            simp only [Bool.and_comm]
          · rw [List.filter_cons_of_neg hname, List.filter_cons_of_neg hname, ← hrest,
              List.filter_filter]
            refine congrArg List.eraseDups (List.filter_congr fun other _ => ?_)
            by_cases hother : other = name
            · rw [hother, Bool.eq_false_iff.mpr hname, Bool.false_and]
            · simp [hother]

/-- What is left without duplicates stands in the order of first occurrences. -/
theorem pairwise_eraseDups (names : List String) :
    names.eraseDups.Pairwise fun a b => names.idxOf a < names.idxOf b := by
  induction names with
  | nil => exact .nil
  | cons name names ih =>
      rw [List.eraseDups_cons, eraseDups_filter]
      have hindex {other : String} (h : other ∈ names.eraseDups.filter fun b => !b == name) :
          (name :: names).idxOf other = names.idxOf other + 1 := by
        have hne : other ≠ name := by simpa using (List.mem_filter.mp h).2
        rw [List.idxOf_cons, beq_eq_false_iff_ne.mpr hne.symm, cond_false]
      refine .cons (fun other hother => ?_) ((ih.filter _).imp_of_mem fun ha hb hlt => ?_)
      · rw [hindex hother, List.idxOf_cons_self]
        exact Nat.succ_pos _
      · rw [hindex ha, hindex hb]
        exact Nat.succ_lt_succ hlt

/-! ## Similar names -/

namespace Context

variable {K : Type}

/-- Two names are similar if they are equal or one edit apart. -/
theorem isSimilar_iff {a b : String} :
    isSimilar a b = true ↔ a = b ∨ Text.OneEdit a.toList b.toList := by
  rw [isSimilar, decide_eq_true_iff, Text.distance_eq_editDistance, ← Text.editDistance_eq_one_iff,
    ← String.toList_inj, ← Text.editDistance_eq_zero_iff]
  omega

/-- The similar names are those bound names that equal the given one or are one edit away from it.
-/
theorem mem_similar_iff {context : Context K} {name other : String} :
    other ∈ context.similar name ↔
      other ∈ context.map Binding.name ∧ (other = name ∨ Text.OneEdit other.toList name.toList) := by
  rw [similar, List.mem_eraseDups, List.mem_filter, isSimilar_iff]

/-- Similar names stand in the order of their first bindings. -/
theorem pairwise_similar (context : Context K) (name : String) :
    (context.similar name).Pairwise fun a b =>
      (context.map Binding.name).idxOf a < (context.map Binding.name).idxOf b := by
  rw [similar, eraseDups_filter]
  exact (pairwise_eraseDups _).filter _

/-- No name is suggested twice. -/
theorem nodup_similar (context : Context K) (name : String) : (context.similar name).Nodup := by
  refine (context.pairwise_similar name).imp fun hlt heq => ?_
  rw [heq] at hlt
  exact Nat.lt_irrefl _ hlt

end Context

variable {K : Type} [Scalar K]

/-- The name complained about has no binding, and the suggestions are the names similar to it. -/
theorem eq_similar_of_unknownVariable {context : Context K} {e : Expr K} {name : String}
    {suggestions : List String}
    (h : evaluate context e = .error (.unknownVariable name suggestions)) :
    context.get? name = none ∧ suggestions = context.similar name := by
  rw [← failure?_eq_some_iff, failure?_evaluate] at h
  obtain ⟨visit, -, hvisit⟩ := List.exists_of_findSome?_eq_some h
  unfold Context.failureAt? at hvisit
  -- a visit fails with this error only if the name has no binding
  split at hvisit
  · next hnone =>
    cases hvisit
    exact ⟨Option.isNone_iff_eq_none.mp hnone, rfl⟩
  · split at hvisit <;> cases hvisit

/-! ## The main result -/

/-- **Suggestions are exactly the names one edit away.** Similarity rests on the edit distance. The
names similar to a given one are, without repetition and in the order of their first occurrence, the
names of the bindings that equal it or from which one insertion, deletion or replacement of a
character leads to it. A name that evaluation does not know is not among the suggestions made for
it, so each of these is at a distance of one. -/
theorem similar_oneEdit (context : Context K) :
    (∀ as bs, Text.distance as bs = Text.editDistance as bs) ∧
    (∀ name, (context.similar name).Nodup ∧
      ((context.similar name).Pairwise fun a b =>
        (context.map Binding.name).idxOf a < (context.map Binding.name).idxOf b) ∧
      ∀ other, other ∈ context.similar name ↔ other ∈ context.map Binding.name ∧
        (other = name ∨ Text.OneEdit other.toList name.toList)) ∧
    ∀ e name suggestions, evaluate context e = .error (.unknownVariable name suggestions) →
      suggestions = context.similar name ∧ name ∉ suggestions ∧
        ∀ other ∈ suggestions, Text.editDistance other.toList name.toList = 1 := by
  refine ⟨Text.distance_eq_editDistance, fun name => ?_, fun e name suggestions h => ?_⟩
  · exact ⟨context.nodup_similar name, context.pairwise_similar name,
      fun other => Context.mem_similar_iff⟩
  · obtain ⟨hnone, rfl⟩ := eq_similar_of_unknownVariable h
    rw [Context.get?_eq_none_iff] at hnone
    refine ⟨rfl, fun hname => hnone (Context.mem_similar_iff.mp hname).1, fun other hother => ?_⟩
    -- the unknown name itself is not bound, which leaves the names one edit away
    obtain ⟨hbound, rfl | hedit⟩ := Context.mem_similar_iff.mp hother
    · exact absurd hbound hnone
    · exact Text.editDistance_eq_one_iff.mpr hedit

/-- The binding of `x` speaks of `rae`, to which a deletion leads from `rate`, an insertion from
`ra` and a replacement from `rée`. -/
theorem similar_oneEdit_unknown :
    let zero : Expr Float := .number 0
    let context : Context Float := [⟨"rate", zero⟩, ⟨"x", .call .sin (.var "rae")⟩, ⟨"ra", zero⟩,
      ⟨"rate", zero⟩, ⟨"time", zero⟩, ⟨"rée", zero⟩]
    evaluate context (.var "x") = .error (.unknownVariable "rae" ["rate", "ra", "rée"]) ∧
      "rae" ∉ ["rate", "ra", "rée"] ∧
      ∀ other ∈ ["rate", "ra", "rée"], Text.editDistance other.toList "rae".toList = 1 := by
  intro zero context
  have hunknown : evaluate context (.var "x") =
      .error (.unknownVariable "rae" ["rate", "ra", "rée"]) := by
    cbv
  obtain ⟨-, hnot, hone⟩ := (similar_oneEdit context).2.2 _ _ _ hunknown
  exact ⟨hunknown, hnot, hone⟩

end SymbolicCalculus
