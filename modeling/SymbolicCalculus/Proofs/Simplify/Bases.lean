import SymbolicCalculus.Proofs.Expr.Alike
import SymbolicCalculus.Simplify.Fraction

/-!
# The bases of merged powers

A base is looked for among those that are there already, and only its exponent changes if it is
found. So merging lists the bases above the bar without duplicates, in the order of their first
occurrences, and below the bar those of the remaining bases (`Powers.bases_merge`). No two of them
are structurally equal (`Powers.pairwise_bases_merge`).
-/

namespace SymbolicCalculus

open SymbolicCalculus.Expr Scalar

/-! ## First occurrences -/

section EraseDups

variable {α : Type} [BEq α]

/-- Removing duplicates takes entries out and moves none. -/
theorem eraseDups_sublist (as : List α) : as.eraseDups.Sublist as := by
  -- recursion as in `List.eraseDups`, which goes on with the entries unequal to the first
  match as with
  | [] => exact .slnil
  | a :: as =>
    rw [List.eraseDups_cons]
    exact ((eraseDups_sublist (as.filter fun b => !b == a)).trans List.filter_sublist).cons_cons a
termination_by as.length
decreasing_by
  have := List.length_filter_le (fun b => !b == a) as
  simp only [List.length_cons]
  omega

/-- No two equal entries are left when duplicates are removed. -/
theorem pairwise_eraseDups_beq [PartialEquivBEq α] (as : List α) :
    as.eraseDups.Pairwise fun a b => (a == b) = false := by
  match as with
  | [] => exact .nil
  | a :: as =>
    rw [List.eraseDups_cons]
    refine .cons (fun b hb => ?_) (pairwise_eraseDups_beq (as.filter fun b => !b == a))
    have hne := (List.mem_filter.mp ((eraseDups_sublist _).subset hb)).2
    rw [BEq.comm]
    simpa using hne
termination_by as.length
decreasing_by
  have := List.length_filter_le (fun b => !b == a) as
  simp only [List.length_cons]
  omega

/-- A test that cannot tell equal entries apart selects an entry or its equals. -/
theorem contains_filter [PartialEquivBEq α] {p : α → Bool}
    (hp : ∀ {a b}, (a == b) = true → p a = p b) (as : List α) (b : α) :
    (as.filter p).contains b = (as.contains b && p b) := by
  induction as with
  | nil => rfl
  | cons a as ih =>
      rw [List.contains_cons, Bool.and_or_distrib_right, ← ih]
      -- the first entry is kept for `b` only if it equals `b`, and then the test passes for both or
      -- for none
      cases hb : b == a with
      | true =>
          have hpb := hp hb
          cases hpa : p a with
          | true => simp [hpa, hpb, hb]
          | false => simp [hpa, hpb]
      | false =>
          rw [Bool.false_and, Bool.false_or]
          cases hpa : p a with
          | true => rw [List.filter_cons_of_pos hpa, List.contains_cons, hb, Bool.false_or]
          | false => rw [List.filter_cons_of_neg (by simp [hpa])]

/-- Removing duplicates makes no difference to which entries there are, up to equality. -/
theorem contains_eraseDups [PartialEquivBEq α] (as : List α) (b : α) :
    as.eraseDups.contains b = as.contains b := by
  match as with
  | [] => rfl
  | a :: as =>
    rw [List.eraseDups_cons, List.contains_cons, List.contains_cons,
      contains_eraseDups (as.filter fun c => !c == a),
      contains_filter fun h => by rw [BEq.congr_left h]]
    cases b == a <;> simp
termination_by as.length
decreasing_by
  have := List.length_filter_le (fun b => !b == a) as
  simp only [List.length_cons]
  omega

end EraseDups

namespace Powers

variable {K : Type}

/-- The bases of powers. -/
def bases (powers : Powers K) : List (Expr K) := powers.map Prod.fst

@[simp] theorem bases_nil : bases ([] : Powers K) = [] := rfl

@[simp] theorem bases_cons (p : Expr K × Expr K) (powers : Powers K) :
    bases (p :: powers) = p.1 :: bases powers := rfl

@[simp] theorem bases_append (ps qs : Powers K) : bases (ps ++ qs) = bases ps ++ bases qs :=
  List.map_append

variable [Scalar K]

/-- The factors of a fraction as powers, those above the bar and those below it. -/
def ofFraction (a : Fraction K) : Powers K × Powers K := (a.num.map ofFactor, a.den.map ofFactor)

/-! ## Raising -/

/-- Raising replaces one exponent, that of the first power with the base. -/
theorem raise?_eq_some {base exponent : Expr K} {subtract : Bool} {powers powers' : Powers K}
    (h : raise? base exponent subtract powers = some powers') :
    ∃ before b x after, powers = before ++ (b, x) :: after ∧ Alike b base ∧
      powers' = before ++ (b, addExponents x exponent subtract) :: after := by
  -- the powers before the one that is raised are those that recursion walked past
  induction powers generalizing powers' with
  | nil => cases h
  | cons p powers ih =>
      obtain ⟨b, x⟩ := p
      rw [raise?] at h
      split at h
      · next hb => exact ⟨[], b, x, powers, rfl, hb, (Option.some.inj h).symm⟩
      · obtain ⟨rest, hrest, rfl⟩ := Option.map_eq_some_iff.mp h
        obtain ⟨before, c, y, after, rfl, hc, rfl⟩ := ih hrest
        exact ⟨(b, x) :: before, c, y, after, rfl, hc, rfl⟩

/-- Raising fails only if no power has the base. -/
theorem raise?_eq_none {base exponent : Expr K} {subtract : Bool} {powers : Powers K}
    (h : raise? base exponent subtract powers = none) : ∀ b ∈ bases powers, ¬ Alike b base := by
  induction powers with
  | nil => exact fun _ hb => (List.not_mem_nil hb).elim
  | cons p powers ih =>
      rw [raise?] at h
      split at h
      · cases h
      · next hp => exact List.forall_mem_cons.mpr ⟨hp, ih (Option.map_eq_none_iff.mp h)⟩

variable [UnitLaws K]

/-- Raising succeeds if there is a power with the base, and keeps all bases. -/
theorem raise?_cases (base exponent : Expr K) (subtract : Bool) (powers : Powers K) :
    (∃ powers', raise? base exponent subtract powers = some powers' ∧
        (bases powers).contains base = true ∧ bases powers' = bases powers) ∨
      (raise? base exponent subtract powers = none ∧ (bases powers).contains base = false) := by
  cases hraise : raise? base exponent subtract powers with
  | none =>
      refine Or.inr ⟨rfl, Bool.eq_false_iff.mpr fun h => ?_⟩
      obtain ⟨b, hb, heq⟩ := List.contains_iff_exists_mem_beq.mp h
      exact raise?_eq_none hraise b hb (BEq.symm heq)
  | some powers' =>
      obtain ⟨before, b, x, after, rfl, hb, rfl⟩ := raise?_eq_some hraise
      refine Or.inl ⟨_, rfl, List.contains_iff_exists_mem_beq.mpr ⟨b, ?_, BEq.symm hb⟩, ?_⟩ <;> simp

/-! ## Merging -/

/-- Inserting a power adds its base at the end, unless it is there. -/
theorem bases_insert (powers : Powers K) (p : Expr K × Expr K) :
    bases (powers.insert p) =
      if (bases powers).contains p.1 then bases powers else bases powers ++ [p.1] := by
  rcases raise?_cases p.1 p.2 false powers with ⟨powers', hraise, hmem, hbases⟩ | ⟨hraise, hmem⟩
  · rw [insert, hraise, hmem, if_pos rfl]
    exact hbases
  · rw [insert, hraise, hmem, if_neg Bool.false_ne_true]
    exact bases_append powers [p]

/-- Inserting powers adds the bases that are new, each of them once. -/
theorem bases_foldl_insert (ps powers : Powers K) :
    bases (ps.foldl insert powers) =
      bases powers ++ ((bases ps).filter fun b => !(bases powers).contains b).eraseDups := by
  -- induction on what is left to insert; a base counts as new with respect to all inserted before
  -- it
  induction ps generalizing powers with
  | nil => simp
  | cons p ps ih =>
      rw [List.foldl_cons, ih, bases_insert, bases_cons]
      split
      · next hmem => rw [List.filter_cons_of_neg (by simp [hmem])]
      · next hmem =>
        rw [List.filter_cons_of_pos (by simpa using hmem), List.eraseDups_cons, List.filter_filter,
          List.append_assoc, List.singleton_append]
        simp only [List.contains_append, List.contains_cons, List.contains_nil, Bool.or_false,
          Bool.not_or, Bool.and_comm]

/-- The factors of a product, taken as powers, have each base once, in the order of first
occurrences. -/
theorem bases_ofFactors (factors : List (Expr K)) :
    bases (ofFactors factors) = (bases (factors.map ofFactor)).eraseDups := by
  rw [ofFactors, bases_foldl_insert]
  simp

/-- Dividing keeps the bases above the bar, and below it those that are not above. -/
theorem bases_divide (num den : Powers K) :
    bases (divide num den).1 = bases num ∧
      bases (divide num den).2 = (bases den).filter fun b => !(bases num).contains b := by
  induction den generalizing num with
  | nil => exact ⟨rfl, rfl⟩
  | cons p den ih =>
      rw [divide, bases_cons]
      -- a power below the bar whose base is above goes into the exponent there
      rcases raise?_cases p.1 p.2 true num with ⟨num', hraise, hmem, hbases⟩ | ⟨hraise, hmem⟩
      · rw [hraise, List.filter_cons_of_neg (by simp [hmem]), ← hbases]
        exact ih num'
      · rw [hraise, List.filter_cons_of_pos (by simp [hmem])]
        obtain ⟨hnum, hden⟩ := ih num
        exact ⟨hnum, congrArg (p.1 :: ·) hden⟩

/-- Above the bar, merging leaves the bases in the order of their first occurrences, and below it
those of the others. -/
theorem bases_merge (a : Fraction K) :
    bases (merge a).1 = (bases (ofFraction a).1).eraseDups ∧
      bases (merge a).2 = (bases (ofFraction a).2).eraseDups.filter fun b =>
        !(bases (ofFraction a).1).contains b := by
  obtain ⟨hnum, hden⟩ := bases_divide (ofFactors a.num) (ofFactors a.den)
  rw [bases_ofFactors] at hnum
  rw [bases_ofFactors, bases_ofFactors] at hden
  simp only [contains_eraseDups] at hden
  exact ⟨hnum, hden⟩

/-- No two bases are left that are structurally equal, neither on one side of the bar nor across
it. -/
theorem pairwise_bases_merge (a : Fraction K) :
    (bases (merge a).1 ++ bases (merge a).2).Pairwise fun b c => (b == c) = false := by
  obtain ⟨hnum, hden⟩ := bases_merge a
  rw [hnum, hden]
  refine List.pairwise_append.mpr
    ⟨pairwise_eraseDups_beq _, (pairwise_eraseDups_beq _).filter _, fun b hb c hc => ?_⟩
  have hb : b ∈ bases (ofFraction a).1 := (eraseDups_sublist _).subset hb
  have hc := (List.mem_filter.mp hc).2
  refine Bool.eq_false_iff.mpr fun hbc => ?_
  -- a base below the bar that equals one above would have been divided out
  have hmem := List.contains_iff_exists_mem_beq.mpr ⟨b, hb, BEq.symm hbc⟩
  rw [hmem] at hc
  cases hc

/-- Merging neither loses a base nor makes up one. -/
theorem contains_bases_merge (a : Fraction K) (b : Expr K) :
    (bases (merge a).1 ++ bases (merge a).2).contains b =
      (bases (ofFraction a).1 ++ bases (ofFraction a).2).contains b := by
  obtain ⟨hnum, hden⟩ := bases_merge a
  rw [List.contains_append, List.contains_append, hnum, hden, contains_eraseDups,
    contains_filter fun h => by rw [List.contains_congr h], contains_eraseDups]
  cases (bases (ofFraction a).1).contains b <;> simp

end Powers

end SymbolicCalculus
