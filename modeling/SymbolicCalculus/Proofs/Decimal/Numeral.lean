import SymbolicCalculus.Decimal.Numeral

/-!
# The form of a numeral

What is read as a number is digits, or digits with one point among them. The numeral that such a
text starts with is the whole text, and the numeral that any text starts with is read as a number.
-/

namespace SymbolicCalculus.Decimal

/-- All characters are digits. -/
def AllDigits (cs : List Char) : Prop := ∀ c ∈ cs, c.isDigit = true

theorem takeWhile_isDigit {ds : List Char} (h : AllDigits ds) (rest : List Char) :
    (ds ++ rest).takeWhile Char.isDigit = ds ++ rest.takeWhile Char.isDigit :=
  List.takeWhile_append_of_pos h

/-- A row of digits is measured in full. -/
theorem digitsLength_of_allDigits {ds : List Char} (h : AllDigits ds) :
    digitsLength ds = ds.length := by
  have htake := takeWhile_isDigit h []
  simp only [List.append_nil, List.takeWhile_nil] at htake
  rw [digitsLength, htake]

theorem digitsLength_point {ds : List Char} (h : AllDigits ds) (ps : List Char) :
    digitsLength (ds ++ '.' :: ps) = ds.length := by
  rw [digitsLength, takeWhile_isDigit h, List.takeWhile_cons_of_neg (by decide), List.append_nil]

/-- Every text is a row of digits and what follows the last of them. -/
theorem exists_leading_digits (cs : List Char) :
    ∃ ds rest, cs = ds ++ rest ∧ AllDigits ds ∧ cs.takeWhile Char.isDigit = ds :=
  ⟨_, _, List.takeWhile_append_dropWhile.symm, List.all_eq_true.mp List.all_takeWhile, rfl⟩

/-- A text that is read as a number is digits, or digits with a point that has a digit on either
side of it. -/
theorem exists_digits_of_read? {cs : List Char} {r : Nat × Nat} (h : read? cs = some r) :
    (cs ≠ [] ∧ AllDigits cs) ∨
      ∃ ds ps, cs = ds ++ '.' :: ps ∧ AllDigits ds ∧ AllDigits ps ∧ (ds ≠ [] ∨ ps ≠ []) := by
  obtain ⟨ds, rest, rfl, hds, hrest⟩ := exists_leading_digits cs
  unfold read? at h
  simp only [hrest, List.drop_left] at h
  -- after the leading digits comes nothing, a point, or a character that no numeral has there
  match rest with
  | [] =>
    refine Or.inl ⟨?_, by simpa using hds⟩
    rintro hnil
    simp [List.append_eq_nil_iff.mp hnil] at h
  | c :: ps =>
    by_cases hpoint : c = '.'
    · subst hpoint
      simp only [List.drop_succ_cons, List.drop_zero] at h
      split at h
      · next hdigits =>
        obtain ⟨hne, hps⟩ := hdigits
        refine Or.inr ⟨ds, ps, rfl, hds, by simpa [AllDigits] using hps, ?_⟩
        cases ds with
        | nil => exact Or.inr hne
        | cons => exact Or.inl (List.cons_ne_nil _ _)
      · cases h
    · simp [hpoint] at h

/-- The numeral at the start of a text that is read as a number is the whole text. -/
theorem numeralLength_of_read? {cs : List Char} {r : Nat × Nat} (h : read? cs = some r) :
    numeralLength cs = cs.length ∧ cs ≠ [] := by
  rcases exists_digits_of_read? h with ⟨hne, hcs⟩ | ⟨ds, ps, rfl, hds, hps, hne⟩
  · refine ⟨?_, hne⟩
    rw [numeralLength, digitsLength_of_allDigits hcs, List.drop_length]
  · refine ⟨?_, by simp⟩
    rw [numeralLength, digitsLength_point hds, List.drop_left]
    simp only [digitsLength_of_allDigits hps]
    -- a point alone would measure nothing, and there is a digit on one side of it
    rw [if_neg (by simpa [List.length_eq_zero_iff, Classical.or_iff_not_imp_left] using hne)]
    simp only [List.length_append, List.length_cons]
    omega

/-- A row of digits is read as a number. -/
theorem exists_read?_of_allDigits {ds : List Char} (h : AllDigits ds) (hne : ds ≠ []) :
    ∃ r, read? ds = some r := by
  have htake := takeWhile_isDigit h []
  rw [List.append_nil, List.takeWhile_nil, List.append_nil] at htake
  refine ⟨(digitsValue ds, 0), ?_⟩
  unfold read?
  simp only [htake, List.drop_length, if_neg hne, List.drop_nil, List.append_nil]

/-- Digits with a point among them are read as a number. -/
theorem exists_read?_of_point {ds ps : List Char} (hds : AllDigits ds) (hps : AllDigits ps)
    (hne : ds ≠ [] ∨ ps ≠ []) : ∃ r, read? (ds ++ '.' :: ps) = some r := by
  have htake : (ds ++ '.' :: ps).takeWhile Char.isDigit = ds := by
    rw [takeWhile_isDigit hds, List.takeWhile_cons_of_neg (by decide), List.append_nil]
  have hdigits : ds ++ ps ≠ [] := by
    intro hnil
    obtain ⟨rfl, rfl⟩ := List.append_eq_nil_iff.mp hnil
    simp at hne
  refine ⟨(digitsValue (ds ++ ps), ps.length), ?_⟩
  unfold read?
  simp only [htake, List.drop_left, List.drop_succ_cons, List.drop_zero]
  exact if_pos ⟨hdigits, List.all_eq_true.mpr hps⟩

/-- The numeral that a text starts with is read as a number. -/
theorem exists_read?_take {cs : List Char} (h : numeralLength cs ≠ 0) :
    ∃ r, read? (cs.take (numeralLength cs)) = some r := by
  obtain ⟨ds, rest, rfl, hds, hrest⟩ := exists_leading_digits cs
  have hlength : digitsLength (ds ++ rest) = ds.length := by rw [digitsLength, hrest]
  unfold numeralLength at h ⊢
  simp only [hlength, List.drop_left] at h ⊢
  split at h
  · next ps =>
    split at h
    · exact absurd rfl h
    · next hne =>
      -- taking as many characters as there are digits after the point takes these digits
      have hplaces : ps.take (digitsLength ps) = ps.takeWhile Char.isDigit :=
        (List.prefix_iff_eq_take.mp (List.takeWhile_prefix _)).symm
      rw [if_neg hne, Nat.add_assoc, List.take_length_add_append, Nat.add_comm 1,
        List.take_succ_cons, hplaces]
      refine exists_read?_of_point hds (List.all_eq_true.mp List.all_takeWhile) ?_
      rw [digitsLength, List.length_eq_zero_iff, List.length_eq_zero_iff] at hne
      exact Classical.not_and_iff_not_or_not.mp hne
  · rw [List.take_left]
    exact exists_read?_of_allDigits hds fun hnil => h (List.length_eq_zero_iff.mpr hnil)

/-- Every character of a numeral is a digit or a point. -/
theorem mem_numeral {cs : List Char} {r : Nat × Nat} (h : read? cs = some r) :
    ∀ c ∈ cs, c.isDigit = true ∨ c = '.' := by
  intro c hc
  rcases exists_digits_of_read? h with ⟨-, hcs⟩ | ⟨ds, ps, rfl, hds, hps, -⟩
  · exact Or.inl (hcs c hc)
  · rcases List.mem_append.mp hc with hc | hc
    · exact Or.inl (hds c hc)
    · rcases List.mem_cons.mp hc with hc | hc
      · exact Or.inr hc
      · exact Or.inl (hps c hc)

end SymbolicCalculus.Decimal
