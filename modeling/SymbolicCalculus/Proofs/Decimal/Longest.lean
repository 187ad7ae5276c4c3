import SymbolicCalculus.Proofs.Decimal.Numeral

/-!
# The longest numeral

What is measured at the start of a text is the longest of its prefixes that are numerals
(`isLongest_iff`). A numeral that can go on at all goes on with the next character, so which numeral
is the longest does not depend on what comes after that (`isLongest_append_cons_iff`).

Numerals may be split off a text one after another, the longest each time, until none is left at the
start. `Splits` relates a text to these numerals and to its rest.
-/

namespace SymbolicCalculus.Decimal

/-- The language of numerals: `[0-9]+(\.[0-9]*)?|\.[0-9]+`. -/
inductive IsNumeral : List Char → Prop
  | whole {ds : List Char} : ds ≠ [] → AllDigits ds → IsNumeral ds
  | point {ds ps : List Char} : ds ≠ [] → AllDigits ds → AllDigits ps → IsNumeral (ds ++ '.' :: ps)
  | fraction {ps : List Char} : ps ≠ [] → AllDigits ps → IsNumeral ('.' :: ps)

/-- The numerals are the texts that are read as numbers. -/
theorem isNumeral_iff {cs : List Char} : IsNumeral cs ↔ ∃ r, read? cs = some r := by
  constructor
  · rintro (⟨hne, hds⟩ | ⟨hne, hds, hps⟩ | ⟨hne, hps⟩)
    · exact exists_read?_of_allDigits hds hne
    · exact exists_read?_of_point hds hps (Or.inl hne)
    · exact @exists_read?_of_point [] _ (List.forall_mem_nil _) hps (Or.inr hne)
  · rintro ⟨r, h⟩
    -- a point with digits on both sides or before it, and one with digits only after it, are two
    -- forms
    rcases exists_digits_of_read? h with ⟨hne, hcs⟩ | ⟨ds, ps, rfl, hds, hps, hne⟩
    · exact .whole hne hcs
    · by_cases hnil : ds = []
      · subst hnil
        exact .fraction (hne.resolve_left fun h => h rfl) hps
      · exact .point hnil hds hps

theorem IsNumeral.ne_nil {cs : List Char} (h : IsNumeral cs) : cs ≠ [] := by
  obtain ⟨r, h⟩ := isNumeral_iff.mp h
  exact (numeralLength_of_read? h).2

/-! ## Prefixes -/

theorem length_le_digitsLength {ds : List Char} (h : AllDigits ds) (rest : List Char) :
    ds.length ≤ digitsLength (ds ++ rest) := by
  rw [digitsLength, takeWhile_isDigit h, List.length_append]
  exact Nat.le_add_right _ _

/-- A numeral starts with all digits that the text starts with. -/
theorem digitsLength_le_numeralLength (cs : List Char) : digitsLength cs ≤ numeralLength cs := by
  unfold numeralLength
  dsimp only
  split
  · split <;> omega
  · exact Nat.le_refl _

/-- With a digit on either side of the point, the numeral goes on to the last digit after it. -/
theorem numeralLength_point {ds ps : List Char} (h : AllDigits ds)
    (hne : ds.length ≠ 0 ∨ digitsLength ps ≠ 0) :
    numeralLength (ds ++ '.' :: ps) = ds.length + 1 + digitsLength ps := by
  rw [numeralLength, digitsLength_point h, List.drop_left]
  exact if_neg (Classical.not_and_iff_not_or_not.mpr hne)

/-- No numeral at the start of a text is longer than the one that is measured. -/
theorem IsNumeral.length_le {p : List Char} (h : IsNumeral p) (rest : List Char) :
    p.length ≤ numeralLength (p ++ rest) := by
  -- one case for each form: the digits of the numeral are among those that are measured in the same
  -- place
  cases h with
  | whole _ hds =>
      exact Nat.le_trans (length_le_digitsLength hds rest) (digitsLength_le_numeralLength _)
  | @point ds ps hne hds hps =>
      have hplaces := length_le_digitsLength hps rest
      rw [List.append_assoc, List.cons_append,
        numeralLength_point hds (Or.inl (mt List.length_eq_zero_iff.mp hne)), List.length_append,
        List.length_cons]
      omega
  | @fraction ps hne hps =>
      have hplaces := length_le_digitsLength hps rest
      have hpos := List.length_pos_iff.mpr hne
      have hlength : numeralLength ([] ++ '.' :: (ps ++ rest)) =
          0 + 1 + digitsLength (ps ++ rest) :=
        numeralLength_point (List.forall_mem_nil _) (Or.inr (by omega))
      rw [List.nil_append] at hlength
      rw [List.cons_append, hlength, List.length_cons]
      omega

/-- The numeral is a prefix of the text, and no longer prefix is a numeral. -/
structure IsLongest (p cs : List Char) : Prop where
  isNumeral : IsNumeral p
  starts : p <+: cs
  longest : ∀ q, IsNumeral q → q <+: cs → q.length ≤ p.length

theorem isNumeral_take {cs : List Char} (h : numeralLength cs ≠ 0) :
    IsNumeral (cs.take (numeralLength cs)) :=
  isNumeral_iff.mpr (exists_read?_take h)

/-- No numeral at the start of a text is longer than what is measured there. -/
theorem length_le_of_starts {p cs : List Char} (h : IsNumeral p) (hp : p <+: cs) :
    p.length ≤ (cs.take (numeralLength cs)).length := by
  have hcs := hp.length_le
  obtain ⟨rest, rfl⟩ := hp
  have hmeasured := h.length_le rest
  rw [List.length_take]
  omega

/-- The numeral that is measured is the longest one. -/
theorem isLongest_iff {p cs : List Char} :
    IsLongest p cs ↔ numeralLength cs ≠ 0 ∧ p = cs.take (numeralLength cs) := by
  constructor
  · rintro ⟨hp, hstarts, hlongest⟩
    have hle := length_le_of_starts hp hstarts
    have hpos := List.length_pos_iff.mpr hp.ne_nil
    have hmeasured : numeralLength cs ≠ 0 := by
      intro hzero
      rw [hzero, List.take_zero, List.length_nil] at hle
      omega
    have hge := hlongest _ (isNumeral_take hmeasured) (List.take_prefix _ _)
    -- both are prefixes of the text, so they agree once they are equally long
    refine ⟨hmeasured, ?_⟩
    exact (List.prefix_of_prefix_length_le hstarts (List.take_prefix _ _) hle).eq_of_length
      (Nat.le_antisymm hle hge)
  · rintro ⟨hmeasured, rfl⟩
    exact ⟨isNumeral_take hmeasured, List.take_prefix _ _, fun q => length_le_of_starts⟩

/-- No prefix of the text is a numeral. -/
def NoNumeral (cs : List Char) : Prop := ∀ p, p <+: cs → ¬IsNumeral p

/-- Nothing is measured at the start of a text if and only if no prefix is a numeral. -/
theorem noNumeral_iff {cs : List Char} : NoNumeral cs ↔ numeralLength cs = 0 := by
  constructor
  · intro h
    exact Decidable.not_not.mp fun hmeasured =>
      h _ (List.take_prefix _ _) (isNumeral_take hmeasured)
  · intro hmeasured p hstarts hp
    have hle := length_le_of_starts hp hstarts
    have hpos := List.length_pos_iff.mpr hp.ne_nil
    rw [hmeasured, List.take_zero, List.length_nil] at hle
    omega

/-- The longest numeral is found, if there is any. -/
theorem leadingNumeral?_eq_some_iff {text numeral : String} :
    leadingNumeral? text = some numeral ↔ IsLongest numeral.toList text.toList := by
  rw [isLongest_iff, leadingNumeral?]
  split
  · next hmeasured => simp [hmeasured]
  · next hmeasured =>
    rw [Option.some_inj, ← String.toList_inj, String.toList_ofList]
    exact ⟨fun h => ⟨hmeasured, h.symm⟩, fun h => h.2.symm⟩

/-- No numeral is found if and only if there is none. -/
theorem leadingNumeral?_eq_none_iff {text : String} :
    leadingNumeral? text = none ↔ NoNumeral text.toList := by
  rw [noNumeral_iff, leadingNumeral?]
  split
  · next hmeasured => simp [hmeasured]
  · next hmeasured => simpa using hmeasured

/-! ## The next character -/

/-- A numeral that goes on is still a numeral after one more character. -/
theorem IsNumeral.of_append_cons {p rest : List Char} {c : Char} (hp : IsNumeral p)
    (h : IsNumeral (p ++ c :: rest)) : IsNumeral (p ++ [c]) := by
  have hdigits {ds rest : List Char} (hds : AllDigits (ds ++ rest)) : AllDigits ds :=
    (List.forall_mem_append.mp hds).1
  have hne : p ++ [c] ≠ [] := List.append_ne_nil_of_right_ne_nil p (List.cons_ne_nil c [])
  rw [List.append_cons] at h
  generalize hcs : p ++ [c] ++ rest = cs at h
  cases h with
  | whole _ hds =>
      rw [← hcs] at hds
      exact .whole hne (hdigits hds)
  | point hds₀ hds hps =>
      rcases List.append_eq_append_iff.mp hcs with ⟨tail, rfl, -⟩ | ⟨tail, htail, hrest⟩
      · -- the point comes later
        exact .whole hne (hdigits hds)
      · rw [htail]
        -- the next character is the point itself or one of the places after it
        rcases List.cons_eq_append_iff.mp hrest with ⟨rfl, -⟩ | ⟨places, rfl, rfl⟩
        · rw [List.append_nil]
          exact .whole hds₀ hds
        · exact .point hds₀ hds (hdigits hps)
  | fraction hps₀ hps =>
      obtain ⟨d, p, rfl⟩ := List.exists_cons_of_ne_nil hp.ne_nil
      obtain ⟨rfl, rfl⟩ := List.cons.inj hcs
      exact .fraction (by simp) (hdigits hps)

/-- Whether a numeral that something follows is the longest is a matter of the next character. -/
theorem isLongest_append_cons_iff {p rest : List Char} {c : Char} :
    IsLongest p (p ++ c :: rest) ↔ IsNumeral p ∧ ¬IsNumeral (p ++ [c]) := by
  constructor
  · rintro ⟨hp, -, hlongest⟩
    refine ⟨hp, fun h => ?_⟩
    have hle := hlongest _ h ⟨rest, by simp⟩
    rw [List.length_append, List.length_singleton] at hle
    omega
  · rintro ⟨hp, hstop⟩
    refine ⟨hp, List.prefix_append p _, fun q hq hstarts => ?_⟩
    -- a longer numeral would go on with the next character
    by_cases hle : q.length ≤ p.length
    · exact hle
    · obtain ⟨tail, rfl⟩ := List.prefix_of_prefix_length_le (List.prefix_append p _) hstarts
        (by omega)
      cases tail with
      | nil => simp at hle
      | cons d tail =>
          obtain ⟨rfl, -⟩ := List.cons_prefix_cons.mp ((List.prefix_append_right_inj p).mp hstarts)
          exact absurd (hp.of_append_cons hq) hstop

/-- The longest numeral stays the longest if what follows it still begins with the same character.
-/
theorem IsLongest.of_head {p rest rest' : List Char} (h : IsLongest p (p ++ rest))
    (hne : rest ≠ []) (hhead : rest.head? = rest'.head?) : IsLongest p (p ++ rest') := by
  obtain ⟨c, rest, rfl⟩ := List.exists_cons_of_ne_nil hne
  obtain ⟨rest', rfl⟩ := List.head?_eq_some_iff.mp hhead.symm
  exact isLongest_append_cons_iff.mpr (isLongest_append_cons_iff.mp h)

/-! ## Splitting -/

/-- The numerals are split off the text one after another, the longest each time, and no numeral is
left at the start of the rest. -/
inductive Splits : List Char → List (List Char) → List Char → Prop
  | rest {cs : List Char} : NoNumeral cs → Splits cs [] cs
  | numeral {p cs rest : List Char} {ps : List (List Char)} : IsLongest p (p ++ cs) →
      Splits cs ps rest → Splits (p ++ cs) (p :: ps) rest

/-- The text is split between `l` and `r`: numerals are split off that make up `l`, and something
follows. -/
inductive SplitsAt : List Char → List Char → Prop
  | numeral {p r : List Char} : IsLongest p (p ++ r) → r ≠ [] → SplitsAt p r
  | numerals {p l r : List Char} : IsLongest p (p ++ (l ++ r)) → SplitsAt l r → SplitsAt (p ++ l) r

/-- Where numerals are split off one after another, the text is split between any two of them. -/
theorem Splits.splitsAt {r rest : List Char} {ps qs : List (List Char)} (hps : ps ≠ [])
    (hr : r ≠ []) (h : Splits (ps.flatten ++ r) (ps ++ qs) rest) : SplitsAt ps.flatten r := by
  induction ps with
  | nil => exact absurd rfl hps
  | cons p ps ih =>
      rw [List.flatten_cons, List.append_assoc] at h
      -- the text is named first, so that the relation can be taken apart at its head
      generalize hcs : p ++ (ps.flatten ++ r) = cs at h
      cases h with
      | numeral hp h =>
      cases List.append_cancel_left hcs
      cases ps with
      | nil =>
        rw [List.flatten_cons, List.flatten_nil, List.append_nil]
        exact .numeral hp hr
      | cons q ps => exact .numerals hp (ih (List.cons_ne_nil q ps) h)

namespace SplitsAt

variable {l r : List Char}

theorem ne_nil (h : SplitsAt l r) : l ≠ [] ∧ r ≠ [] := by
  induction h with
  | numeral hp hr => exact ⟨hp.isNumeral.ne_nil, hr⟩
  | numerals _ _ ih => exact ⟨List.append_ne_nil_of_right_ne_nil _ ih.1, ih.2⟩

/-- The numerals before the split stay the same whatever comes after the next character. -/
theorem of_head {r' : List Char} (h : SplitsAt l r) (hhead : r.head? = r'.head?) :
    SplitsAt l r' := by
  induction h with
  | numeral hp hr =>
      refine .numeral (hp.of_head hr hhead) fun hnil => hr ?_
      rwa [hnil, List.head?_nil, List.head?_eq_none_iff] at hhead
  | @numerals p l r hp hl ih =>
      have hne := List.append_ne_nil_of_right_ne_nil l hl.ne_nil.2
      refine .numerals (hp.of_head hne ?_) (ih hhead)
      rw [List.head?_append, List.head?_append, hhead]

end SplitsAt

end SymbolicCalculus.Decimal
