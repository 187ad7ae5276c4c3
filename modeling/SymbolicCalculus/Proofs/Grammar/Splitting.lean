import SymbolicCalculus.Proofs.Decimal.Longest
import SymbolicCalculus.Proofs.Grammar.Links

/-!
# Splitting numerals off

A run of raw text becomes a product of the numerals that are split off its front and of its rest
(`exists_pieces`). A run that is split between two parts becomes what the one part becomes, a
multiplication, and what the other part becomes (`ofText_splitsAt`).
-/

namespace SymbolicCalculus.Fragment

open Decimal (IsLongest NoNumeral Splits SplitsAt)

variable {K : Type} [Literal K]

/-- The fragments are the numbers of the numerals and the rest as raw text, if there is one. After
each number that something follows stands a multiplication with an empty span. -/
inductive Pieces : List (List Glyph) → List Glyph → List (Fragment K) → Prop
  | nothing : Pieces [] [] []
  | rest {text : List Glyph} : text ≠ [] → Pieces [] text [raw text]
  | last {numeral : List Glyph} {digits places : Nat} :
      Decimal.read? (numeral.map Glyph.char) = some (digits, places) →
      Pieces [numeral] []
        [operand (.atom (.number (Literal.ofDecimal digits places)) (Glyph.cover numeral))]
  | number {numeral text : List Glyph} {numerals : List (List Glyph)} {digits places : Nat}
      {fs : List (Fragment K)} :
      Decimal.read? (numeral.map Glyph.char) = some (digits, places) → fs ≠ [] →
      Pieces numerals text fs →
      Pieces (numeral :: numerals) text
        (operand (.atom (.number (Literal.ofDecimal digits places)) (Glyph.cover numeral)) ::
          operator .mul (Glyph.cover numeral).after :: fs)

/-- A text that is not empty has pieces. -/
theorem Pieces.ne_nil {numerals : List (List Glyph)} {text : List Glyph} {fs : List (Fragment K)}
    (h : Pieces numerals text fs) (hne : numerals.flatten ++ text ≠ []) : fs ≠ [] := by
  cases h with
  | nothing => exact absurd rfl hne
  | _ => exact List.cons_ne_nil _ _

/-! ## One numeral -/

theorem ofText_rest {text : List Glyph} (hne : text ≠ [])
    (h : NoNumeral (text.map Glyph.char)) : ofText text = .ok [(raw text : Fragment K)] := by
  obtain ⟨g, gs, rfl⟩ := List.exists_cons_of_ne_nil hne
  rw [ofText, Decimal.noNumeral_iff.mp h]

/-- The longest numeral is split off, and a multiplication is put after it. -/
theorem ofText_numeral_append {numeral rest : List Glyph} {digits places : Nat}
    (h : IsLongest (numeral.map Glyph.char) (numeral.map Glyph.char ++ rest.map Glyph.char))
    (hread : Decimal.read? (numeral.map Glyph.char) = some (digits, places)) (hne : rest ≠ []) :
    ofText (numeral ++ rest) = (ofText rest).map fun fs =>
      (operand (.atom (.number (Literal.ofDecimal digits places)) (Glyph.cover numeral)) ::
        operator .mul (Glyph.cover numeral).after :: fs : List (Fragment K)) := by
  have hnumeral : ofNumeral numeral = .ok (operand (.atom (.number
      (Literal.ofDecimal digits places)) (Glyph.cover numeral)) : Fragment K) := by
    rw [ofNumeral, hread]
  -- the numeral stops before the rest, so the text is cut right there
  have hlength : Decimal.numeralLength ((numeral ++ rest).map Glyph.char) = numeral.length := by
    have htake := congrArg List.length (Decimal.isLongest_iff.mp h).2
    have hpos := List.length_pos_iff.mpr hne
    simp only [List.length_take, List.length_append, List.length_map] at htake
    rw [List.map_append]
    omega
  obtain ⟨g, gs, rfl⟩ : ∃ g gs, numeral = g :: gs :=
    List.exists_cons_of_ne_nil (by simpa using h.isNumeral.ne_nil)
  rw [List.cons_append, List.length_cons] at hlength
  rw [List.cons_append, ofText, hlength]
  simp only [List.take_left, List.drop_left, hnumeral, List.isEmpty_iff, if_neg hne]
  cases ofText (K := K) rest <;> rfl

/-! ## Pieces -/

/-- Of a run of raw text the longest numerals are split off one after another. Together with the
rest, which does not begin with a numeral, they are the whole run. -/
theorem exists_pieces (text : List Glyph) :
    ∃ (numerals : List (List Glyph)) (rest : List Glyph) (fs : List (Fragment K)),
      text = numerals.flatten ++ rest ∧
      Splits (text.map Glyph.char) (numerals.map (List.map Glyph.char)) (rest.map Glyph.char) ∧
      Pieces numerals rest fs ∧ ofText text = .ok fs := by
  induction text using ofText.induct with
  | case1 =>
      have hnone : NoNumeral [] := Decimal.noNumeral_iff.mpr rfl
      exact ⟨[], [], [], rfl, .rest hnone, .nothing, by rw [ofText]⟩
  | case2 g gs hlength =>
      have hnone := Decimal.noNumeral_iff.mpr hlength
      have hne : g :: gs ≠ [] := List.cons_ne_nil g gs
      exact ⟨[], g :: gs, _, rfl, .rest hnone, .rest hne, ofText_rest hne hnone⟩
  -- a numeral of `n + 1` glyphs is split off, and the rest is split by induction
  | case3 g gs n hlength ih =>
      obtain ⟨numerals, rest, fs, htext, hsplits, hpieces, hfs⟩ := ih
      have hlongest : IsLongest ((g :: gs.take n).map Glyph.char) ((g :: gs).map Glyph.char) := by
        refine Decimal.isLongest_iff.mpr ⟨hlength ▸ Nat.succ_ne_zero n, ?_⟩
        rw [hlength, ← List.map_take, List.take_succ_cons]
      have hrun : g :: gs = (g :: gs.take n) ++ gs.drop n := by simp
      generalize g :: gs.take n = numeral at hlongest hrun
      generalize gs.drop n = text at *
      rw [hrun, List.map_append] at hlongest ⊢
      obtain ⟨⟨digits, places⟩, hread⟩ := Decimal.isNumeral_iff.mp hlongest.isNumeral
      refine ⟨numeral :: numerals, rest, ?_⟩
      by_cases hne : text = []
      · subst hne
        rw [ofText] at hfs
        cases hfs
        cases hpieces
        refine ⟨_, by simp, .numeral hlongest hsplits, .last hread, ?_⟩
        rw [List.append_nil]
        exact ofText_numeral hread
      · have hfs₀ : fs ≠ [] := hpieces.ne_nil (htext ▸ hne)
        refine ⟨_, by simp [htext], .numeral hlongest hsplits, .number hread hfs₀ hpieces, ?_⟩
        rw [ofText_numeral_append hlongest hread hne, hfs]
        rfl

/-- Splitting numerals off never fails. -/
theorem exists_readNumerals (fs : List (Fragment K)) : ∃ fs', readNumerals fs = .ok fs' := by
  induction fs with
  | nil => exact ⟨[], rfl⟩
  | cons f fs ih =>
      obtain ⟨rest, hrest⟩ := ih
      have hkeep (f : Fragment K) :
          (readNumerals fs >>= fun rest => .ok (f :: rest)) = .ok (f :: rest) := by
        rw [hrest]
        rfl
      cases f with
      | raw text =>
          obtain ⟨-, -, split, -, -, -, hsplit⟩ := exists_pieces (K := K) text
          refine ⟨split ++ rest, ?_⟩
          rw [readNumerals, hsplit, hrest]
          rfl
      | operator op span => exact ⟨_, hkeep (operator op span)⟩
      | group x => exact ⟨_, hkeep (group x)⟩
      | operand x => exact ⟨_, hkeep (operand x)⟩

/-- Numerals are split off in any list of fragments, each run on its own. -/
theorem readNumerals_raw {text : List Glyph} {fs : List (Fragment K)} (h : ofText text = .ok fs)
    (before after : List (Fragment K)) :
    ∃ before' after', readNumerals before = .ok before' ∧ readNumerals after = .ok after' ∧
      readNumerals (before ++ raw text :: after) = .ok (before' ++ fs ++ after') := by
  obtain ⟨before', hbefore⟩ := exists_readNumerals before
  obtain ⟨after', hafter⟩ := exists_readNumerals after
  have hraw : readNumerals (raw text :: after) = .ok (fs ++ after') :=
    bind_eq_ok_iff.2 ⟨fs, h, bind_eq_ok_iff.2 ⟨after', hafter, rfl⟩⟩
  refine ⟨before', after', hbefore, hafter, ?_⟩
  rw [List.append_assoc]
  exact readNumerals_append hbefore hraw

/-! ## Splits -/

/-- A run that is split between two parts is read as a product of them. -/
theorem ofText_splitsAt {l r : List Glyph} (h : SplitsAt (l.map Glyph.char) (r.map Glyph.char)) :
    ∃ (u v : List (Fragment K)) (span : Span), ofText l = .ok u ∧ ofText r = .ok v ∧
      ofText (l ++ r) = .ok (u ++ operator .mul span :: v) := by
  obtain ⟨-, -, v, -, -, -, hv⟩ := exists_pieces (K := K) r
  have hr : r ≠ [] := by simpa using h.ne_nil.2
  generalize hl : l.map Glyph.char = cs at h
  generalize hrest : r.map Glyph.char = ds at h
  -- on the numerals that lie before the split point
  induction h generalizing l with
  | numeral hlongest =>
      subst hl hrest
      obtain ⟨⟨digits, places⟩, hread⟩ := Decimal.isNumeral_iff.mp hlongest.isNumeral
      refine ⟨_, v, (Glyph.cover l).after, ofText_numeral hread, hv, ?_⟩
      rw [ofText_numeral_append hlongest hread hr, hv]
      rfl
  | numerals hlongest hsplit ih =>
      obtain ⟨numeral, l, rfl, rfl, rfl⟩ := List.map_eq_append_iff.mp hl
      subst hrest
      obtain ⟨u, v, span, hu, hv, huv⟩ := ih rfl rfl
      obtain ⟨⟨digits, places⟩, hread⟩ := Decimal.isNumeral_iff.mp hlongest.isNumeral
      have hl : l ≠ [] := by simpa using hsplit.ne_nil.1
      -- the numeral is the longest one also with the rest of the left part only
      have hfirst : IsLongest (numeral.map Glyph.char)
          (numeral.map Glyph.char ++ l.map Glyph.char) := by
        refine hlongest.of_head (by simp [hl]) ?_
        cases l with
        | nil => exact absurd rfl hl
        | cons => rfl
      rw [← List.map_append] at hlongest
      refine ⟨_, v, span, (ofText_numeral_append hfirst hread hl).trans (by rw [hu]; rfl), hv, ?_⟩
      rw [List.append_assoc, ofText_numeral_append hlongest hread (by simp [hl]), huv]
      rfl

end SymbolicCalculus.Fragment
