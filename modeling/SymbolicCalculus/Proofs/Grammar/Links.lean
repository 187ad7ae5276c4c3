import SymbolicCalculus.Grammar.Fragment
import SymbolicCalculus.Proofs.Decimal.Numeral
import SymbolicCalculus.Proofs.Grammar.Depth
import SymbolicCalculus.Proofs.Grammar.Grouping

/-!
# From segments to chains

The steps that read raw text turn a list of segments into a chain. `Segment.toChain` is these steps
in one. An operator keeps what is on its sides apart, so the chain of two lists with an operator
between them is made of their chains (`toChain_operator`). What is left are lists without an
operator: a numeral, a name, a group, and a call.
-/

namespace SymbolicCalculus

variable {K : Type} {maxDepth : Nat}

/-! ## Characters of names and numerals -/

namespace TokenKind

/-- The characters of ASCII from the point on, but for two operators, are raw text. -/
theorem ofChar_eq_raw {c : Char} (hlow : 46 ≤ c.toNat) (hslash : c.toNat ≠ 47)
    (hcaret : c.toNat ≠ 94) (hhigh : c.toNat < 128) : ofChar c = .raw := by
  unfold ofChar
  split
  -- each operator is below the range or one of the two exceptions
  any_goals first
    | exact absurd hlow (by decide)
    | exact absurd rfl hslash
    | exact absurd rfl hcaret
  have hspace : Text.isWhiteSpace c = false := by
    simp [Text.isWhiteSpace, Text.whiteSpaceRanges]
    omega
  rw [hspace]
  rfl

/-- Digits are raw text. -/
theorem ofChar_of_isDigit {c : Char} (h : c.isDigit = true) : ofChar c = .raw := by
  simp only [Char.isDigit, Bool.and_eq_true, decide_eq_true_eq, ge_iff_le, UInt32.le_iff_toNat_le]
    at h
  obtain ⟨hlow, hhigh⟩ := h
  have hlow : 48 ≤ c.toNat := hlow
  have hhigh : c.toNat ≤ 57 := hhigh
  exact ofChar_eq_raw (by omega) (by omega) (by omega) (by omega)

/-- A character of a name is raw text, and no numeral begins with it. -/
theorem ofChar_of_isNameChar {c : Char} (h : isNameChar c = true) :
    ofChar c = .raw ∧ c.isDigit = false ∧ c ≠ '.' := by
  -- capital letters, small letters and the underscore
  have hrange : (65 ≤ c.toNat ∧ c.toNat ≤ 90) ∨ (97 ≤ c.toNat ∧ c.toNat ≤ 122) ∨
      c.toNat = 95 := by
    replace h : (decide (c.val ≥ 'A'.val ∧ c.val ≤ 'Z'.val) ||
      (decide (c.val ≥ 'a'.val) && decide (c.val ≤ 'z'.val)) || c == '_') = true := h
    simp only [Bool.or_eq_true, Bool.and_eq_true, decide_eq_true_eq, ge_iff_le,
      UInt32.le_iff_toNat_le, beq_iff_eq] at h
    rcases h with (h | h) | rfl
    · exact Or.inl h
    · exact Or.inr (Or.inl h)
    · exact Or.inr (Or.inr rfl)
  refine ⟨ofChar_eq_raw (by omega) (by omega) (by omega) (by omega), ?_, ?_⟩
  · have hdigit : ¬ c.toNat ≤ 57 := by omega
    simp only [Char.isDigit, Bool.and_eq_false_iff, decide_eq_false_iff_not, ge_iff_le,
      UInt32.le_iff_toNat_le]
    exact Or.inr hdigit
  · rintro rfl
    simp at hrange

end TokenKind

theorem isNameChar_of_isVariableName {name : String} (h : isVariableName name = true) :
    name.toList ≠ [] ∧ ∀ c ∈ name.toList, isNameChar c = true := by
  obtain ⟨hne, hall⟩ := Bool.and_eq_true_iff.mp h
  exact ⟨by simpa using hne, List.all_eq_true.mp hall⟩

theorem Fn.isVariableName_name (f : Fn) : isVariableName f.name = true := by
  cases f <;> decide

theorem Constant.isVariableName_name (c : Constant) : isVariableName c.name = true := by
  cases c <;> decide

namespace Segment

/-- A numeral is raw text. -/
theorem isRaw_numeral {gs : List Glyph} {r : Nat × Nat}
    (h : Decimal.read? (gs.map Glyph.char) = some r) : gs ≠ [] ∧ IsRaw gs := by
  refine ⟨by simpa using (Decimal.numeralLength_of_read? h).2, fun g hg => ?_⟩
  rcases Decimal.mem_numeral h g.char (List.mem_map_of_mem hg) with hdigit | hpoint
  · exact TokenKind.ofChar_of_isDigit hdigit
  · rw [hpoint]
    rfl

/-- A name is raw text. -/
theorem isRaw_name {gs : List Glyph} {name : String} (h : gs.map Glyph.char = name.toList)
    (hname : isVariableName name = true) : gs ≠ [] ∧ IsRaw gs := by
  obtain ⟨hne, hchars⟩ := isNameChar_of_isVariableName hname
  rw [← h] at hne hchars
  refine ⟨by simpa using hne, fun g hg => ?_⟩
  exact (TokenKind.ofChar_of_isNameChar (hchars g.char (List.mem_map_of_mem hg))).1

end Segment

/-! ## Reading raw text -/

namespace Fragment

/-- A text that is one numeral is split into that numeral alone. -/
theorem ofText_numeral [Literal K] {gs : List Glyph} {digits places : Nat}
    (h : Decimal.read? (gs.map Glyph.char) = some (digits, places)) :
    ofText gs = .ok [(operand (.atom (.number (Literal.ofDecimal digits places))
      (Glyph.cover gs)) : Fragment K)] := by
  obtain ⟨hlength, hne⟩ := Decimal.numeralLength_of_read? h
  have hnumeral : ofNumeral gs = .ok (operand (.atom (.number (Literal.ofDecimal digits places))
      (Glyph.cover gs)) : Fragment K) := by
    rw [ofNumeral, h]
  cases gs with
  | nil => exact absurd rfl hne
  | cons g gs =>
      rw [List.length_map, List.length_cons] at hlength
      rw [ofText, hlength]
      simp only [List.take_length, List.drop_length, hnumeral, ofText, List.isEmpty_nil, if_true]
      rfl

/-- No numeral is split off a name. -/
theorem ofText_name [Literal K] {gs : List Glyph} {name : String}
    (h : gs.map Glyph.char = name.toList) (hname : isVariableName name = true) :
    ofText gs = .ok [(raw gs : Fragment K)] := by
  obtain ⟨hne, hchars⟩ := isNameChar_of_isVariableName hname
  rw [← h] at hne hchars
  cases gs with
  | nil => exact absurd rfl hne
  | cons g gs =>
      obtain ⟨-, hdigit, hpoint⟩ :=
        TokenKind.ofChar_of_isNameChar (hchars g.char (by simp))
      have hlength : Decimal.numeralLength ((g :: gs).map Glyph.char) = 0 := by
        simp [Decimal.numeralLength, Decimal.digitsLength, hdigit, hpoint]
      rw [ofText, hlength]

/-- Numerals are split off each part of a list on its own. -/
theorem readNumerals_append [Literal K] {fs gs fs' gs' : List (Fragment K)}
    (hfs : readNumerals fs = .ok fs') (hgs : readNumerals gs = .ok gs') :
    readNumerals (fs ++ gs) = .ok (fs' ++ gs') := by
  induction fs generalizing fs' with
  | nil =>
      cases hfs
      exact hgs
  | cons f fs ih =>
      -- only raw text is taken apart, and every other fragment stays
      cases f with
      | raw text =>
          obtain ⟨split, hsplit, h⟩ := bind_eq_ok_iff.1 hfs
          obtain ⟨rest, hrest, h⟩ := bind_eq_ok_iff.1 h
          cases h
          rw [List.append_assoc]
          exact bind_eq_ok_iff.2 ⟨split, hsplit, bind_eq_ok_iff.2 ⟨_, ih hrest, rfl⟩⟩
      | _ =>
          obtain ⟨rest, hrest, h⟩ := bind_eq_ok_iff.1 hfs
          cases h
          exact bind_eq_ok_iff.2 ⟨_, ih hrest, rfl⟩

/-- No numeral is split off a name, whatever comes after it. -/
theorem readNumerals_name [Literal K] {gs : List Glyph} {name : String} {fs : List (Fragment K)}
    (h : gs.map Glyph.char = name.toList) (hname : isVariableName name = true)
    (hfs : readNumerals fs = .ok fs) :
    readNumerals (raw gs :: fs) = .ok (raw gs :: fs) :=
  bind_eq_ok_iff.2 ⟨[raw gs], ofText_name h hname, bind_eq_ok_iff.2 ⟨fs, hfs, rfl⟩⟩

/-- A call is the text of a name and a group, which have no operator between them. -/
theorem readCalls_operator {op : Operator} {span : Span} {fs gs fs' gs' : List (Fragment K)}
    (hfs : readCalls maxDepth fs = .ok fs') (hgs : readCalls maxDepth gs = .ok gs') :
    readCalls maxDepth (fs ++ operator op span :: gs) = .ok (fs' ++ operator op span :: gs') := by
  fun_induction readCalls maxDepth fs generalizing fs' with
  | case1 =>
      cases hfs
      exact bind_eq_ok_iff.2 ⟨gs', hgs, rfl⟩
  | case2 text x fragments f hf ih =>
      obtain ⟨call, hcall, h⟩ := bind_eq_ok_iff.1 hfs
      obtain ⟨rest, hrest, h⟩ := bind_eq_ok_iff.1 h
      cases h
      simp only [List.cons_append, readCalls, hf]
      exact bind_eq_ok_iff.2 ⟨call, hcall, bind_eq_ok_iff.2 ⟨_, ih hrest, rfl⟩⟩
  | case3 text x fragments hf ih =>
      obtain ⟨rest, hrest, h⟩ := bind_eq_ok_iff.1 hfs
      cases h
      simp only [List.cons_append, readCalls, hf]
      exact bind_eq_ok_iff.2 ⟨_, ih hrest, rfl⟩
  | case4 fragment fragments hno ih =>
      obtain ⟨rest, hrest, h⟩ := bind_eq_ok_iff.1 hfs
      cases h
      rw [List.cons_append, readCalls]
      · exact bind_eq_ok_iff.2 ⟨_, ih hrest, rfl⟩
      -- what is appended begins with an operator, so no call comes about where the lists meet
      · intro text x rest' hraw happend
        cases fragments with
        | nil => cases happend
        | cons f fragments =>
            obtain ⟨rfl, -⟩ := List.cons.inj happend
            exact hno text x fragments hraw rfl

end Fragment

/-! ## Lists of segments -/

namespace Segment

section

variable [Scalar K] [Literal K]

/-- The chain of a list of segments. -/
def toChain (maxDepth : Nat) (segments : List Segment) :
    Except (Located ParseError) (Chain K) := do
  let fragments ← toFragments maxDepth segments
  let fragments ← Fragment.readNumerals fragments
  let fragments ← Fragment.readCalls maxDepth fragments
  fragments.mapM Fragment.toLink

theorem toOperand_eq (span : Span) (segments : List Segment) :
    toOperand (K := K) maxDepth span segments =
      toChain maxDepth segments >>= Chain.toOperand maxDepth span := by
  simp only [toOperand, Fragment.toOperand, toChain, bind_assoc]

/-- What the steps make of a list of segments one after another. -/
theorem toChain_eq_ok_iff {ss : List Segment} {c : Chain K} :
    toChain maxDepth ss = .ok c ↔ ∃ fs fs' fs'', toFragments maxDepth ss = .ok fs ∧
      Fragment.readNumerals fs = .ok fs' ∧ Fragment.readCalls maxDepth fs' = .ok fs'' ∧
      fs''.mapM Fragment.toLink = .ok c := by
  simp only [toChain, bind_eq_ok_iff]
  grind

/-- Segments are read one after another. -/
theorem toFragments_append {ss tt : List Segment} {fs gs : List (Fragment K)}
    (hss : toFragments maxDepth ss = .ok fs) (htt : toFragments maxDepth tt = .ok gs) :
    toFragments maxDepth (ss ++ tt) = .ok (fs ++ gs) := by
  induction ss generalizing fs with
  | nil =>
      rw [toFragments] at hss
      cases hss
      exact htt
  | cons s ss ih =>
      rw [toFragments] at hss
      obtain ⟨f, hf, h⟩ := bind_eq_ok_iff.1 hss
      obtain ⟨rest, hrest, h⟩ := bind_eq_ok_iff.1 h
      cases h
      rw [List.cons_append, toFragments]
      exact bind_eq_ok_iff.2 ⟨f, hf, bind_eq_ok_iff.2 ⟨_, ih hrest, rfl⟩⟩

/-- The chain of two lists of segments with an operator between them. -/
theorem toChain_operator {op : Operator} {span : Span} {ss tt : List Segment} {c d : Chain K}
    (hss : toChain maxDepth ss = .ok c) (htt : toChain maxDepth tt = .ok d) :
    toChain maxDepth (ss ++ operator op span :: tt) = .ok (c ++ .operator op span :: d) := by
  obtain ⟨fs, fs', fs'', hfs, hfs', hfs'', hc⟩ := toChain_eq_ok_iff.1 hss
  obtain ⟨gs, gs', gs'', hgs, hgs', hgs'', hd⟩ := toChain_eq_ok_iff.1 htt
  have hgs₀ : toFragments maxDepth (operator op span :: tt) =
      .ok (Fragment.operator op span :: gs) := by
    rw [toFragments]
    exact bind_eq_ok_iff.2 ⟨.operator op span, by rw [toFragment],
      bind_eq_ok_iff.2 ⟨gs, hgs, rfl⟩⟩
  have hgs₁ : Fragment.readNumerals (Fragment.operator op span :: gs) =
      .ok (.operator op span :: gs') := bind_eq_ok_iff.2 ⟨gs', hgs', rfl⟩
  have hlinks : (fs'' ++ Fragment.operator op span :: gs'').mapM Fragment.toLink =
      .ok (c ++ .operator op span :: d) := by
    rw [List.mapM_append, List.mapM_cons, hc, hd]
    rfl
  -- each of the four steps is done on both sides of the operator
  exact toChain_eq_ok_iff.2 ⟨_, _, _, toFragments_append hfs hgs₀,
    Fragment.readNumerals_append hfs' hgs₁, Fragment.readCalls_operator hfs'' hgs'', hlinks⟩

theorem toChain_nil : toChain (K := K) maxDepth [] = .ok [] := by
  rw [toChain, toFragments]
  rfl

/-! ## Lists without an operator -/

theorem toFragments_singleton {s : Segment} {f : Fragment K}
    (h : toFragment maxDepth s = .ok f) : toFragments maxDepth [s] = .ok [f] := by
  rw [toFragments, toFragments, h]
  rfl

/-- A numeral is one operand. -/
theorem toChain_numeral {gs : List Glyph} {digits places : Nat}
    (h : Decimal.read? (gs.map Glyph.char) = some (digits, places)) :
    toChain maxDepth [raw gs] =
      .ok [(.operand (.atom (.number (Literal.ofDecimal digits places)) (Glyph.cover gs)) :
        Link K)] := by
  have hnumerals : Fragment.readNumerals [Fragment.raw gs] =
      .ok [(.operand (.atom (.number (Literal.ofDecimal digits places)) (Glyph.cover gs)) :
        Fragment K)] :=
    bind_eq_ok_iff.2 ⟨_, Fragment.ofText_numeral h, rfl⟩
  exact toChain_eq_ok_iff.2 ⟨[.raw gs], _, _, toFragments_singleton (by rw [toFragment]),
    hnumerals, rfl, rfl⟩

/-- A name is one operand. -/
theorem toChain_name {gs : List Glyph} {name : String} {e : Expr K}
    (h : gs.map Glyph.char = name.toList) (hname : isVariableName name = true)
    (he : Fragment.nameExpr? name = some e) :
    toChain maxDepth [raw gs] = .ok [.operand (.atom e (Glyph.cover gs))] := by
  have hlink : Fragment.toLink (.raw gs) = .ok (.operand (.atom e (Glyph.cover gs))) := by
    have htext : Glyph.text gs = name := by rw [Glyph.text, h, String.ofList_toList]
    rw [Fragment.toLink, htext, he]
  refine toChain_eq_ok_iff.2 ⟨[.raw gs], [.raw gs], [.raw gs],
    toFragments_singleton (by rw [toFragment]), Fragment.readNumerals_name h hname rfl, rfl, ?_⟩
  rw [List.mapM_cons, hlink]
  rfl

/-- A group is read as the operand that its chain is resolved to. -/
theorem toFragment_group {ss : List Segment} {span : Span} {c : Chain K} {x : Operand K}
    (hss : toChain maxDepth ss = .ok c)
    (hx : Chain.toOperand maxDepth span.inner c = .ok x) :
    toFragment maxDepth (group ss span) = .ok (.group ⟨x.expr, span, x.depth⟩) := by
  have hoperand : toOperand maxDepth span.inner ss = .ok x := by
    rw [toOperand_eq, hss]
    exact hx
  obtain ⟨fs, hfs, hoperand⟩ := bind_eq_ok_iff.1 hoperand
  rw [toFragment]
  exact bind_eq_ok_iff.2 ⟨fs, hfs, bind_eq_ok_iff.2 ⟨x, hoperand, rfl⟩⟩

section

variable {s t : Segment} {x y : Operand K} (hs : toFragment maxDepth s = .ok (.group x))

include hs

theorem toChain_group : toChain maxDepth [s] = .ok [.operand x] :=
  toChain_eq_ok_iff.2 ⟨_, _, _, toFragments_singleton hs, rfl, rfl, rfl⟩

/-- Two groups with nothing between them are two operands. -/
theorem toChain_groups (ht : toFragment maxDepth t = .ok (.group y)) :
    toChain maxDepth [s, t] = .ok [.operand x, .operand y] :=
  toChain_eq_ok_iff.2 ⟨_, _, _,
    toFragments_append (toFragments_singleton hs) (toFragments_singleton ht), rfl, rfl, rfl⟩

/-- The name of a function and a group after it are a call. -/
theorem toChain_call {f : Fn} {gs : List Glyph} (h : gs.map Glyph.char = f.name.toList)
    (hdepth : x.depth + 1 ≤ maxDepth) : toChain maxDepth [raw gs, s] =
      .ok [.operand (x.below (.call f) ((Glyph.cover gs).through x.span))] := by
  have hraw : toFragments (K := K) maxDepth [raw gs] = .ok [.raw gs] :=
    toFragments_singleton (by rw [toFragment])
  have hcall : Fragment.readCalls maxDepth [.raw gs, .group x] =
      .ok [.operand (x.below (.call f) ((Glyph.cover gs).through x.span))] := by
    have htext : Glyph.text gs = f.name := by rw [Glyph.text, h, String.ofList_toList]
    simp only [Fragment.readCalls, htext, Fn.ofName?_name]
    exact bind_eq_ok_iff.2 ⟨_, Operand.limit_eq_ok_iff.2 ⟨hdepth, rfl⟩, rfl⟩
  exact toChain_eq_ok_iff.2 ⟨_, _, _, toFragments_append hraw (toFragments_singleton hs),
    Fragment.readNumerals_name h f.isVariableName_name rfl, hcall, rfl⟩

end

end

end Segment

/-! ## Chains that are read -/

/-- A chain with a reading is resolved to the tree of the reading, with no more levels than the
weight of the chain, if that many are allowed. -/
theorem Reads.exists_toOperand [Scalar K] {c : Chain K} {e : Expr K} (h : Reads true 4 c e)
    (hweight : Chain.weight c ≤ maxDepth) (span : Span) :
    ∃ x, Chain.toOperand maxDepth span c = .ok x ∧ x.expr.normalize = e.normalize ∧
      x.depth ≤ Chain.weight c := by
  obtain ⟨s, rfl, -, hfold⟩ := h.exists_foldsTo maxDepth
  obtain ⟨r, hr, hrow⟩ := Chain.Sentence.exists_row hweight
  obtain ⟨r', hr', hle⟩ := Row.exists_applyLevels 4 (Nat.le_trans hrow hweight)
  have hbind : s.row maxDepth >>= Row.applyLevels maxDepth 4 = .ok r' :=
    bind_eq_ok_iff.2 ⟨r, hr, hr'⟩
  obtain ⟨htail, he⟩ := hfold r' hbind
  -- the operand that is left has no more levels than the row weighs
  have hdepth : r'.head.depth ≤ Chain.weight s.chain :=
    Nat.le_trans (Nat.le_add_right _ _) (Nat.le_trans hle hrow)
  refine ⟨r'.head, ?_, he, hdepth⟩
  rw [Chain.toOperand_chain, hbind]
  show (if r'.tail.isEmpty then _ else _) = _
  rw [htail]
  rfl

end SymbolicCalculus
