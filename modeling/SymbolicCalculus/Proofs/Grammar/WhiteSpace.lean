import Mathlib
import SymbolicCalculus.Grammar.Parse
import SymbolicCalculus.Proofs.Grammar.Relocation
import SymbolicCalculus.Scalar.Binary64

/-!
# White space means nothing

Two sources that show the same characters besides white space consist of the same glyphs in two
places. So they are read alike: as the same expression, or with the same error at corresponding
places (`parse_whiteSpace`).
-/

namespace SymbolicCalculus

variable {K : Type} {R : Glyph → Glyph → Prop}

/-! ## Visible glyphs -/

/-- The glyphs of a source that are no white space. -/
def Glyph.visible (source : String) : List Glyph :=
  (Glyph.ofSource source).filter fun g => !Text.isWhiteSpace g.char

theorem Glyph.isWhiteSpace_of_mem_visible {source : String} {g : Glyph}
    (h : g ∈ Glyph.visible source) : Text.isWhiteSpace g.char = false := by
  simpa using (List.mem_filter.mp h).2

/-- The visible glyphs show the characters of the source that are no white space. -/
theorem Glyph.map_char_visible (source : String) : (Glyph.visible source).map Glyph.char =
    source.toList.filter fun c => !Text.isWhiteSpace c := by
  have hchars : (Glyph.ofSource source).map Glyph.char = source.toList :=
    Glyph.map_char_ofChars 0 source.toList
  rw [← hchars, List.filter_map]
  rfl

namespace Token

/-- A token of one glyph is white space if and only if its character is. -/
theorem isWhiteSpace_single (g : Glyph) :
    (single g).isWhiteSpace = Text.isWhiteSpace g.char := by
  show (TokenKind.ofChar g.char == .whiteSpace) = _
  generalize g.char = c
  unfold TokenKind.ofChar
  split
  any_goals decide
  cases h : Text.isWhiteSpace c <;> rfl

/-- A visible glyph is no token of white space. -/
theorem kind_single_ne_whiteSpace {g : Glyph} (h : Text.isWhiteSpace g.char = false) :
    (single g).kind ≠ .whiteSpace := by
  intro hkind
  have hspace := isWhiteSpace_single g
  rw [h, isWhiteSpace, hkind] at hspace
  cases hspace

/-- What holds of tokens of one glyph, and still holds when a glyph joins a run of its kind, holds
of all tokens. -/
theorem forall_mem_ofGlyphs {P : Token → Prop} (hsingle : ∀ g, P (single g))
    (hjoin : ∀ g t, t.kind.isRun = true → TokenKind.ofChar g.char = t.kind → P t →
      P ⟨t.kind, g :: t.glyphs⟩) (gs : List Glyph) : ∀ t ∈ ofGlyphs gs, P t := by
  -- on the glyphs: each one starts a token or joins the one after it
  induction gs with
  | nil => exact List.forall_mem_nil P
  | cons g gs ih =>
      show ∀ t ∈ push g (ofGlyphs gs), P t
      cases hts : ofGlyphs gs with
      | nil => exact List.forall_mem_singleton.mpr (hsingle g)
      | cons t ts =>
          rw [hts] at ih
          obtain ⟨ht, hrest⟩ := List.forall_mem_cons.mp ih
          rw [push]
          split
          · next h =>
            obtain ⟨hrun, hkind⟩ := Bool.and_eq_true_iff.mp h
            have hkind := eq_of_beq hkind
            rw [hkind] at hrun ⊢
            exact List.forall_mem_cons.mpr ⟨hjoin g t hrun hkind ht, hrest⟩
          · exact List.forall_mem_cons.mpr ⟨hsingle g, ih⟩

/-- A token is not empty, and its characters are of its kind. -/
theorem kind_of_mem_ofGlyphs {gs : List Glyph} {t : Token} (h : t ∈ ofGlyphs gs) :
    t.glyphs ≠ [] ∧ ∀ g ∈ t.glyphs, TokenKind.ofChar g.char = t.kind := by
  refine forall_mem_ofGlyphs
    (P := fun t => t.glyphs ≠ [] ∧ ∀ g ∈ t.glyphs, TokenKind.ofChar g.char = t.kind)
    (fun g => ?_) (fun g t _ hkind ht => ?_) gs t h
  · exact ⟨List.cons_ne_nil g [], List.forall_mem_singleton.mpr rfl⟩
  · exact ⟨List.cons_ne_nil _ _, List.forall_mem_cons.mpr ⟨hkind, ht.2⟩⟩

/-- Nothing is left of a source without its white space if and only if no glyph of it is visible. -/
theorem significant_eq_nil_iff {source : String} :
    significant source = [] ↔ Glyph.visible source = [] := by
  have hglyphs : (tokenize source).flatMap glyphs = Glyph.ofSource source :=
    flatMap_glyphs_ofGlyphs _
  have hkind {t : Token} (ht : t ∈ tokenize source) {g : Glyph} (hg : g ∈ t.glyphs) :
      t.isWhiteSpace = Text.isWhiteSpace g.char := by
    rw [← isWhiteSpace_single, isWhiteSpace, ← (kind_of_mem_ofGlyphs ht).2 g hg]
    rfl
  rw [significant, Glyph.visible, List.filter_eq_nil_iff, List.filter_eq_nil_iff, ← hglyphs]
  refine ⟨fun h g hg => ?_, fun h t ht => ?_⟩
  · obtain ⟨t, ht, hg⟩ := List.mem_flatMap.mp hg
    exact hkind ht hg ▸ h t ht
  · obtain ⟨g, hg⟩ := List.exists_mem_of_ne_nil _ (kind_of_mem_ofGlyphs ht).1
    exact hkind ht hg ▸ h g (List.mem_flatMap.mpr ⟨t, ht, hg⟩)

/-- A source in which something is visible has a first and a last token. -/
theorem exists_ends_of_visible {source : String} (h : Glyph.visible source ≠ []) :
    ∃ first last, (significant source).head? = some first ∧
      (significant source).getLast? = some last := by
  have hne : significant source ≠ [] := mt significant_eq_nil_iff.mp h
  exact ⟨_, _, List.head?_eq_some_head hne, List.getLast?_eq_some_getLast hne⟩

end Token

/-! ## Grouping -/

namespace Segment

/-- White space adds nothing to the segments of a source. -/
theorem ofTokens_visible (n : Nat) (source : String) : ofTokens n (Token.significant source) =
    collect n [] [] ((Glyph.visible source).map Token.single) := by
  rw [ofTokens_significant, ← collect_filter, List.filter_map, Glyph.visible]
  refine congrArg (fun gs : List Glyph => collect n [] [] (gs.map Token.single)) ?_
  refine List.filter_congr fun g _ => ?_
  exact congrArg (!·) (Token.isWhiteSpace_single g)

/-- Where something was read, or is yet to be read, there are segments in the end. -/
theorem ne_nil_of_collect {n : Nat} {groups : List OpenGroup} {segments ss : List Segment}
    {gs : List Glyph} (hne : groups ≠ [] ∨ segments ≠ [] ∨
      ∃ g ∈ gs, Text.isWhiteSpace g.char = false)
    (h : collect n groups segments (gs.map Token.single) = .ok ss) : ss ≠ [] := by
  -- one of the three sources of segments is kept by each step
  induction gs generalizing groups segments with
  | nil =>
      cases groups with
      | cons => cases h
      | nil =>
          cases h
          simpa using hne
  | cons g gs ih =>
      rw [List.map_cons, collect_cons] at h
      cases hkind : (Token.single g).kind with
      | whiteSpace =>
          rw [hkind] at h
          refine ih (hne.imp_right (Or.imp_right ?_)) h
          rintro ⟨g', hg', hvisible⟩
          rcases List.mem_cons.mp hg' with rfl | hg'
          · exact absurd hkind (Token.kind_single_ne_whiteSpace hvisible)
          · exact ⟨g', hg', hvisible⟩
      | raw =>
          rw [hkind] at h
          exact ih (Or.inr (Or.inl (pushRaw_ne_nil _ _))) h
      | operator op =>
          rw [hkind] at h
          exact ih (Or.inr (Or.inl (List.cons_ne_nil _ _))) h
      | openParen =>
          simp only [hkind] at h
          split at h
          · cases h
          · exact ih (Or.inl (List.cons_ne_nil _ _)) h
      | closeParen =>
          simp only [hkind] at h
          split at h
          · cases h
          · split at h
            · cases h
            · exact ih (Or.inr (Or.inl (List.cons_ne_nil _ _))) h

/-- A source in which something is visible has segments. -/
theorem ne_nil_of_ofTokens {n : Nat} {source : String} {ss : List Segment}
    (hne : Glyph.visible source ≠ []) (h : ofTokens n (Token.significant source) = .ok ss) :
    ss ≠ [] := by
  obtain ⟨g, hg⟩ := List.exists_mem_of_ne_nil _ hne
  rw [ofTokens_visible] at h
  exact ne_nil_of_collect (Or.inr (Or.inr ⟨g, hg, Glyph.isWhiteSpace_of_mem_visible hg⟩)) h

/-- Sources with corresponding visible glyphs are grouped alike. -/
theorem agrees_ofTokens (n : Nat) {s s' : String}
    (h : Glyph.TextsMoved R (Glyph.visible s) (Glyph.visible s')) :
    Agrees R (List.Forall₂ (Segment.Moved R)) (ofTokens n (Token.significant s))
      (ofTokens n (Token.significant s')) := by
  rw [ofTokens_visible, ofTokens_visible]
  exact agrees_collect h .nil .nil

end Segment

/-! ## Sources -/

variable [Scalar K] [Literal K]

/-- A source in which something is visible is read as the operand of its segments. -/
theorem exists_parseOperand_eq (limits : ParseLimits) {source : String}
    (h : Glyph.visible source ≠ []) : ∃ span, parseOperand (K := K) limits source =
      Segment.ofTokens limits.nesting (Token.significant source) >>=
        Segment.toOperand limits.depth span := by
  obtain ⟨first, last, hfirst, hlast⟩ := Token.exists_ends_of_visible h
  refine ⟨first.span.through last.span, ?_⟩
  rw [parseOperand, hfirst, hlast]

/-- Sources with corresponding visible glyphs are read alike, up to the places. -/
theorem agrees_parseOperand (limits : ParseLimits) {s s' : String}
    (h : Glyph.TextsMoved R (Glyph.visible s) (Glyph.visible s')) :
    Agrees R (Operand.Moved (K := K) R) (parseOperand limits s) (parseOperand limits s') := by
  by_cases hempty : Glyph.visible s = []
  · have hempty' : Glyph.visible s' = [] := List.forall₂_nil_left_iff.mp (hempty ▸ h)
    rw [parseOperand, parseOperand, Token.significant_eq_nil_iff.mpr hempty,
      Token.significant_eq_nil_iff.mpr hempty']
    exact .error .nil
  · have hempty' : Glyph.visible s' ≠ [] := fun h' =>
      hempty (List.forall₂_nil_right_iff.mp (h' ▸ h))
    obtain ⟨span, hs⟩ := exists_parseOperand_eq (K := K) limits hempty
    obtain ⟨span', hs'⟩ := exists_parseOperand_eq (K := K) limits hempty'
    rw [hs, hs']
    refine (Segment.agrees_ofTokens limits.nesting h).bind_of_eq fun ss ss' hss _ hmoved => ?_
    exact Segment.agrees_toOperand hmoved (Segment.ne_nil_of_ofTokens hempty hss) _ _

/-! ## Corresponding places -/

/-- The span begins with the `i`-th and ends with the `j`-th of the visible characters. -/
def Span.Covers (source : String) (i j : Nat) (a : Span) : Prop :=
  ∃ g h, (Glyph.visible source)[i]? = some g ∧ (Glyph.visible source)[j]? = some h ∧
    a = g.span.through h.span

/-- The spans begin and end with the same visible characters of two sources. -/
def Span.Corresponds (s s' : String) (a a' : Span) : Prop :=
  ∃ i j, a.Covers s i j ∧ a'.Covers s' i j

/-- The glyphs have the same number among the visible ones of two sources. -/
def Glyph.SameIndex (s s' : String) (g g' : Glyph) : Prop :=
  ∃ i : Nat, (visible s)[i]? = some g ∧ (visible s')[i]? = some g'

theorem Span.Moved.corresponds {s s' : String} {a a' : Span}
    (h : Span.Moved (Glyph.SameIndex s s') a a') : Span.Corresponds s s' a a' := by
  obtain ⟨⟨⟨i, hg, hg'⟩, -⟩, ⟨⟨j, hh, hh'⟩, -⟩⟩ := h
  exact ⟨i, j, ⟨_, _, hg, hh, rfl⟩, ⟨_, _, hg', hh', rfl⟩⟩

/-- Sources that show the same characters have visible glyphs that correspond by their numbers. -/
theorem Glyph.textsMoved_visible {s s' : String}
    (h : (s.toList.filter fun c => !Text.isWhiteSpace c) =
      s'.toList.filter fun c => !Text.isWhiteSpace c) :
    TextsMoved (SameIndex s s') (visible s) (visible s') := by
  rw [← map_char_visible, ← map_char_visible] at h
  have hlength : (visible s).length = (visible s').length := by
    simpa using congrArg List.length h
  refine List.forall₂_iff_get.mpr ⟨hlength, fun i hi hi' => ⟨⟨i, ?_, ?_⟩, ?_⟩⟩
  · exact List.getElem?_eq_getElem hi
  · exact List.getElem?_eq_getElem hi'
  · have hchar : ((visible s).map char)[i]? = ((visible s').map char)[i]? := by rw [h]
    simpa [List.getElem?_eq_getElem hi, List.getElem?_eq_getElem hi'] using hchar

/-- **White space means nothing.** If two sources show the same characters besides white space, then
under any limits they are read as the same expression, or they are refused for the same reason. The
places that are reported then correspond one by one: each begins and ends with the same visible
characters of the two sources. -/
theorem parse_whiteSpace (limits : ParseLimits) {s s' : String}
    (h : (s.toList.filter fun c => !Text.isWhiteSpace c) =
      s'.toList.filter fun c => !Text.isWhiteSpace c) :
    (∃ e : Expr K, parse limits s = .ok e ∧ parse limits s' = .ok e) ∨
    ∃ cause spans spans', parse (K := K) limits s = .error ⟨cause, spans⟩ ∧
      parse (K := K) limits s' = .error ⟨cause, spans'⟩ ∧
      List.Forall₂ (Span.Corresponds s s') spans spans' := by
  have hagree := agrees_parseOperand (K := K) limits (Glyph.textsMoved_visible h)
  unfold parse
  revert hagree
  generalize parseOperand (K := K) limits s = r
  generalize parseOperand (K := K) limits s' = r'
  intro hagree
  cases hagree with
  | @ok x x' hx => exact Or.inl ⟨x.expr.normalize, rfl, by rw [hx.expr_eq]; rfl⟩
  | error hspans =>
      exact Or.inr ⟨_, _, _, rfl, rfl, hspans.imp fun _ _ => Span.Moved.corresponds⟩

/-- Between `+` and `*` an ideographic space of three bytes and two blanks make no difference. -/
theorem parse_whiteSpace_operators :
    let s := "(a + \u3000 * b)"
    let s' := "(a+*b)"
    ((s.toList.filter fun c => !Text.isWhiteSpace c) =
      s'.toList.filter fun c => !Text.isWhiteSpace c) ∧
    parse (K := Float) {} s = .error ⟨.adjacentOperators, [⟨3, 10⟩]⟩ ∧
    parse (K := Float) {} s' = .error ⟨.adjacentOperators, [⟨2, 4⟩]⟩ ∧
    Span.Corresponds s s' ⟨3, 10⟩ ⟨2, 4⟩ := by
  intro s s'
  have hs : parse (K := Float) {} s = .error ⟨.adjacentOperators, [⟨3, 10⟩]⟩ := by
    cbv
  have hs' : parse (K := Float) {} s' = .error ⟨.adjacentOperators, [⟨2, 4⟩]⟩ := by
    cbv
  have hvisible : (s.toList.filter fun c => !Text.isWhiteSpace c) =
      s'.toList.filter fun c => !Text.isWhiteSpace c := by decide +kernel
  refine ⟨hvisible, hs, hs', ?_⟩
  obtain ⟨e, he, -⟩ | ⟨cause, spans, spans', herr, herr', hspans⟩ :=
    parse_whiteSpace (K := Float) {} hvisible
  · rw [hs] at he
    cases he
  · rw [hs] at herr
    rw [hs'] at herr'
    cases herr
    cases herr'
    cases hspans with
    | cons hspan _ => exact hspan

end SymbolicCalculus
