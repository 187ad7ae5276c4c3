import Mathlib
import SymbolicCalculus.Proofs.Grammar.ErrorPlaces

/-!
# Tokens tile the source

`TokenKind.Matches` says which texts may be tokens of a kind: one operator, one parenthesis, or a
run of white space or of other characters that is not empty. The tokens of a source are such texts,
one after the other from its start to its end. Each is the longest text that any kind matches at its
place, so two runs of a kind never stand next to each other.
-/

namespace SymbolicCalculus

/-! ## The texts of a kind -/

/-- The character that an operator is written with. -/
def Operator.symbol : Operator → Char
  | add => '+'
  | sub => '-'
  | mul => '*'
  | div => '/'
  | pow => '^'

namespace TokenKind

/-- The character may occur in tokens of the kind. -/
def HasChar : TokenKind → Char → Prop
  | whiteSpace, c => Text.isWhiteSpace c = true
  | operator op, c => c = op.symbol
  | openParen, c => c = '('
  | closeParen, c => c = ')'
  | raw, c => Text.isWhiteSpace c = false ∧ c ≠ '(' ∧ c ≠ ')' ∧ ∀ op : Operator, c ≠ op.symbol

/-- The text may be a token of the kind. -/
def Matches (kind : TokenKind) (cs : List Char) : Prop :=
  match kind with
  | whiteSpace | raw => cs ≠ [] ∧ ∀ c ∈ cs, kind.HasChar c
  | operator _ | openParen | closeParen => ∃ c, cs = [c] ∧ kind.HasChar c

/-- A character may occur in tokens of its own kind. -/
theorem hasChar_ofChar (c : Char) : (ofChar c).HasChar c := by
  unfold ofChar
  -- the last case is the one in which none of the seven special characters matched
  split
  case h_8 hadd hsub hmul hdiv hpow hopen hclose =>
    split
    · next hspace => exact hspace
    · next hspace =>
      refine ⟨Bool.eq_false_iff.mpr hspace, hopen, hclose, fun op => ?_⟩
      cases op
      · exact hadd
      · exact hsub
      · exact hmul
      · exact hdiv
      · exact hpow
  all_goals rfl

/-- A character that may occur in tokens of a kind is of that kind. -/
theorem HasChar.ofChar_eq {kind : TokenKind} {c : Char} (h : kind.HasChar c) :
    ofChar c = kind := by
  cases kind with
  | operator op =>
      cases h
      cases op <;> rfl
  | openParen | closeParen =>
      cases h
      rfl
  | whiteSpace =>
      have h : Text.isWhiteSpace c = true := h
      unfold ofChar
      split
      -- no special character is white space
      case h_8 => exact if_pos h
      all_goals exact absurd h (by decide)
  | raw =>
      obtain ⟨hspace, hopen, hclose, hoperator⟩ := h
      unfold ofChar
      split
      case h_8 => exact if_neg (Bool.eq_false_iff.mp hspace)
      · exact absurd rfl (hoperator .add)
      · exact absurd rfl (hoperator .sub)
      · exact absurd rfl (hoperator .mul)
      · exact absurd rfl (hoperator .div)
      · exact absurd rfl (hoperator .pow)
      · exact absurd rfl hopen
      · exact absurd rfl hclose

/-- Each character occurs in tokens of one kind, which is the kind that it belongs to. -/
theorem ofChar_eq_iff {kind : TokenKind} {c : Char} : ofChar c = kind ↔ kind.HasChar c :=
  ⟨fun h => h ▸ hasChar_ofChar c, HasChar.ofChar_eq⟩

/-- What a kind matches is a text of characters of that kind that is not empty, and has one
character only unless the kind makes runs. -/
theorem matches_iff {kind : TokenKind} {cs : List Char} : kind.Matches cs ↔
    cs ≠ [] ∧ (∀ c ∈ cs, ofChar c = kind) ∧ (kind.isRun = false → cs.length = 1) := by
  simp only [ofChar_eq_iff]
  -- a text of a single character, as operators and parentheses have them
  have hsingle : (∃ c, cs = [c] ∧ kind.HasChar c) ↔
      cs ≠ [] ∧ (∀ c ∈ cs, kind.HasChar c) ∧ cs.length = 1 := by
    constructor
    · rintro ⟨c, rfl, hc⟩
      exact ⟨List.cons_ne_nil c [], List.forall_mem_singleton.mpr hc, rfl⟩
    · rintro ⟨-, hcs, hlength⟩
      obtain ⟨c, rfl⟩ := List.length_eq_one_iff.mp hlength
      exact ⟨c, rfl, List.forall_mem_singleton.mp hcs⟩
  cases kind with
  | whiteSpace | raw => simp [Matches, isRun]
  | operator | openParen | closeParen => simpa [Matches, isRun] using hsingle

end TokenKind

/-! ## Neighbouring tokens -/

namespace Token

/-- The characters of the token. -/
abbrev chars (t : Token) : List Char := t.glyphs.map Glyph.char

theorem toList_lexeme (t : Token) : t.lexeme.toList = t.chars := String.toList_ofList

/-- A token is a text that its kind matches. -/
theorem matches_of_mem_ofGlyphs {gs : List Glyph} {t : Token} (h : t ∈ ofGlyphs gs) :
    t.kind.Matches t.chars := by
  refine forall_mem_ofGlyphs (P := fun t => t.kind.Matches t.chars) (fun g => ?_)
    (fun g t hrun hkind ht => ?_) gs t h
  · exact TokenKind.matches_iff.mpr
      ⟨List.cons_ne_nil _ _, List.forall_mem_singleton.mpr rfl, fun _ => rfl⟩
  · obtain ⟨-, hchars, -⟩ := TokenKind.matches_iff.mp ht
    refine TokenKind.matches_iff.mpr
      ⟨List.cons_ne_nil _ _, List.forall_mem_cons.mpr ⟨hkind, hchars⟩, fun hnot => ?_⟩
    rw [hrun] at hnot
    cases hnot

/-- Neighbouring tokens of the same kind are no runs. -/
theorem isChain_ofGlyphs (gs : List Glyph) :
    (ofGlyphs gs).IsChain fun t t' => t.kind = t'.kind → t.kind.isRun = false := by
  induction gs with
  | nil => exact .nil
  | cons g gs ih =>
      show (push g (ofGlyphs gs)).IsChain _
      cases hts : ofGlyphs gs with
      | nil => exact .singleton _
      | cons t ts =>
          rw [hts] at ih
          rw [push]
          split
          · next hjoin =>
            -- the token that the glyph joins keeps its kind
            have hkind := eq_of_beq (Bool.and_eq_true_iff.mp hjoin).2
            rw [hkind]
            cases ih with
            | singleton => exact .singleton _
            | cons_cons hhead htail => exact .cons_cons hhead htail
          · next hjoin =>
            refine .cons_cons (fun hkind => ?_) ih
            have hkind : TokenKind.ofChar g.char = t.kind := hkind
            rw [hkind, beq_self_eq_true, Bool.and_true, Bool.not_eq_true] at hjoin
            rw [hkind]
            exact hjoin

/-- A text that a kind matches at the place of a token is of the same kind and no longer. -/
theorem longest_of_ofGlyphs {gs : List Glyph} {front back : List Token} {t : Token}
    (h : ofGlyphs gs = front ++ t :: back) {kind : TokenKind} {cs : List Char}
    (hmatches : kind.Matches cs) (hcs : cs <+: t.chars ++ back.flatMap chars) :
    kind = t.kind ∧ cs.length ≤ t.chars.length := by
  have hmem {t' : Token} (ht' : t' ∈ t :: back) : t' ∈ ofGlyphs gs := by
    rw [h]
    exact List.mem_append_right front ht'
  obtain ⟨hne, hkind, hsingle⟩ := TokenKind.matches_iff.mp hmatches
  obtain ⟨htne, htkind, -⟩ := TokenKind.matches_iff.mp
    (matches_of_mem_ofGlyphs (hmem List.mem_cons_self))
  obtain ⟨rest, hrest⟩ := hcs
  -- both texts begin with the same character
  have hsame : kind = t.kind := by
    obtain ⟨c, cs, rfl⟩ := List.exists_cons_of_ne_nil hne
    obtain ⟨c', cs', ht⟩ := List.exists_cons_of_ne_nil htne
    rw [ht] at htkind hrest
    obtain ⟨rfl, -⟩ := List.cons.inj hrest
    exact (hkind c List.mem_cons_self).symm.trans (htkind c List.mem_cons_self)
  refine ⟨hsame, ?_⟩
  -- either the text stops within the token, or it goes on into what follows
  rcases List.append_eq_append_iff.mp hrest with ⟨m, hm, -⟩ | ⟨m, rfl, hback⟩
  · rw [hm, List.length_append]
    omega
  · match m, back with
    | [], _ => simp
    | c :: m, [] => cases hback
    | c :: m, t' :: back =>
      -- the text goes on into the next token, which is of its kind, so it is one character
      obtain ⟨ht'ne, ht'kind, -⟩ := TokenKind.matches_iff.mp
        (matches_of_mem_ofGlyphs (hmem (List.mem_cons_of_mem t List.mem_cons_self)))
      obtain ⟨c', cs', ht'⟩ := List.exists_cons_of_ne_nil ht'ne
      rw [List.flatMap_cons, ht'] at hback
      obtain ⟨rfl, -⟩ := List.cons.inj hback
      have hnext : t'.kind = kind :=
        (ht'kind c' (ht' ▸ List.mem_cons_self)).symm.trans (hkind c' (by simp))
      have hchain := isChain_ofGlyphs gs
      rw [h] at hchain
      have hrun := hchain.right_of_append.rel (hsame.symm.trans hnext.symm)
      rw [hsingle (hsame ▸ hrun)]
      exact List.length_pos_iff.mpr htne

end Token

/-! ## Places -/

/-- The spans lead from one offset to another, each starting where the one before it stops, and none
is empty. -/
def Span.Tile : (start : Nat) → List Span → (stop : Nat) → Prop
  | start, [], stop => start = stop
  | start, span :: spans, stop => span.start = start ∧ start < span.stop ∧ Tile span.stop spans stop

namespace Token

/-- A text that is not empty takes up bytes, so the span of a token is not empty. -/
theorem utf8Len_pos {cs : List Char} (hne : cs ≠ []) : 0 < String.utf8Len cs := by
  obtain ⟨c, cs, rfl⟩ := List.exists_cons_of_ne_nil hne
  rw [String.utf8Len_cons]
  have := c.utf8Size_pos
  omega

/-- Tokens that hold the glyphs of a text lead from its start to its end. -/
theorem tile_of_flatMap {ts : List Token} {n : Nat} {cs : List Char}
    (hne : ∀ t ∈ ts, t.glyphs ≠ []) (h : Glyph.ofChars n cs = ts.flatMap glyphs) :
    Span.Tile n (ts.map span) (n + String.utf8Len cs) := by
  induction ts generalizing n cs with
  | nil =>
      have hlength := congrArg List.length h
      rw [Glyph.length_ofChars] at hlength
      rw [List.length_eq_zero_iff.mp hlength]
      rfl
  | cons t ts ih =>
      obtain ⟨htne, hne⟩ := List.forall_mem_cons.mp hne
      rw [List.flatMap_cons] at h
      obtain ⟨ht, hts⟩ := Glyph.eq_ofChars_of_append h
      have hcs : cs = t.chars ++ (ts.flatMap glyphs).map Glyph.char := by
        rw [← List.map_append, ← h, Glyph.map_char_ofChars]
      have hchars : t.chars ≠ [] := mt List.map_eq_nil_iff.mp htne
      have hspan : t.span = ⟨n, n + String.utf8Len t.chars⟩ := by
        rw [span, ht]
        exact Glyph.cover_ofChars n hchars
      have hpos := utf8Len_pos hchars
      -- the span ends where the rest of the text begins, after the bytes of the token
      rw [List.map_cons, hspan, hcs, String.utf8Len_append, ← Nat.add_assoc]
      exact ⟨rfl, Nat.lt_add_of_pos_right hpos, ih hne hts.symm⟩

/-- No character of the source is lost or moved by the tokenizer. -/
theorem flatMap_chars_tokenize (source : String) :
    (tokenize source).flatMap chars = source.toList := by
  have hglyphs : (tokenize source).flatMap glyphs = Glyph.ofSource source :=
    flatMap_glyphs_ofGlyphs _
  rw [← List.map_flatMap, hglyphs]
  exact Glyph.map_char_ofChars 0 source.toList

/-- A token stands in the source where its span says, in front of the tokens that follow it. -/
theorem exists_place {source : String} {front back : List Token} {t : Token}
    (h : tokenize source = front ++ t :: back) :
    ∃ before after : String, source = before ++ t.lexeme ++ after ∧
      t.span = ⟨before.utf8ByteSize, (before ++ t.lexeme).utf8ByteSize⟩ ∧
      after.toList = back.flatMap chars := by
  have hchars := flatMap_chars_tokenize source
  have hglyphs : (tokenize source).flatMap glyphs = Glyph.ofChars 0 source.toList :=
    flatMap_glyphs_ofGlyphs _
  rw [h, List.flatMap_append, List.flatMap_cons] at hchars hglyphs
  -- what stands before and after the token is written by the tokens on both sides
  refine ⟨String.ofList (front.flatMap chars), String.ofList (back.flatMap chars), ?_, ?_,
    String.toList_ofList⟩
  · rw [lexeme, Glyph.text, ← String.ofList_append, ← String.ofList_append, List.append_assoc,
      hchars, String.ofList_toList]
  · obtain ⟨-, hrest⟩ := Glyph.eq_ofChars_of_append hglyphs.symm
    obtain ⟨ht, -⟩ := Glyph.eq_ofChars_of_append hrest.symm
    have hmem : t ∈ tokenize source := by simp [h]
    have hne : t.chars ≠ [] := mt List.map_eq_nil_iff.mp (kind_of_mem_ofGlyphs hmem).1
    rw [span, ht, Glyph.cover_ofChars _ hne, Nat.zero_add, List.map_flatMap, lexeme, Glyph.text,
      ← String.ofList_append, String.utf8ByteSize_ofList, String.utf8ByteSize_ofList,
      String.utf8Len_append]

/-- The characters of the significant tokens are those that are no white space. -/
theorem flatMap_chars_significant (source : String) :
    (significant source).flatMap chars = source.toList.filter fun c => !Text.isWhiteSpace c := by
  -- a token is all white space or has none in it
  have hkept : ∀ t ∈ tokenize source,
      (t.chars.filter fun c => !Text.isWhiteSpace c) = if t.isWhiteSpace then [] else t.chars := by
    intro t ht
    have hspace : ∀ c ∈ t.chars, Text.isWhiteSpace c = t.isWhiteSpace := by
      refine List.forall_mem_map.mpr fun g hg => ?_
      rw [← isWhiteSpace_single, isWhiteSpace, isWhiteSpace, ← (kind_of_mem_ofGlyphs ht).2 g hg]
      rfl
    split
    · next hblank =>
      exact List.filter_eq_nil_iff.mpr fun c hc => by simp [hspace c hc, hblank]
    · next hvisible =>
      exact List.filter_eq_self.mpr fun c hc => by simp [hspace c hc, hvisible]
  rw [← flatMap_chars_tokenize, significant]
  generalize tokenize source = ts at hkept
  induction ts with
  | nil => rfl
  | cons t ts ih =>
      obtain ⟨ht, hts⟩ := List.forall_mem_cons.mp hkept
      rw [List.flatMap_cons, List.filter_append, ht, ← ih hts, List.filter_cons]
      cases t.isWhiteSpace <;> rfl

end Token

/-! ## The main result -/

open Token in
/-- **Tokens tile the source.** The spans of the tokens lead from the start of the source to its end
without gap or overlap. Each token is the text of the source at its span, which is not empty; it is
matched by its kind, and no kind matches a longer text that begins there. Two tokens of white space
or two of raw text never follow one another. The significant tokens are those that are no white
space, and their lexemes together are the source without its white space. -/
theorem tokenize_tiles (source : String) :
    Span.Tile 0 ((tokenize source).map span) source.utf8ByteSize ∧
    (∀ t ∈ tokenize source, t.kind.Matches t.lexeme.toList ∧
      ∃ before after : String, source = before ++ t.lexeme ++ after ∧
        t.span = ⟨before.utf8ByteSize, (before ++ t.lexeme).utf8ByteSize⟩ ∧
        ∀ (kind : TokenKind) (cs : List Char), kind.Matches cs →
          cs <+: (t.lexeme ++ after).toList → kind = t.kind ∧ cs.length ≤ t.lexeme.length) ∧
    ((tokenize source).IsChain fun t t' => ¬(t.kind = .whiteSpace ∧ t'.kind = .whiteSpace) ∧
      ¬(t.kind = .raw ∧ t'.kind = .raw)) ∧
    significant source = (tokenize source).filter (fun t => t.kind != .whiteSpace) ∧
    (significant source).flatMap (fun t => t.lexeme.toList) =
      source.toList.filter fun c => !Text.isWhiteSpace c := by
  refine ⟨?_, fun t ht => ?_, ?_, rfl, ?_⟩
  · have htile : Span.Tile 0 ((tokenize source).map span) (0 + String.utf8Len source.toList) :=
      tile_of_flatMap (fun t ht => (kind_of_mem_ofGlyphs ht).1) (flatMap_glyphs_ofGlyphs _).symm
    rwa [Nat.zero_add, ← String.utf8ByteSize_ofList, String.ofList_toList] at htile
  · obtain ⟨front, back, hsplit⟩ := List.append_of_mem ht
    obtain ⟨before, after, hsource, hspan, hafter⟩ := exists_place hsplit
    rw [toList_lexeme]
    refine ⟨matches_of_mem_ofGlyphs ht, before, after, hsource, hspan,
      fun kind cs hmatches hcs => ?_⟩
    rw [String.toList_append, toList_lexeme, hafter] at hcs
    rw [← String.length_toList, toList_lexeme]
    exact longest_of_ofGlyphs hsplit hmatches hcs
  · refine (isChain_ofGlyphs _).imp fun t t' h => ?_
    have hnot {kind : TokenKind} (hrun : kind.isRun = true) :
        ¬(t.kind = kind ∧ t'.kind = kind) := by
      rintro ⟨rfl, hkind⟩
      rw [h hkind.symm] at hrun
      cases hrun
    exact ⟨hnot rfl, hnot rfl⟩
  · simp only [toList_lexeme]
    exact flatMap_chars_significant source

open Token in
/-- A blank and an ideographic space, after two characters that take three bytes together, are one
token of four bytes, and the blank alone is a shorter match at its place. -/
theorem tokenize_tiles_blanks :
    let source := "2é \u3000*"
    let blanks : Token := ⟨.whiteSpace, [⟨' ', 3⟩, ⟨'\u3000', 4⟩]⟩
    blanks ∈ tokenize source ∧ TokenKind.whiteSpace.Matches blanks.lexeme.toList ∧
      TokenKind.whiteSpace.Matches [' '] ∧
      ∃ before after : String, source = before ++ blanks.lexeme ++ after ∧
        blanks.span = ⟨before.utf8ByteSize, (before ++ blanks.lexeme).utf8ByteSize⟩ ∧
        [' '] <+: (blanks.lexeme ++ after).toList ∧ [' '].length ≤ blanks.lexeme.length := by
  intro source blanks
  have hmem : blanks ∈ tokenize source := by decide +kernel
  have hblank : TokenKind.whiteSpace.Matches [' '] :=
    ⟨List.cons_ne_nil _ _, List.forall_mem_singleton.mpr rfl⟩
  obtain ⟨hmatches, before, after, hsource, hspan, hlongest⟩ :=
    (tokenize_tiles source).2.1 blanks hmem
  have hprefix : [' '] <+: (blanks.lexeme ++ after).toList := by
    rw [String.toList_append, toList_lexeme]
    exact ⟨'\u3000' :: after.toList, rfl⟩
  exact ⟨hmem, hmatches, hblank, before, after, hsource, hspan, hprefix,
    (hlongest _ _ hblank hprefix).2⟩

end SymbolicCalculus
