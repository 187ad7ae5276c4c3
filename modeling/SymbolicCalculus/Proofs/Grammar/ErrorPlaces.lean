import Mathlib
import SymbolicCalculus.Proofs.Grammar.Tracing
import SymbolicCalculus.Scalar.Binary64

/-!
# Parse errors point at the source

An error points at a block of visible glyphs. In the source such a block is a text that begins and
ends with visible characters, and the span of the block is where that text starts and ends
(`exists_text_of_visible`). White space inside of it does not hide what the error is about
(`ParseError.SeenIn.of_visible`).
-/

namespace SymbolicCalculus

/-! ## Texts and their visible characters -/

/-- The text begins and ends with characters that are no white space. -/
def Text.IsTrimmed (cs : List Char) : Prop :=
  (∃ c ∈ cs.head?, Text.isWhiteSpace c = false) ∧ ∃ c ∈ cs.getLast?, Text.isWhiteSpace c = false

namespace Text

/-- The characters that are no white space. -/
abbrev visible (cs : List Char) : List Char := cs.filter fun c => !isWhiteSpace c

theorem isWhiteSpace_of_visible_eq_nil {cs : List Char} (h : visible cs = []) :
    ∀ c ∈ cs, isWhiteSpace c = true := by
  simpa using List.filter_eq_nil_iff.mp h

namespace IsTrimmed

variable {c c' : Char} {cs rest : List Char}

theorem visible_eq_cons (h : IsTrimmed (c :: rest)) : visible (c :: rest) = c :: visible rest := by
  obtain ⟨c, hc, hvisible⟩ := h.1
  cases hc
  rw [visible, List.filter_cons_of_pos (by simpa using hvisible)]

/-- Nothing invisible stands at the end of a trimmed text. -/
theorem eq_nil_of_visible (front : List Char) (h : IsTrimmed (front ++ rest))
    (hrest : visible rest = []) : rest = [] := by
  rcases List.eq_nil_or_concat rest with rfl | ⟨rest, c, rfl⟩
  · rfl
  · obtain ⟨c', hc', hvisible⟩ := h.2
    simp only [List.concat_eq_append, ← List.append_assoc, List.getLast?_concat] at hc'
    cases hc'
    rw [isWhiteSpace_of_visible_eq_nil hrest c (by simp)] at hvisible
    cases hvisible

/-- A text with one visible character, which it begins and ends with. -/
theorem eq_singleton (h : IsTrimmed cs) (hcs : visible cs = [c]) : cs = [c] := by
  cases cs with
  | nil => cases hcs
  | cons c' rest =>
      rw [h.visible_eq_cons] at hcs
      obtain ⟨rfl, hrest⟩ := List.cons.inj hcs
      rw [eq_nil_of_visible [c'] h hrest]

/-- A text with two visible characters. What is between them is white space. -/
theorem exists_blanks (h : IsTrimmed cs) (hcs : visible cs = [c, c']) :
    ∃ blanks, cs = c :: blanks ++ [c'] ∧ ∀ b ∈ blanks, isWhiteSpace b = true := by
  cases cs with
  | nil => cases hcs
  | cons c₁ rest =>
      rw [h.visible_eq_cons] at hcs
      obtain ⟨rfl, hrest⟩ := List.cons.inj hcs
      obtain ⟨blanks, more, rfl, hblanks, -, hmore⟩ := List.filter_eq_cons_iff.mp hrest
      obtain rfl := eq_nil_of_visible (c₁ :: blanks ++ [c']) (by simpa using h) hmore
      exact ⟨blanks, rfl, by simpa using hblanks⟩

end IsTrimmed

end Text

/-- Among visible characters there are no blanks. -/
theorem Text.eq_nil_of_blanks {cs blanks back : List Char} (front : List Char)
    (h : visible cs = front ++ blanks ++ back) (hblanks : ∀ b ∈ blanks, isWhiteSpace b = true) :
    blanks = [] := by
  refine List.eq_nil_iff_forall_not_mem.mpr fun b hb => ?_
  have hmem : b ∈ visible cs := by simp [h, hb]
  simp [hblanks b hb] at hmem

/-- What is seen in the visible characters of a text is seen in the text. -/
theorem ParseError.SeenIn.of_visible {cause : ParseError} {cs : List Char} (h : Text.IsTrimmed cs)
    (hseen : cause.SeenIn (Text.visible cs)) : cause.SeenIn cs := by
  -- one case for each cause: those that show one character or two are seen at the ends of the text
  cases cause with
  | emptyInput | invalidSyntax => exact hseen
  | expressionTooDeep max => trivial
  | unclosedParenthesis opening => exact h.eq_singleton hseen
  | nestingTooDeep max => exact h.eq_singleton hseen
  | missingOperand leading =>
      obtain ⟨o, op, hcs, hop⟩ := hseen
      exact ⟨o, op, h.eq_singleton hcs, hop⟩
  | invalidToken token =>
      refine hseen.trans ?_
      rw [List.filter_filter]
      simp
  | emptyParenthesis =>
      obtain ⟨blanks, hcs, hblanks⟩ := hseen
      obtain rfl := Text.eq_nil_of_blanks ['('] hcs hblanks
      exact h.exists_blanks hcs
  | adjacentOperators =>
      obtain ⟨o, op, blanks, o', op', hcs, hop, hop', hblanks⟩ := hseen
      obtain rfl := Text.eq_nil_of_blanks [o] hcs hblanks
      obtain ⟨blanks, hcs, hblanks⟩ := h.exists_blanks hcs
      exact ⟨o, op, blanks, o', op', hcs, hop, hop', hblanks⟩

/-! ## Places in the source -/

namespace Glyph

/-- The glyphs of a text are those of its parts, the second moved behind the first. -/
theorem ofChars_append (n : Nat) (a b : List Char) :
    ofChars n (a ++ b) = ofChars n a ++ ofChars (n + String.utf8Len a) b := by
  induction a generalizing n with
  | nil => simp [ofChars]
  | cons c a ih => simp [ofChars, ih, Nat.add_assoc, Nat.add_comm c.utf8Size]

theorem length_ofChars (n : Nat) (cs : List Char) : (ofChars n cs).length = cs.length := by
  rw [← List.length_map char, map_char_ofChars]

/-- A text reaches as far as it is long. -/
theorem cover_ofChars (n : Nat) {cs : List Char} (hne : cs ≠ []) :
    cover (ofChars n cs) = ⟨n, n + String.utf8Len cs⟩ := by
  obtain ⟨front, c, rfl⟩ : ∃ front c, cs = front ++ [c] :=
    ⟨_, _, (List.dropLast_append_getLast hne).symm⟩
  -- the last glyph starts behind the bytes of all characters before it
  have hlast : (ofChars n (front ++ [c])).getLast? = some ⟨c, n + String.utf8Len front⟩ := by
    rw [ofChars_append]
    simp [ofChars]
  cases front with
  | nil => simp [ofChars, cover, Span.through, span]
  | cons c₁ front =>
      rw [cover, hlast]
      simp only [ofChars, List.cons_append, List.head?_cons, Span.through, span, String.utf8Len_cons,
        String.utf8Len_append, Span.mk.injEq, true_and, String.utf8Len_nil]
      omega

/-- Two parts of the glyphs of a text are the glyphs of two parts of that text. -/
theorem eq_ofChars_of_append {n : Nat} {cs : List Char} {front back : List Glyph}
    (h : ofChars n cs = front ++ back) : front = ofChars n (front.map char) ∧
      back = ofChars (n + String.utf8Len (front.map char)) (back.map char) := by
  have hchars := congrArg (List.map char) h
  rw [map_char_ofChars, List.map_append] at hchars
  rw [hchars, ofChars_append] at h
  obtain ⟨hfront, hback⟩ := List.append_inj h (by simp [length_ofChars])
  exact ⟨hfront.symm, hback.symm⟩

/-- A block of the glyphs of a text is a part of that text. -/
theorem exists_text_of_infix {n : Nat} {cs : List Char} {block : List Glyph}
    (h : block <:+: ofChars n cs) :
    ∃ a t b, cs = a ++ t ++ b ∧ block = ofChars (n + String.utf8Len a) t := by
  obtain ⟨front, back, hblock⟩ := h
  obtain ⟨hfront, -⟩ := eq_ofChars_of_append hblock.symm
  refine ⟨front.map char, block.map char, back.map char, ?_, (eq_ofChars_of_append hfront.symm).2⟩
  rw [← List.map_append, ← List.map_append, hblock, map_char_ofChars]

/-- What is kept of a list can be cut out of it without what is dropped at its ends. -/
theorem exists_ends_of_filter {p : Glyph → Bool} {gs : List Glyph} (h : gs.filter p ≠ []) :
    ∃ mid, mid <:+: gs ∧ mid.filter p = gs.filter p ∧ mid.head? = (gs.filter p).head? ∧
      mid.getLast? = (gs.filter p).getLast? := by
  obtain ⟨first, kept, hkept⟩ := List.exists_cons_of_ne_nil h
  obtain ⟨front, rest, rfl, hfront, hfirst, -⟩ := List.filter_eq_cons_iff.mp hkept
  have hfront' : front.filter p = [] := List.filter_eq_nil_iff.mpr hfront
  rw [List.filter_append, hfront', List.nil_append] at h ⊢
  -- the last glyph that is kept is the first one from behind
  obtain ⟨last, kept', hkept'⟩ : ∃ last kept', (first :: rest).reverse.filter p = last :: kept' := by
    rw [List.filter_reverse]
    exact List.exists_cons_of_ne_nil (mt List.reverse_eq_nil_iff.mp h)
  obtain ⟨back, mid, hsplit, hback, -, -⟩ := List.filter_eq_cons_iff.mp hkept'
  have hback' : back.reverse.filter p = [] := by
    simpa [List.filter_eq_nil_iff] using hback
  have hwhole : first :: rest = (mid.reverse ++ [last]) ++ back.reverse := by
    rw [← List.reverse_reverse (first :: rest), hsplit]
    simp
  refine ⟨mid.reverse ++ [last], ⟨front, back.reverse, ?_⟩, ?_, ?_, ?_⟩
  · rw [List.append_assoc, ← hwhole]
  · rw [hwhole, List.filter_append _ back.reverse, hback', List.append_nil]
  · have hhead := congrArg List.head? hwhole
    rw [List.head?_append_of_ne_nil _ (by simp)] at hhead
    rw [← hhead, List.filter_cons_of_pos hfirst]
    rfl
  · rw [List.filter_reverse, List.reverse_eq_iff] at hkept'
    rw [hkept']
    simp

/-- Where glyphs reach depends on the first and the last of them only. -/
theorem cover_congr {gs hs : List Glyph} (hhead : gs.head? = hs.head?)
    (hlast : gs.getLast? = hs.getLast?) : cover gs = cover hs := by
  rw [cover, cover, hhead, hlast]

/-- A block of what is kept of a list is what is kept of a block of the list. -/
theorem exists_infix_of_filter {p : Glyph → Bool} {gs block : List Glyph} (hne : block ≠ [])
    (h : block <:+: gs.filter p) : ∃ mid, mid <:+: gs ∧ mid.filter p = block ∧
      mid.head? = block.head? ∧ mid.getLast? = block.getLast? := by
  obtain ⟨front, back, hblock⟩ := h
  obtain ⟨rest, after, rfl, hrest, -⟩ := List.filter_eq_append_iff.mp hblock.symm
  obtain ⟨before, mid, rfl, -, rfl⟩ := List.filter_eq_append_iff.mp hrest
  obtain ⟨inner, hinner, hends⟩ := exists_ends_of_filter hne
  exact ⟨inner, hinner.trans ⟨before, after, rfl⟩, hends⟩

/-- A block of visible glyphs is what is visible in a text that begins and ends with visible
characters. -/
theorem exists_text_of_visible {source : String} {block : List Glyph} (hne : block ≠ [])
    (h : block <:+: visible source) :
    ∃ before text after : String, source = before ++ text ++ after ∧
      cover block = ⟨before.utf8ByteSize, (before ++ text).utf8ByteSize⟩ ∧
      Text.IsTrimmed text.toList ∧ block.map char = Text.visible text.toList := by
  have hvisible : ∀ g ∈ block, Text.isWhiteSpace g.char = false := fun g hg => by
    simpa using (List.mem_filter.mp (h.subset hg)).2
  obtain ⟨mid, hmid, rfl, hhead, hlast⟩ := exists_infix_of_filter hne h
  obtain ⟨a, t, b, hsource, rfl⟩ := exists_text_of_infix hmid
  rw [Nat.zero_add] at hne hvisible hhead hlast ⊢
  have hchars : (ofChars (String.utf8Len a) t).map char = t := map_char_ofChars _ t
  have ht : t ≠ [] := by
    rintro rfl
    exact hne rfl
  refine ⟨String.ofList a, String.ofList t, String.ofList b, ?_, ?_, ?_, ?_⟩
  · rw [← String.ofList_append, ← String.ofList_append, ← hsource, String.ofList_toList]
  · rw [← cover_congr hhead hlast, cover_ofChars _ ht, String.utf8ByteSize_append,
      String.utf8ByteSize_ofList, String.utf8ByteSize_ofList]
  · rw [String.toList_ofList, ← hchars, Text.IsTrimmed, List.head?_map, List.getLast?_map, hhead,
      hlast]
    rw [List.head?_eq_some_head hne, List.getLast?_eq_some_getLast hne]
    exact ⟨⟨_, rfl, hvisible _ (List.head_mem hne)⟩, _, rfl, hvisible _ (List.getLast_mem hne)⟩
  · rw [String.toList_ofList, Text.visible, ← hchars, List.filter_map, hchars]
    rfl

end Glyph

/-! ## Errors -/

variable {K : Type} [Scalar K] [Literal K]

/-- **Parse errors point at the source.** A source is refused for being empty, which is said about
no place, or the error has one span, in which its cause is to be seen. The span is not empty and
lies in the source. It starts and ends between characters of the source, and the first and the last
character in it are no white space. No source is refused as invalid syntax. -/
theorem parse_error_placed {limits : ParseLimits} {source : String} {err : Located ParseError}
    (h : parse (K := K) limits source = .error err) :
    err = .nowhere .emptyInput ∨
    ∃ before text after : String, source = before ++ text ++ after ∧
      err.spans = [⟨before.utf8ByteSize, (before ++ text).utf8ByteSize⟩] ∧
      before.utf8ByteSize < (before ++ text).utf8ByteSize ∧
      (before ++ text).utf8ByteSize ≤ source.utf8ByteSize ∧
      Text.IsTrimmed text.toList ∧ err.cause.SeenIn text.toList := by
  have hoperand : parseOperand (K := K) limits source = .error err := by
    rcases bind_eq_error_iff.mp h with herr | ⟨x, -, hx⟩
    · exact herr
    · cases hx
  rcases traced_parseOperand (K := K) limits source with ⟨-, hempty⟩ | htraced
  · rw [hempty] at hoperand
    cases hoperand
    exact Or.inl rfl
  · obtain ⟨block, hne, hblock, hspans, hseen⟩ := htraced.pointsInto_of_error hoperand
    obtain ⟨before, text, after, rfl, hcover, htrimmed, hchars⟩ :=
      Glyph.exists_text_of_visible hne hblock
    -- a trimmed text has a first character, so it is not empty
    have hpos : 0 < text.utf8ByteSize := by
      refine Nat.pos_of_ne_zero fun hzero => ?_
      obtain ⟨c, hc, -⟩ := htrimmed.1
      rw [String.utf8ByteSize_eq_zero_iff.mp hzero] at hc
      cases hc
    refine Or.inr ⟨before, text, after, rfl, by rw [hspans, hcover], ?_, ?_, htrimmed, ?_⟩
    · rw [String.utf8ByteSize_append]
      omega
    · rw [String.utf8ByteSize_append (s := before ++ text)]
      omega
    · exact .of_visible htrimmed (hchars ▸ hseen)

/-- After the numeral of `3 é b` stand two letters with a blank between them, which are no name. -/
theorem parse_error_placed_token :
    parse (K := Float) {} "3 é b" = .error ⟨.invalidToken "éb", [⟨2, 6⟩]⟩ ∧
      ∃ before text after : String, "3 é b" = before ++ text ++ after ∧
        [(⟨2, 6⟩ : Span)] = [⟨before.utf8ByteSize, (before ++ text).utf8ByteSize⟩] ∧
        Text.IsTrimmed text.toList ∧ (ParseError.invalidToken "éb").SeenIn text.toList := by
  -- the source is refused alike with any numbers, so the double need not be computed here
  have h (L : Type) [Scalar L] [Literal L] :
      parse (K := L) {} "3 é b" = .error ⟨.invalidToken "éb", [⟨2, 6⟩]⟩ := by
    cbv
  obtain hempty | ⟨before, text, after, hsource, hspans, -, -, htrimmed, hseen⟩ :=
    parse_error_placed (h Float)
  · cases hempty
  · exact ⟨h Float, before, text, after, hsource, hspans, htrimmed, hseen⟩

end SymbolicCalculus
