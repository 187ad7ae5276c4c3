import Mathlib
import SymbolicCalculus.Proofs.Grammar.ErrorPlaces
import SymbolicCalculus.Proofs.Grammar.Splitting

/-!
# Products that are written out

Where a numeral is split off a run of raw text a multiplication is inserted. A source in which this
multiplication is written is read alike.

`Segment.Spelled` relates segments that are the same, except that a run of the one list may be two
runs in the other, with a multiplication between them where the run is split. More text after the
run does not move its splits, so the relation is kept by whatever is read next (`stable_spelled`).
Once numerals are split off there is nothing left of the difference but the place of a
multiplication between two operands (`Fragment.Spelled.agrees_readNumerals`).
-/

namespace SymbolicCalculus

variable {K : Type} {R : Glyph → Glyph → Prop}

/-! ## Fragments -/

/-- The fragments correspond, but for multiplications that are written in the second list only. -/
inductive Fragment.Spelled (R : Glyph → Glyph → Prop) :
    List (Fragment K) → List (Fragment K) → Prop
  | nil : Spelled R [] []
  | cons {f f' : Fragment K} {fs fs' : List (Fragment K)} : Written R f f' → Spelled R fs fs' →
      Spelled R (f :: fs) (f' :: fs')
  | product {l l' r r' : List Glyph} {a : Span} {fs fs' : List (Fragment K)} :
      Decimal.SplitsAt (l.map Glyph.char) (r.map Glyph.char) → Glyph.TextsMoved R l l' →
      Glyph.TextsMoved R r r' → Spelled R fs fs' →
      Spelled R (.raw (l ++ r) :: fs) (.raw l' :: .operator .mul a :: .raw r' :: fs')

namespace Fragment

/-- Once numerals are split off, the fragments are the same but for the place of a multiplication.
-/
theorem Spelled.agrees_readNumerals [Literal K] (before : Before) {fs fs' : List (Fragment K)}
    (h : Spelled R fs fs') (hstart : before = .start → fs ≠ []) (hinserted : before ≠ .inserted) :
    Agrees R (Fragment.Aligned R before) (readNumerals fs) (readNumerals fs') := by
  induction h generalizing before with
  | nil => exact .ok (.nil (fun h => hstart h rfl) hinserted)
  | cons hf _ ih =>
      exact agrees_readNumerals_cons before hf hinserted fun before hstart =>
        ih before fun h => absurd h hstart
  | @product l l' r r' a fs fs' hsplit hl hr _ ih =>
      have hl₀ : l ≠ [] := by simpa using hsplit.ne_nil.1
      have hr₀ : r ≠ [] := by simpa using hsplit.ne_nil.2
      obtain ⟨u, v, span, hu, hv, huv⟩ := ofText_splitsAt (K := K) hsplit
      obtain ⟨u', hu', huu'⟩ := (agrees_ofText hl₀ hl).exists_of_ok hu
      obtain ⟨v', hv', hvv'⟩ := (agrees_ofText hr₀ hr).exists_of_ok hv
      -- both parts are split on their own, and the multiplication between them is inserted or
      -- written
      have hrest := ih .operand (by simp) (by simp)
      simp only [readNumerals, huv, hu', hv', bind_assoc]
      refine hrest.bind fun gs gs' hgs => .ok ?_
      rw [List.append_assoc]
      exact huu' before _ _ (.inserted (hvv' .inserted _ _ hgs))

theorem Spelled.agrees_toOperand [Scalar K] [Literal K] {d : Nat} {fs fs' : List (Fragment K)}
    (h : Spelled R fs fs') (hne : fs ≠ []) (span span' : Span) :
    Agrees R (Operand.Moved R) (toOperand d span fs) (toOperand d span' fs') :=
  agrees_toOperand_of_readNumerals (h.agrees_readNumerals .start (fun _ => hne) (by simp)) _ _

end Fragment

/-! ## Segments -/

/-- The segments correspond, but for multiplications that are written in the second list only. Both
lists are given the nearest segment first. -/
inductive Segment.Spelled (R : Glyph → Glyph → Prop) : List Segment → List Segment → Prop
  | nil : Spelled R [] []
  | cons {s s' : Segment} {ss ss' : List Segment} : s.Moved R s' → Spelled R ss ss' →
      Spelled R (s :: ss) (s' :: ss')
  | group {inner inner' ss ss' : List Segment} {a b : Span} : inner ≠ [] →
      Spelled R inner inner' → Span.Moved R a b → Spelled R ss ss' →
      Spelled R (.group inner.reverse a :: ss) (.group inner'.reverse b :: ss')
  | product {l l' r r' : List Glyph} {a : Span} {ss ss' : List Segment} :
      Decimal.SplitsAt (l.map Glyph.char) (r.map Glyph.char) → Glyph.TextsMoved R l l' →
      Glyph.TextsMoved R r r' → Spelled R ss ss' →
      Spelled R (.raw (l ++ r) :: ss) (.raw r' :: .operator .mul a :: .raw l' :: ss')

namespace Segment

/-- Segments that correspond in all places are a case in which no multiplication is written. -/
theorem Spelled.of_moved {ss ss' : List Segment} (h : List.Forall₂ (Segment.Moved R) ss ss') :
    Spelled R ss ss' := by
  induction h with
  | nil => exact .nil
  | cons hs _ ih => exact .cons hs ih

/-! ### Grouping -/

/-- More raw text goes on after a split as it goes on elsewhere. -/
theorem Spelled.pushRaw {text text' : List Glyph} {ss ss' : List Segment} (hne : text ≠ [])
    (htext : Glyph.TextsMoved R text text') (h : Spelled R ss ss') :
    Spelled R (pushRaw text ss) (pushRaw text' ss') := by
  cases h with
  | nil => exact .cons (.raw hne htext) .nil
  | cons hs hss =>
      cases hs with
      | raw hne' hprevious =>
          exact .cons (.raw (List.append_ne_nil_of_left_ne_nil hne' _)
            (List.rel_append hprevious htext)) hss
      -- only raw text is joined, so elsewhere the text starts a segment
      | operator op hspan => exact .cons (.raw hne htext) (.cons (.operator op hspan) hss)
      | group hne' hinner hspan =>
          exact .cons (.raw hne htext) (.cons (.group hne' hinner hspan) hss)
  | group hne' hinner hspan hss =>
      exact .cons (.raw hne htext) (.group hne' hinner hspan hss)
  | @product l l' r r' a ss ss' hsplit hl hr hss =>
      -- the text goes on after the split
      have hmore : Decimal.SplitsAt (l.map Glyph.char) ((r ++ text).map Glyph.char) := by
        refine hsplit.of_head ?_
        rw [List.map_append, List.head?_append_of_ne_nil _ hsplit.ne_nil.2]
      show Spelled R (.raw (l ++ r ++ text) :: ss) _
      rw [List.append_assoc]
      exact .product hmore hl (List.rel_append hr htext) hss

/-- The relation is kept by whatever is read next. -/
theorem stable_spelled : Stable R (Spelled R) where
  nil := .nil
  pushRaw := Spelled.pushRaw
  operator hspan h := .cons (.operator _ hspan) h
  group hne hinner hspan h := .group hne hinner hspan h
  eq_nil_iff h := by cases h <;> simp

/-! ### Reading -/

variable [Scalar K] [Literal K] {d : Nat}

/-- The fragment of the first segment comes before those of the others. -/
theorem toFragments_cons {s : Segment} {f : Fragment K} (h : toFragment d s = .ok f)
    (ss : List Segment) :
    toFragments d (s :: ss) = toFragments d ss >>= fun fs => .ok (f :: fs) := by
  rw [toFragments, h]
  rfl

/-- The groups of segments that correspond are read alike, whatever comes after the segments. -/
theorem Spelled.agrees_toFragments {ss ss' : List Segment} (h : Spelled R ss ss')
    {tt tt' : List Segment} (htt : Agrees R (Fragment.Spelled (K := K) R) (toFragments d tt)
      (toFragments d tt')) :
    Agrees R (Fragment.Spelled (K := K) R) (toFragments d (ss.reverse ++ tt))
      (toFragments d (ss'.reverse ++ tt')) := by
  have hcons {s s' : Segment} {tt tt' : List Segment}
      (hs : Agrees R (Fragment.Written (K := K) R) (toFragment d s) (toFragment d s'))
      (htt : Agrees R (Fragment.Spelled (K := K) R) (toFragments d tt) (toFragments d tt')) :
      Agrees R (Fragment.Spelled (K := K) R) (toFragments d (s :: tt))
        (toFragments d (s' :: tt')) := by
    rw [toFragments, toFragments]
    exact hs.bind fun f f' hf => htt.bind fun fs fs' hfs => .ok (.cons hf hfs)
  -- the list is reversed, so the nearest segment joins what comes after
  induction h generalizing tt tt' with
  | nil => exact htt
  | cons hs _ ih =>
      rw [List.reverse_cons, List.reverse_cons, List.append_assoc, List.append_assoc]
      exact ih (hcons (agrees_toFragment hs) htt)
  | @group inner inner' ss ss' a b hne _ hspan _ ihinner ih =>
      rw [List.reverse_cons, List.reverse_cons, List.append_assoc, List.append_assoc]
      refine ih (hcons ?_ htt)
      have hnil : Agrees R (Fragment.Spelled (K := K) R) (toFragments d []) (toFragments d []) := by
        rw [toFragments]
        exact .ok .nil
      have hinner := ihinner hnil
      rw [List.append_nil, List.append_nil] at hinner
      rw [toFragment, toFragment]
      refine hinner.bind_of_eq fun fs fs' hfs _ h => ?_
      have hne : fs ≠ [] := ne_nil_of_toFragments (by simpa using hne) hfs
      refine (h.agrees_toOperand hne _ _).bind fun x y hx => ?_
      exact .ok (.item (.group ⟨hx.expr_eq, hx.depth_eq, hspan⟩))
  -- one raw segment on the one side, three segments on the other
  | product hsplit hl hr _ ih =>
      simp only [List.reverse_cons, List.append_assoc, List.cons_append, List.nil_append]
      refine ih ?_
      rw [toFragments_cons (by rw [toFragment]), toFragments_cons (by rw [toFragment]),
        toFragments_cons (by rw [toFragment]), toFragments_cons (by rw [toFragment]), bind_assoc,
        bind_assoc]
      exact htt.bind fun fs fs' hfs => .ok (.product hsplit hl hr hfs)

/-- Lists of segments in which a multiplication is written or not are read alike. -/
theorem Spelled.agrees_toOperand {ss ss' : List Segment} (h : Spelled R ss.reverse ss'.reverse)
    (hne : ss ≠ []) (span span' : Span) :
    Agrees R (Operand.Moved (K := K) R) (toOperand d span ss) (toOperand d span' ss') := by
  have hnil : Agrees R (Fragment.Spelled (K := K) R) (toFragments d []) (toFragments d []) := by
    rw [toFragments]
    exact .ok .nil
  have hfragments := h.agrees_toFragments hnil
  simp only [List.reverse_reverse, List.append_nil] at hfragments
  exact hfragments.bind_of_eq fun fs fs' hfs _ h =>
    h.agrees_toOperand (ne_nil_of_toFragments hne hfs) span span'

end Segment

/-! ## The text at a split -/

namespace Text

/-- The raw text that a source ends with, once white space is left out. -/
def rawEnd (source : String) : List Char :=
  (visible source.toList).rtakeWhile fun c => TokenKind.ofChar c = .raw

/-- The raw text that a source begins with, once white space is left out. -/
def rawStart (source : String) : List Char :=
  (visible source.toList).takeWhile fun c => TokenKind.ofChar c = .raw

/-- If a source begins with raw text, the first visible character is raw. -/
theorem exists_of_rawStart {source : String} (h : rawStart source ≠ []) : ∃ c cs,
    visible source.toList = c :: cs ∧ TokenKind.ofChar c = .raw ∧
      (rawStart source).head? = some c := by
  rw [rawStart] at h ⊢
  cases hvisible : visible source.toList with
  | nil =>
      rw [hvisible] at h
      exact absurd rfl h
  | cons c cs =>
      by_cases hc : TokenKind.ofChar c = .raw
      · rw [List.takeWhile_cons_of_pos (by simpa using hc)]
        exact ⟨c, cs, rfl, hc, rfl⟩
      · rw [hvisible, List.takeWhile_cons_of_neg (by simpa using hc)] at h
        exact absurd rfl h

end Text

namespace Segment.Stack

variable {n : Nat} {st st' : Stack} {g : Glyph}

/-- The text that more raw text would continue. -/
def text (st : Stack) : List Glyph :=
  match st.segments with
  | raw text :: _ => text
  | _ => []

/-- A glyph of raw text joins the text before it, or starts a segment. -/
theorem read_raw (h : TokenKind.ofChar g.char = .raw) :
    st.read n (Token.single g) = .ok ⟨st.groups, pushRaw [g] st.segments⟩ := by
  have hkind : (Token.single g).kind = .raw := h
  rw [read, hkind]
  rfl

/-- An operator is a segment of its own. -/
theorem read_operator {op : Operator} (h : TokenKind.ofChar g.char = .operator op) :
    st.read n (Token.single g) = .ok ⟨st.groups, operator op g.span :: st.segments⟩ := by
  have hkind : (Token.single g).kind = .operator op := h
  rw [read, hkind]
  rfl

/-- A visible glyph continues the text or ends it. -/
theorem text_of_read (hvisible : Text.isWhiteSpace g.char = false)
    (h : st.read n (Token.single g) = .ok st') :
    st'.text = if TokenKind.ofChar g.char = .raw then st.text ++ [g] else [] := by
  cases hkind : TokenKind.ofChar g.char with
  | raw =>
      rw [read_raw hkind] at h
      cases h
      obtain ⟨groups, segments⟩ := st
      cases segments with
      | nil => rfl
      | cons s ss => cases s <;> rfl
  | operator op =>
      rw [read_operator hkind] at h
      cases h
      rfl
  | whiteSpace => exact absurd hkind (Token.kind_single_ne_whiteSpace hvisible)
  | openParen =>
      rw [read, Token.single, hkind] at h
      dsimp only at h
      split at h
      · cases h
      · cases h
        rfl
  | closeParen =>
      rw [read, Token.single, hkind] at h
      dsimp only at h
      split at h
      · cases h
      · split at h
        · cases h
        · cases h
          rfl

/-- The text after a number of visible glyphs is the raw text that they end with. -/
theorem text_of_foldlM {gs : List Glyph} (hvisible : ∀ g ∈ gs, Text.isWhiteSpace g.char = false)
    (h : (gs.map Token.single).foldlM (read n) ⟨[], []⟩ = .ok st) :
    st.text = gs.rtakeWhile fun g => TokenKind.ofChar g.char = .raw := by
  -- the last glyph decides whether the text before it goes on
  induction gs using List.reverseRecOn generalizing st with
  | nil =>
      cases h
      rfl
  | append_singleton gs g ih =>
      obtain ⟨hgs, hg⟩ := List.forall_mem_append.mp hvisible
      rw [List.map_append, List.foldlM_append] at h
      obtain ⟨st₁, hst₁, h⟩ := bind_eq_ok_iff.mp h
      obtain ⟨st₂, hst₂, h⟩ := bind_eq_ok_iff.mp h
      cases h
      rw [text_of_read (hg g List.mem_cons_self) hst₂, ih hgs hst₁, List.rtakeWhile_concat]
      simp

/-- After a source that ends with raw text this text is the nearest segment. -/
theorem exists_of_rawEnd {source : String} (hne : Text.rawEnd source ≠ [])
    (h : ((Glyph.visible source).map Token.single).foldlM (read n) ⟨[], []⟩ = .ok st) :
    ∃ gs ss, st.segments = raw gs :: ss ∧ gs.map Glyph.char = Text.rawEnd source := by
  have htext : st.text.map Glyph.char = Text.rawEnd source := by
    rw [text_of_foldlM (fun _ => Glyph.isWhiteSpace_of_mem_visible) h, Text.rawEnd, Text.visible,
      ← Glyph.map_char_visible, List.rtakeWhile, List.rtakeWhile, ← List.map_reverse,
      List.takeWhile_map, List.map_reverse]
    rfl
  rw [← htext] at hne ⊢
  obtain ⟨groups, segments⟩ := st
  cases segments with
  | nil => exact absurd rfl hne
  | cons s ss =>
      cases s with
      | raw gs => exact ⟨gs, ss, rfl, rfl⟩
      | operator | group => exact absurd rfl hne

/-- Raw text that goes on after a split is read like a product of two texts. -/
theorem Corresponds.agrees_product {l gs gs' : List Glyph} {ss : List Segment} {g' star : Glyph}
    (h : st.Corresponds R (List.Forall₂ (Segment.Moved R)) st') (hl : st.segments = .raw l :: ss)
    (hstar : star.char = '*') (hgs : Glyph.TextsMoved R (g :: gs) (g' :: gs'))
    (hraw : TokenKind.ofChar g.char = .raw)
    (hsplit : Decimal.SplitsAt (l.map Glyph.char) [g.char]) :
    Agrees R (fun ss ss' => Spelled R ss.reverse ss'.reverse)
      (((g :: gs).map Token.single).foldlM (read n) st >>= close)
      (((star :: g' :: gs').map Token.single).foldlM (read n) st' >>= close) := by
  obtain ⟨groups, segments⟩ := st
  obtain ⟨groups', segments'⟩ := st'
  obtain ⟨hgroups, hsegments⟩ := h
  cases hl
  cases hsegments with
  | @cons _ s' _ ss' hs hss =>
  cases hs with
  | @raw _ l' hne htext =>
  cases hgs with
  | cons hg hgs =>
  have hmul : TokenKind.ofChar star.char = .operator .mul := by
    rw [hstar]
    rfl
  have hraw' : TokenKind.ofChar g'.char = .raw := hg.char_eq ▸ hraw
  -- what the stacks hold after the first glyph of the second part
  have hproduct : Corresponds R (Spelled R) ⟨groups, .raw (l ++ [g]) :: ss⟩
      ⟨groups', .raw [g'] :: .operator .mul star.span :: .raw l' :: ss'⟩ :=
    ⟨hgroups.imp fun _ _ hopen => ⟨.of_moved hopen.before, hopen.paren, hopen.stop⟩,
      .product hsplit htext (.cons hg .nil) (.of_moved hss)⟩
  simp only [List.map_cons, List.foldlM_cons, read_raw hraw, read_raw hraw', read_operator hmul]
  exact (hproduct.agrees_foldlM stable_spelled hgs).bind fun _ _ h => h.agrees_close

end Segment.Stack

/-! ## Sources with a split -/

/-- The visible glyphs of a text that is put after a source come after those of the source, at other
places than on their own. -/
theorem Glyph.exists_visible_append (s t : String) :
    ∃ gs, visible (s ++ t) = visible s ++ gs ∧ gs.map char = Text.visible t.toList := by
  rw [visible, ofSource, String.toList_append, ofChars_append, List.filter_append]
  refine ⟨_, rfl, ?_⟩
  have hchars := map_char_ofChars (0 + String.utf8Len s.toList) t.toList
  rw [Text.visible, ← congrArg (List.filter _) hchars, List.filter_map]
  rfl

/-- Where the text before is split from the text after, a multiplication may be written. -/
theorem Segment.agrees_ofTokens_product (n : Nat) {a b : String}
    (h : Decimal.SplitsAt (Text.rawEnd a) (Text.rawStart b)) :
    Agrees (fun _ _ => True) (fun ss ss' => Spelled (fun _ _ => True) ss.reverse ss'.reverse)
      (ofTokens n (Token.significant (a ++ b)))
      (ofTokens n (Token.significant (a ++ "*" ++ b))) := by
  obtain ⟨hend, hstart⟩ := h.ne_nil
  obtain ⟨c, cs, hb, hc, hhead⟩ := Text.exists_of_rawStart hstart
  -- the glyphs of the sources, of which only the places after `a` differ
  obtain ⟨_, hglyphs, hgs⟩ := Glyph.exists_visible_append a b
  obtain ⟨_, hglyphs', hgs'⟩ := Glyph.exists_visible_append (a ++ "*") b
  obtain ⟨_, hstar, hmul⟩ := Glyph.exists_visible_append a "*"
  obtain ⟨g, gs, rfl, rfl, hgs⟩ := List.map_eq_cons_iff.mp (hgs.trans hb)
  obtain ⟨g', gs', rfl, hg', hgs'⟩ := List.map_eq_cons_iff.mp (hgs'.trans hb)
  obtain ⟨star, rfl, hchar⟩ := List.map_eq_singleton_iff.mp (hmul.trans (by rfl : _ = ['*']))
  rw [ofTokens_visible, ofTokens_visible, collect_eq ⟨[], []⟩, collect_eq ⟨[], []⟩, hglyphs,
    hglyphs', hstar, List.append_assoc, List.map_append, List.map_append, List.foldlM_append,
    List.foldlM_append, bind_assoc, bind_assoc]
  have hempty : Stack.Corresponds (fun _ _ => True) (List.Forall₂ (Segment.Moved fun _ _ => True))
      ⟨[], []⟩ ⟨[], []⟩ := ⟨.nil, .nil⟩
  refine (hempty.agrees_foldlM stable_moved (Glyph.textsMoved_of_map_char rfl)).bind_of_eq
    fun st st' hst _ hmoved => ?_
  obtain ⟨l, ss, hsegments, hl⟩ := Stack.exists_of_rawEnd hend hst
  refine hmoved.agrees_product hsegments hchar (Glyph.textsMoved_of_map_char ?_) hc ?_
  · simp [hg', hgs, hgs']
  · rw [hl]
    exact h.of_head hhead

/-! ## Sources -/

variable [Scalar K] [Literal K]

theorem agrees_parse (limits : ParseLimits) {s s' : String}
    (h : Agrees R (Operand.Moved (K := K) R) (parseOperand limits s) (parseOperand limits s')) :
    Agrees R (fun e e' : Expr K => e = e') (parse limits s) (parse limits s') :=
  h.bind fun _ _ hx => .ok (congrArg Expr.normalize hx.expr_eq)

/-- Where a run of raw text is split, it makes no difference to parsing whether the multiplication
is written. -/
theorem agrees_parse_product (limits : ParseLimits) {a b : String}
    (h : Decimal.SplitsAt (Text.rawEnd a) (Text.rawStart b)) :
    Agrees (fun _ _ => True) (fun e e' : Expr K => e = e') (parse limits (a ++ b))
      (parse limits (a ++ "*" ++ b)) := by
  -- what `b` begins with is visible
  have hvisible (s : String) : Glyph.visible (s ++ b) ≠ [] := by
    obtain ⟨c, cs, hb, -, -⟩ := Text.exists_of_rawStart h.ne_nil.2
    obtain ⟨gs, hglyphs, hgs⟩ := Glyph.exists_visible_append s b
    rw [hglyphs]
    refine List.append_ne_nil_of_right_ne_nil _ ?_
    rintro rfl
    cases hgs.trans hb
  obtain ⟨span, hs⟩ := exists_parseOperand_eq (K := K) limits (hvisible a)
  obtain ⟨span', hs'⟩ := exists_parseOperand_eq (K := K) limits (hvisible (a ++ "*"))
  refine agrees_parse limits ?_
  rw [hs, hs']
  refine (Segment.agrees_ofTokens_product limits.nesting h).bind_of_eq fun ss ss' hss _ h => ?_
  exact h.agrees_toOperand (Segment.ne_nil_of_ofTokens (hvisible a) hss) span span'

/-- **Numerals are split off exactly.**

* The numeral at the start of a text is the longest of its prefixes that are numerals, and there is
  none if no prefix is a numeral.
* Wherever a run of raw text stands, it is replaced by numbers with inserted multiplications between
  them and, where there is a rest, the rest. The numerals are the longest at their places, the rest
  does not begin with a numeral, and together they are the run, glyph by glyph with its places.
* If the run around the end of `a` and the beginning of `b` is split at that place, then under any
  limits a multiplication may as well be written there: the sources are read as the same expression,
  or they are refused for the same reason. -/
theorem numerals_split (K : Type) [Scalar K] [Literal K] :
    (∀ text : String,
      (∀ numeral, Decimal.leadingNumeral? text = some numeral ↔
        Decimal.IsLongest numeral.toList text.toList) ∧
      (Decimal.leadingNumeral? text = none ↔
        ∀ p, p <+: text.toList → ¬Decimal.IsNumeral p)) ∧
    (∀ text : List Glyph,
      ∃ (numerals : List (List Glyph)) (rest : List Glyph) (fs : List (Fragment K)),
        text = numerals.flatten ++ rest ∧
        Decimal.Splits (text.map Glyph.char) (numerals.map (List.map Glyph.char))
          (rest.map Glyph.char) ∧
        Fragment.Pieces numerals rest fs ∧
        ∀ before after, ∃ before' after', Fragment.readNumerals before = .ok before' ∧
          Fragment.readNumerals after = .ok after' ∧
          Fragment.readNumerals (before ++ .raw text :: after) = .ok (before' ++ fs ++ after')) ∧
    ∀ (limits : ParseLimits) (a b : String) (ps qs : List (List Char)) (rest : List Char),
      Decimal.Splits (Text.rawEnd a ++ Text.rawStart b) (ps ++ qs) rest →
      ps ≠ [] → ps.flatten = Text.rawEnd a → Text.rawStart b ≠ [] →
      (∃ e : Expr K, parse limits (a ++ b) = .ok e ∧ parse limits (a ++ "*" ++ b) = .ok e) ∨
      ∃ cause spans spans', parse (K := K) limits (a ++ b) = .error ⟨cause, spans⟩ ∧
        parse (K := K) limits (a ++ "*" ++ b) = .error ⟨cause, spans'⟩ := by
  refine ⟨fun text => ?_, fun text => ?_, fun limits a b ps qs rest hsplits hps hend hstart => ?_⟩
  · exact ⟨fun numeral => Decimal.leadingNumeral?_eq_some_iff, Decimal.leadingNumeral?_eq_none_iff⟩
  · obtain ⟨numerals, rest, fs, htext, hsplits, hpieces, hfs⟩ :=
      Fragment.exists_pieces (K := K) text
    exact ⟨numerals, rest, fs, htext, hsplits, hpieces, Fragment.readNumerals_raw hfs⟩
  · rw [← hend] at hsplits
    have hsplit := hsplits.splitsAt hps hstart
    rw [hend] at hsplit
    have hagree := agrees_parse_product (K := K) limits hsplit
    revert hagree
    generalize parse (K := K) limits (a ++ b) = r
    generalize parse (K := K) limits (a ++ "*" ++ b) = r'
    intro hagree
    cases hagree with
    | @ok e e' he => exact Or.inl ⟨e, rfl, congrArg _ he.symm⟩
    | error => exact Or.inr ⟨_, _, _, rfl, rfl⟩

/-- The run `1.2.3x`, with a blank in it, is split after `1.2`. -/
theorem numerals_split_point :
    let a := "(1.2 "
    let b := ".3x)"
    let e : Expr Float :=
      .product [.number (Literal.ofDecimal 12 1), .number (Literal.ofDecimal 3 1), .var "x"]
    Decimal.Splits (Text.rawEnd a ++ Text.rawStart b) [['1', '.', '2'], ['.', '3']] ['x'] ∧
      parse {} (a ++ b) = .ok e ∧ parse {} (a ++ "*" ++ b) = .ok e := by
  intro a b e
  have hsplits : Decimal.Splits (Text.rawEnd a ++ Text.rawStart b)
      ([['1', '.', '2']] ++ [['.', '3']]) ['x'] := by
    have hrun : Text.rawEnd a ++ Text.rawStart b = ['1', '.', '2'] ++ (['.', '3'] ++ ['x']) := by
      decide +kernel
    rw [hrun]
    refine .numeral (Decimal.isLongest_iff.mpr (by decide)) (.numeral
      (Decimal.isLongest_iff.mpr (by decide)) (.rest (Decimal.noNumeral_iff.mpr (by decide))))
  -- the source is read alike with any numbers, so the doubles need not be computed here
  have hparse (L : Type) [Scalar L] [Literal L] : parse (K := L) {} (a ++ b) = .ok (.product
      [.number (Literal.ofDecimal 12 1), .number (Literal.ofDecimal 3 1), .var "x"]) := by
    cbv
  refine ⟨hsplits, hparse Float, ?_⟩
  obtain ⟨e', he', hwritten⟩ | ⟨cause, spans, spans', herr, -⟩ :=
    (numerals_split Float).2.2 {} a b _ _ _ hsplits (by simp) (by decide +kernel)
      (by decide +kernel)
  · rw [hparse Float] at he'
    cases he'
    exact hwritten
  · rw [hparse Float] at herr
    cases herr

end SymbolicCalculus
