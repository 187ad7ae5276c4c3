import SymbolicCalculus.Proofs.Grammar.Links
import SymbolicCalculus.Proofs.Grammar.Placement

/-!
# Reading does not look at places

Every step of reading, applied to the same text in two places, gives results that agree: it makes
corresponding things, or it fails for the same reason at corresponding places. Nothing is decided by
a place, and the places in errors are those of glyphs of the text.

The place of a multiplication that was inserted after a numeral is an exception. It is never
reported, since such a multiplication stands between two operands.
-/

namespace SymbolicCalculus

variable {K : Type} {R : Glyph → Glyph → Prop}

/-! ## Grouping -/

namespace Segment

/-- The groups were opened at corresponding parentheses, after corresponding segments. -/
structure OpenGroup.Moved (R : Glyph → Glyph → Prop) (a b : OpenGroup) : Prop where
  before : List.Forall₂ (Segment.Moved R) a.before b.before
  paren : Span.Moved R a.paren b.paren
  /-- A parenthesis has one byte. -/
  stop : a.paren.stop = a.paren.start + 1 ∧ b.paren.stop = b.paren.start + 1

/-- Corresponding raw text continues corresponding segments. -/
theorem moved_pushRaw {text text' : List Glyph} {segments segments' : List Segment}
    (hne : text ≠ []) (htext : Glyph.TextsMoved R text text')
    (h : List.Forall₂ (Segment.Moved R) segments segments') :
    List.Forall₂ (Segment.Moved R) (pushRaw text segments) (pushRaw text' segments') := by
  cases h with
  | nil => exact .cons (.raw hne htext) .nil
  | cons hs hrest =>
      -- raw text continues raw text, and is a segment of its own after anything else
      cases hs with
      | raw hne' hprevious =>
          exact .cons (.raw (List.append_ne_nil_of_left_ne_nil hne' _)
            (List.rel_append hprevious htext)) hrest
      | operator op hspan => exact .cons (.raw hne htext) (.cons (.operator op hspan) hrest)
      | group hne' hss hspan => exact .cons (.raw hne htext) (.cons (.group hne' hss hspan) hrest)

/-- An opening parenthesis has one byte. -/
theorem stop_span_single {g : Glyph} (h : TokenKind.ofChar g.char = .openParen) :
    (Token.single g).span.stop = (Token.single g).span.start + 1 := by
  show g.offset + g.char.utf8Size = g.offset + 1
  rw [TokenKind.ofChar_eq_openParen h]
  rfl

/-- The relation is kept by whatever is read next. It relates lists of segments that are given the
nearest one first. -/
structure Stable (R : Glyph → Glyph → Prop) (rel : List Segment → List Segment → Prop) : Prop where
  nil : rel [] []
  pushRaw {text text' : List Glyph} {ss ss' : List Segment} : text ≠ [] →
    Glyph.TextsMoved R text text' → rel ss ss' → rel (pushRaw text ss) (pushRaw text' ss')
  operator {op : Operator} {a b : Span} {ss ss' : List Segment} : Span.Moved R a b → rel ss ss' →
    rel (.operator op a :: ss) (.operator op b :: ss')
  group {inner inner' ss ss' : List Segment} {a b : Span} : inner ≠ [] → rel inner inner' →
    Span.Moved R a b → rel ss ss' →
    rel (.group inner.reverse a :: ss) (.group inner'.reverse b :: ss')
  eq_nil_iff {ss ss' : List Segment} : rel ss ss' → (ss = [] ↔ ss' = [])

/-- The groups were opened at corresponding parentheses, after segments that are related. -/
structure OpenGroup.Corresponds (R : Glyph → Glyph → Prop)
    (rel : List Segment → List Segment → Prop) (a b : OpenGroup) : Prop where
  before : rel a.before b.before
  paren : Span.Moved R a.paren b.paren
  stop : a.paren.stop = a.paren.start + 1 ∧ b.paren.stop = b.paren.start + 1

namespace Stack

variable {rel : List Segment → List Segment → Prop} {st st' : Stack} {n : Nat}

/-- As many groups are open, and what was read before and in each of them is related. -/
structure Corresponds (R : Glyph → Glyph → Prop) (rel : List Segment → List Segment → Prop)
    (st st' : Stack) : Prop where
  groups : List.Forall₂ (OpenGroup.Corresponds R rel) st.groups st'.groups
  segments : rel st.segments st'.segments

/-- Reading a glyph keeps the relation. -/
theorem Corresponds.agrees_read (hrel : Stable R rel) (h : st.Corresponds R rel st') {g g' : Glyph}
    (hg : g.Moved R g') : Agrees R (Corresponds R rel) (st.read n (Token.single g))
      (st'.read n (Token.single g')) := by
  obtain ⟨groups, segments⟩ := st
  obtain ⟨groups', segments'⟩ := st'
  obtain ⟨hgroups, hsegments⟩ := h
  dsimp only at hgroups hsegments
  have hkind : (Token.single g').kind = (Token.single g).kind :=
    congrArg TokenKind.ofChar hg.char_eq.symm
  have hspan : Span.Moved R (Token.single g).span (Token.single g').span := hg.span
  rw [read, read, hkind]
  -- one case for each kind of glyph; only parentheses look at the stack
  cases hk : (Token.single g).kind with
  | whiteSpace => exact .ok ⟨hgroups, hsegments⟩
  | raw =>
      exact .ok ⟨hgroups, hrel.pushRaw (List.cons_ne_nil g []) (.cons hg .nil) hsegments⟩
  | operator op => exact .ok ⟨hgroups, hrel.operator hspan hsegments⟩
  | openParen =>
      dsimp only
      rw [hgroups.length_eq]
      split
      · exact .atSpan _ hspan
      · have hstop' := stop_span_single (hkind.trans hk)
        exact .ok ⟨.cons ⟨hsegments, hspan, stop_span_single hk, hstop'⟩ hgroups, hrel.nil⟩
  | closeParen =>
      cases hgroups with
      | nil => exact .atSpan _ hspan
      | cons hopen hgroups =>
          have hwhole := hopen.paren.trans hspan
          simp only [List.isEmpty_iff, hrel.eq_nil_iff hsegments]
          split
          · exact .atSpan _ hwhole
          · next hne =>
            have hne := mt (hrel.eq_nil_iff hsegments).mp hne
            exact .ok ⟨hgroups, hrel.group hne hsegments hwhole hopen.before⟩

/-- So does reading any number of them. -/
theorem Corresponds.agrees_foldlM (hrel : Stable R rel) (h : st.Corresponds R rel st')
    {gs gs' : List Glyph} (hgs : Glyph.TextsMoved R gs gs') :
    Agrees R (Corresponds R rel) ((gs.map Token.single).foldlM (read n) st)
      ((gs'.map Token.single).foldlM (read n) st') := by
  induction hgs generalizing st st' with
  | nil => exact .ok h
  | cons hg _ ih =>
      rw [List.map_cons, List.map_cons, List.foldlM_cons, List.foldlM_cons]
      exact (h.agrees_read hrel hg).bind fun _ _ h => ih h

/-- The end of the reading leaves corresponding segments, or corresponding parentheses that are not
closed. -/
theorem Corresponds.agrees_close (h : st.Corresponds R rel st') :
    Agrees R (fun ss ss' => rel ss.reverse ss'.reverse) st.close st'.close := by
  obtain ⟨groups, segments⟩ := st
  obtain ⟨groups', segments'⟩ := st'
  obtain ⟨hgroups, hsegments⟩ := h
  cases hgroups with
  | nil =>
      refine .ok ?_
      rwa [List.reverse_reverse, List.reverse_reverse]
  | cons hopen _ =>
      have hspan := hopen.paren
      obtain ⟨hstop, hstop'⟩ := hopen.stop
      refine .atSpan _ ?_
      rw [← hstop, ← hstop']
      exact hspan

end Stack

/-- Correspondence of segments is kept by whatever is read. -/
theorem stable_moved : Stable R (List.Forall₂ (Segment.Moved R)) where
  nil := .nil
  pushRaw := moved_pushRaw
  operator hspan h := .cons (.operator _ hspan) h
  group hne hinner hspan h := .cons (.group (by simpa using hne) (List.rel_reverse hinner) hspan) h
  eq_nil_iff h := by
    constructor
    · rintro rfl
      exact List.forall₂_nil_left_iff.mp h
    · rintro rfl
      exact List.forall₂_nil_right_iff.mp h

/-- Grouping glyph by glyph does not look at places. -/
theorem agrees_collect {n : Nat} {gs gs' : List Glyph} (h : Glyph.TextsMoved R gs gs')
    {groups groups' : List OpenGroup} {segments segments' : List Segment}
    (hgroups : List.Forall₂ (OpenGroup.Moved R) groups groups')
    (hsegments : List.Forall₂ (Segment.Moved R) segments segments') :
    Agrees R (List.Forall₂ (Segment.Moved R))
      (collect n groups segments (gs.map Token.single))
      (collect n groups' segments' (gs'.map Token.single)) := by
  have hstack : Stack.Corresponds R (List.Forall₂ (Segment.Moved R)) ⟨groups, segments⟩
      ⟨groups', segments'⟩ :=
    ⟨hgroups.imp fun _ _ hopen => ⟨hopen.before, hopen.paren, hopen.stop⟩, hsegments⟩
  rw [collect_eq ⟨groups, segments⟩, collect_eq ⟨groups', segments'⟩]
  refine (hstack.agrees_foldlM stable_moved h).bind fun _ _ hstack => ?_
  refine hstack.agrees_close.imp fun ss ss' hss => ?_
  simpa using List.rel_reverse hss

end Segment

/-! ## Operands -/

namespace Operand

variable {x x' y y' : Operand K}

/-- The check of depth does not look at places. -/
theorem Moved.limit (h : x.Moved R x') (d : Nat) :
    Agrees R (Operand.Moved R) (x.limit d) (x'.limit d) := by
  unfold Operand.limit
  rw [h.depth_eq]
  split
  · exact .atSpan _ h.span
  · exact .ok h

theorem Moved.below (h : x.Moved R x') (node : Expr K → Expr K) {a a' : Span}
    (hspan : Span.Moved R a a') : (x.below node a).Moved R (x'.below node a') :=
  ⟨congrArg node h.expr_eq, congrArg Nat.succ h.depth_eq, hspan⟩

/-- An operator makes corresponding operands of corresponding ones. -/
theorem Moved.apply (hx : x.Moved R x') (hy : y.Moved R y') (op : Operator) :
    (x.apply op y).Moved R (x'.apply op y') := by
  obtain ⟨e, span, depth⟩ := x
  obtain ⟨e', span', depth'⟩ := x'
  obtain ⟨hexpr, hdepth, hspan⟩ := hx
  cases hexpr
  cases hdepth
  have hthrough := hspan.trans hy.span
  -- which list is extended depends on the expression, which is the same
  unfold Operand.apply
  dsimp only
  rw [hy.expr_eq, hy.depth_eq]
  split <;> exact ⟨rfl, rfl, hthrough⟩

end Operand

/-! ## Numbers and names -/

namespace Fragment

section

variable [Literal K]

/-- A numeral is read alike wherever it stands. -/
theorem agrees_ofNumeral {text text' : List Glyph} (hne : text ≠ [])
    (h : Glyph.TextsMoved R text text') :
    Agrees R (Fragment.Moved (K := K) R) (ofNumeral text) (ofNumeral text') := by
  have hcover := h.cover hne
  rw [ofNumeral, ofNumeral, h.map_char, h.text_eq]
  split
  · exact .ok (.operand ⟨rfl, rfl, hcover⟩)
  · exact .atSpan _ hcover

/-- What a text is split into may stand anywhere in a list, and comes before what an operand comes
before. -/
theorem agrees_ofText {text text' : List Glyph} (hne : text ≠ [])
    (h : Glyph.TextsMoved R text text') :
    Agrees R (fun fs fs' : List (Fragment K) => ∀ before rest rest',
        Fragment.Aligned R .operand rest rest' → Fragment.Aligned R before (fs ++ rest) (fs' ++ rest'))
      (ofText text) (ofText text') := by
  induction text using ofText.induct generalizing text' with
  | case1 => exact absurd rfl hne
  | case2 g gs hlength =>
      cases h with
      | cons hg htail =>
      have h : Glyph.TextsMoved R (g :: gs) (_ :: _) := .cons hg htail
      rw [ofText, ofText, ← h.map_char, hlength]
      exact .ok fun before rest rest' hrest => .item (.raw hne h) hrest
  | case3 g gs n hlength ih =>
      cases h with
      | @cons _ g' _ gs' hg htail =>
      have h : Glyph.TextsMoved R (g :: gs) (g' :: gs') := .cons hg htail
      have hnumeral : Glyph.TextsMoved R (g :: gs.take n) (g' :: gs'.take n) :=
        .cons hg (List.forall₂_take n htail)
      have hrest : Glyph.TextsMoved R (gs.drop n) (gs'.drop n) := List.forall₂_drop n htail
      rw [ofText, ofText, ← h.map_char, hlength]
      dsimp only
      refine (agrees_ofNumeral (List.cons_ne_nil _ _) hnumeral).bind fun f f' hf => ?_
      -- a multiplication is inserted after the numeral only if text follows it
      by_cases hempty : gs.drop n = []
      · have hempty' : gs'.drop n = [] := List.forall₂_nil_left_iff.mp (hempty ▸ hrest)
        rw [hempty, hempty', ofText]
        exact .ok fun before rest rest' hrest => .item hf hrest
      · have hempty' : gs'.drop n ≠ [] := fun h => hempty (List.forall₂_nil_right_iff.mp (h ▸ hrest))
        refine (ih hempty hrest).bind fun fs fs' hfs => ?_
        rw [if_neg (by simpa using hempty), if_neg (by simpa using hempty')]
        exact .ok fun before rest rest' hrest => .item hf (.inserted (hfs .inserted rest rest' hrest))

/-- What fragments are before numerals are split off. Nothing was inserted yet. -/
inductive Written (R : Glyph → Glyph → Prop) : Fragment K → Fragment K → Prop
  | item {f f' : Fragment K} : f.Moved R f' → Written R f f'
  | operator {a b : Span} (op : Operator) : Span.Moved R a b →
      Written R (.operator op a) (.operator op b)

/-- A fragment of its own may come before anything that agrees after an operand and after an
operator. -/
theorem agrees_readNumerals_cons (before : Before) {f f' : Fragment K} {fs fs' : List (Fragment K)}
    (hf : Written R f f') (hinserted : before ≠ .inserted)
    (hrest : ∀ before : Before, before ≠ .start → before ≠ .inserted →
      Agrees R (Fragment.Aligned R before) (readNumerals fs) (readNumerals fs')) :
    Agrees R (Fragment.Aligned R before) (readNumerals (f :: fs)) (readNumerals (f' :: fs')) := by
  cases hf with
  | operator op hspan =>
      refine (hrest .operator (by simp) (by simp)).bind fun gs gs' hgs => ?_
      exact .ok (.operator hinserted hspan hgs)
  | item hf =>
      have hrest := hrest .operand (by simp) (by simp)
      cases hf with
      | raw hne htext =>
          refine (agrees_ofText hne htext).bind fun split split' hsplit => ?_
          exact hrest.bind fun gs gs' hgs => .ok (hsplit before gs gs' hgs)
      | group hx => exact hrest.bind fun gs gs' hgs => .ok (.item (.group hx) hgs)
      | operand hx => exact hrest.bind fun gs gs' hgs => .ok (.item (.operand hx) hgs)

/-- Splitting numerals off does not look at places. -/
theorem agrees_readNumerals (before : Before) {fs fs' : List (Fragment K)}
    (h : List.Forall₂ (Written R) fs fs') (hstart : before = .start → fs ≠ [])
    (hinserted : before ≠ .inserted) :
    Agrees R (Fragment.Aligned R before) (readNumerals fs) (readNumerals fs') := by
  induction h generalizing before with
  | nil => exact .ok (.nil (fun h => hstart h rfl) hinserted)
  | cons hf _ ih =>
      exact agrees_readNumerals_cons before hf hinserted fun before hstart =>
        ih before fun h => absurd h hstart

end

/-- Where one list has a name and a group, so has a corresponding one. -/
theorem exists_of_aligned_call {before : Before} {text : List Glyph} {x : Operand K}
    {fs fs' : List (Fragment K)} (h : Fragment.Aligned R before (raw text :: group x :: fs) fs') :
    ∃ text' x' rest, fs' = raw text' :: group x' :: rest ∧ text ≠ [] ∧
      Glyph.TextsMoved R text text' ∧ x.Moved R x' ∧ Fragment.Aligned R .operand fs rest := by
  cases h with
  | item hraw hrest =>
  cases hraw with
  | raw hne htext =>
  cases hrest with
  | item hgroup hrest =>
  cases hgroup with
  | group hx => exact ⟨_, _, _, rfl, hne, htext, hx, hrest⟩

/-- Reading calls does not look at places. -/
theorem agrees_readCalls {d : Nat} {before : Before} {fs fs' : List (Fragment K)}
    (h : Fragment.Aligned R before fs fs') :
    Agrees R (Fragment.Aligned R before) (readCalls d fs) (readCalls d fs') := by
  fun_induction readCalls d fs generalizing before fs' with
  | case1 =>
      cases h with
      | nil hstart hinserted => exact .ok (.nil hstart hinserted)
  | case2 text x fs f hname ih =>
      obtain ⟨text', x', fs', rfl, hne, htext, hx, hrest⟩ := exists_of_aligned_call h
      have hspan := (htext.cover hne).trans hx.span
      rw [readCalls, ← htext.text_eq, hname]
      refine ((hx.below (.call f) hspan).limit d).bind fun z w hz => ?_
      exact (ih hrest).bind fun gs gs' hgs => .ok (.item (.operand hz) hgs)
  | case3 text x fs hname ih =>
      obtain ⟨text', x', fs', rfl, hne, htext, hx, hrest⟩ := exists_of_aligned_call h
      rw [readCalls, ← htext.text_eq, hname]
      exact (ih hrest).bind fun gs gs' hgs => .ok (.item (.raw hne htext) (.item (.group hx) hgs))
  | case4 f fs hno ih =>
      cases h with
      | operator hinserted hspan hrest =>
          exact (ih hrest).bind fun gs gs' hgs => .ok (.operator hinserted hspan hgs)
      | inserted hrest => exact (ih hrest).bind fun gs gs' hgs => .ok (.inserted hgs)
      | @item _ _ f' _ fs' hf hrest =>
          -- no call comes about in the other list either
          have hno' : ∀ text x rest, f' = raw text → fs' = group x :: rest → False := by
            rintro text x rest rfl rfl
            cases hf with
            | raw hne htext =>
            cases hrest with
            | item hgroup hrest =>
            cases hgroup with
            | group hx => exact hno _ _ _ rfl rfl
          rw [readCalls]
          · exact (ih hrest).bind fun gs gs' hgs => .ok (.item hf hgs)
          · exact hno'

/-- The texts that are left become operands, if they are names. -/
theorem agrees_toLink {f f' : Fragment K} (h : f.Moved R f') :
    Agrees R (Link.Moved R) f.toLink f'.toLink := by
  cases h with
  | group hx => exact .ok (.operand hx)
  | operand hx => exact .ok (.operand hx)
  | raw hne htext =>
      have hcover := htext.cover hne
      rw [toLink, toLink, ← htext.text_eq]
      split
      · exact .ok (.operand ⟨rfl, rfl, hcover⟩)
      · exact .atSpan _ hcover

/-- Reading names does not look at places. -/
theorem agrees_toLinks {before : Before} {fs fs' : List (Fragment K)}
    (h : Fragment.Aligned R before fs fs') :
    Agrees R (Chain.Aligned R before) (fs.mapM toLink) (fs'.mapM toLink) := by
  induction h with
  | nil hstart hinserted => exact .ok (.nil hstart hinserted)
  | item hf _ ih =>
      rw [List.mapM_cons, List.mapM_cons]
      exact (agrees_toLink hf).bind fun _ _ hlink => ih.bind fun _ _ hc => .ok (.item hlink hc)
  | operator hinserted hspan _ ih =>
      rw [List.mapM_cons, List.mapM_cons]
      exact ih.bind fun _ _ hc => .ok (.operator hinserted hspan hc)
  | inserted _ ih =>
      rw [List.mapM_cons, List.mapM_cons]
      exact ih.bind fun _ _ hc => .ok (.inserted hc)

end Fragment

/-! ## Misplaced operators -/

/-- The links before two chains correspond, and they are what the chains were told of. -/
inductive Preceded (R : Glyph → Glyph → Prop) : Before → Option (Link K) → Option (Link K) → Prop
  | start : Preceded R .start none none
  | operand (x y : Operand K) : Preceded R .operand (some (.operand x)) (some (.operand y))
  | operator {a b : Span} (op : Operator) : Span.Moved R a b →
      Preceded R .operator (some (.operator op a)) (some (.operator op b))
  | inserted (a b : Span) :
      Preceded R .inserted (some (.operator .mul a)) (some (.operator .mul b))

namespace Chain

variable [Scalar K] {before : Before} {previous previous' : Option (Link K)} {c c' : Chain K}
  {d : Nat}

omit [Scalar K] in
/-- Where one chain has an operand, so has a corresponding one. -/
theorem exists_of_aligned_operand {x : Operand K}
    (h : Chain.Aligned R before (.operand x :: c) c') :
    ∃ y rest, c' = .operand y :: rest ∧ x.Moved R y ∧ Chain.Aligned R .operand c rest := by
  cases h with
  | item hlink hrest =>
  cases hlink with
  | operand hx => exact ⟨_, _, rfl, hx, hrest⟩

omit [Scalar K] in
/-- A subtraction was written, as only multiplications are inserted. -/
theorem exists_of_aligned_sub {a : Span} (h : Chain.Aligned R before (.operator .sub a :: c) c') :
    ∃ b rest, c' = .operator .sub b :: rest ∧ before ≠ .inserted ∧ Span.Moved R a b ∧
      Chain.Aligned R .operator c rest := by
  cases h with
  | item hlink => cases hlink
  | operator hinserted hspan hrest => exact ⟨_, _, rfl, hinserted, hspan, hrest⟩

omit [Scalar K] in
/-- Whether a minus is a sign does not depend on places. -/
theorem isSign_eq (hprevious : Preceded R before previous previous')
    (h : Chain.Aligned R .operator c c') : isSign previous c = isSign previous' c' := by
  cases hprevious with
  | start =>
      cases h with
      | nil => rfl
      | item hlink =>
          cases hlink
          rfl
      | operator => rfl
  | operand | operator | inserted => rfl

/-- The sign step does not look at places. -/
theorem agrees_applySignsAfter (hprevious : Preceded R before previous previous')
    (h : Chain.Aligned R before c c') :
    Agrees R (Chain.Aligned R before) (applySignsAfter d previous c)
      (applySignsAfter d previous' c') := by
  -- one case for each branch of the sign step, in which the other chain has the same links
  fun_induction applySignsAfter d previous c generalizing before previous' c' with
  | case1 =>
      cases h with
      | nil hstart hinserted => exact .ok (.nil hstart hinserted)
  | case2 previous sign x rest hsign ih =>
      obtain ⟨sign', c', rfl, hinserted, hspan, hrest⟩ := exists_of_aligned_sub h
      have hsign' := isSign_eq hprevious hrest ▸ hsign
      obtain ⟨y, c', rfl, hx, hrest⟩ := exists_of_aligned_operand hrest
      rw [applySignsAfter, if_pos hsign']
      refine ((hx.below _ (hspan.trans hx.span)).limit d).bind fun z w hz => ?_
      exact (ih z (.operand z w) hrest).bind fun _ _ hc => .ok (.item (.operand hz) hc)
  | case3 previous sign op span rest hsign =>
      obtain ⟨sign', c', rfl, hinserted, hspan, hrest⟩ := exists_of_aligned_sub h
      have hsign' := isSign_eq hprevious hrest ▸ hsign
      cases hrest with
      | item hlink => cases hlink
      | operator _ hspan' hrest =>
      rw [applySignsAfter, if_pos hsign']
      exact .atSpan _ (hspan.trans hspan')
  | case4 previous sign hsign =>
      obtain ⟨sign', c', rfl, hinserted, hspan, hrest⟩ := exists_of_aligned_sub h
      have hsign' := isSign_eq hprevious hrest ▸ hsign
      cases hrest with
      | nil =>
      rw [applySignsAfter, if_pos hsign']
      exact .atSpan _ hspan
  | case5 previous sign rest hsign ih =>
      obtain ⟨sign', c', rfl, hinserted, hspan, hrest⟩ := exists_of_aligned_sub h
      have hsign' := isSign_eq hprevious hrest ▸ Bool.eq_false_iff.mpr hsign
      rw [applySignsAfter_operator fun _ => hsign']
      exact (ih (.operator .sub hspan) hrest).map fun _ _ hc => .operator hinserted hspan hc
  | case6 previous link rest hno ih =>
      cases h with
      | @item _ _ link' _ rest' hlink hrest =>
          cases hlink with
          | @operand x y hx =>
          rw [applySignsAfter_operand]
          exact (ih (.operand x y) hrest).map fun _ _ hc => .item (.operand hx) hc
      | @operator _ op s s' _ rest' hinserted hspan hrest =>
          rw [applySignsAfter_operator fun hsub => (hno s (hsub ▸ rfl)).elim]
          exact (ih (.operator op hspan) hrest).map fun _ _ hc => .operator hinserted hspan hc
      | @inserted s s' _ rest' hrest =>
          rw [applySignsAfter_operator fun hsub => by cases hsub]
          exact (ih (.inserted s s') hrest).map fun _ _ hc => .inserted hc

omit [Scalar K] in
theorem isEmpty_eq (h : Chain.Aligned R before c c') : c.isEmpty = c'.isEmpty := by
  cases h <;> rfl

omit [Scalar K] in
/-- The check for misplaced operators does not look at places. -/
theorem agrees_checkAfter (hprevious : Preceded R before previous previous')
    (h : Chain.Aligned R before c c') :
    Agrees R (fun _ _ => True) (checkAfter previous c) (checkAfter previous' c') := by
  -- one case for each branch of the check; an inserted multiplication is never the reason to refuse
  fun_induction checkAfter previous c generalizing before previous' c' with
  | case1 =>
      cases h with
      | nil => exact .ok trivial
  | case2 previous x rest ih =>
      obtain ⟨y, c', rfl, -, hrest⟩ := exists_of_aligned_operand h
      rw [checkAfter]
      exact ih (.operand x y) hrest
  | case3 op span rest hmisplaced =>
      cases hprevious
      cases h with
      | item hlink => cases hlink
      | operator hinserted hspan hrest =>
      rw [checkAfter, if_pos (isEmpty_eq hrest ▸ hmisplaced)]
      exact .atSpan _ hspan
  | case4 op span rest hplaced ih =>
      cases hprevious
      cases h with
      | item hlink => cases hlink
      | operator hinserted hspan hrest =>
      rw [checkAfter, if_neg (isEmpty_eq hrest ▸ hplaced)]
      exact ih (.operator op hspan) hrest
  | case5 op span rest link hempty =>
      cases h with
      | item hlink => cases hlink
      | operator hinserted hspan hrest =>
          have hempty' := isEmpty_eq hrest ▸ hempty
          cases hprevious <;>
          · rw [checkAfter, if_pos hempty']
            exact .atSpan _ hspan
      | inserted hrest =>
          -- an operand comes after a multiplication that was inserted
          rw [List.isEmpty_iff.mp hempty] at hrest
          cases hrest with
          | nil _ hinserted => exact absurd rfl hinserted
  | case6 op span rest hne op' span' =>
      cases h with
      | item hlink => cases hlink
      | operator hinserted hspan hrest =>
          have hne' := isEmpty_eq hrest ▸ hne
          cases hprevious with
          | operator _ hbefore =>
              rw [checkAfter, if_neg hne']
              exact .atSpan _ (hbefore.trans hspan)
          | inserted => exact absurd rfl hinserted
      | inserted => cases hprevious
  | case7 op span rest hne x ih =>
      cases h with
      | item hlink => cases hlink
      | operator hinserted hspan hrest =>
          have hne' := isEmpty_eq hrest ▸ hne
          cases hprevious
          rw [checkAfter, if_neg hne']
          exact ih (.operator op hspan) hrest
      | inserted hrest =>
          have hne' := isEmpty_eq hrest ▸ hne
          cases hprevious
          rw [checkAfter, if_neg hne']
          exact ih (.inserted _ _) hrest

end Chain

/-! ## Folding -/

/-- What a gap does depends on its operator only. -/
theorem Gap.op_eq_and_level_eq {g g' : Gap} (h : g.map Prod.fst = g'.map Prod.fst) :
    g.op = g'.op ∧ g.level = g'.level := by
  rcases g with _ | ⟨op, span⟩ <;> rcases g' with _ | ⟨op', span'⟩ <;> cases h <;> exact ⟨rfl, rfl⟩

namespace Row

/-- The gaps have the same operator, or both have none, and the operands after them correspond. -/
structure EntryMoved (R : Glyph → Glyph → Prop) (p p' : Gap × Operand K) : Prop where
  gap : p.1.map Prod.fst = p'.1.map Prod.fst
  operand : p.2.Moved R p'.2

/-- The rows have corresponding operands and the same operators between them. -/
structure Moved (R : Glyph → Glyph → Prop) (r r' : Row K) : Prop where
  head : r.head.Moved R r'.head
  tail : List.Forall₂ (EntryMoved R) r.tail r'.tail

/-- Rows whose chains correspond have corresponding gaps and operands. -/
theorem forall₂_of_aligned {t t' : List (Gap × Operand K)}
    (h : Chain.Aligned R .operand (tailLinks t) (tailLinks t')) :
    List.Forall₂ (EntryMoved R) t t' := by
  induction t generalizing t' with
  | nil =>
      match t' with
      | [] => exact .nil
      | (none, _) :: _ => cases h
      | (some _, _) :: _ => cases h
  | cons p t ih =>
      obtain ⟨g, x⟩ := p
      -- an operator of either kind comes before its operand
      have hoperand {before : Before} {y : Operand K} {t' : List (Gap × Operand K)}
          (h : Chain.Aligned R before (.operand x :: tailLinks t) (.operand y :: tailLinks t')) :
          x.Moved R y ∧ List.Forall₂ (EntryMoved R) t t' := by
        obtain ⟨_, _, heq, hx, hrest⟩ := Chain.exists_of_aligned_operand h
        cases heq
        exact ⟨hx, ih hrest⟩
      -- the gaps have the same form, since an operand never corresponds to an operator
      match g, t' with
      | none, [] => cases h
      | none, (some (_, _), _) :: _ =>
        cases h with
        | item hlink => cases hlink
      | none, (none, y) :: t' =>
        obtain ⟨hx, ht⟩ := hoperand h
        exact .cons ⟨rfl, hx⟩ ht
      | some (_, _), [] => cases h
      | some (_, _), (none, _) :: _ =>
        cases h with
        | item hlink => cases hlink
      | some (op, span), (some (op', span'), y) :: t' =>
        cases h with
        | item hlink => cases hlink
        | operator _ _ hrest =>
            obtain ⟨hx, ht⟩ := hoperand hrest
            exact .cons ⟨rfl, hx⟩ ht
        | inserted hrest =>
            obtain ⟨hx, ht⟩ := hoperand hrest
            exact .cons ⟨rfl, hx⟩ ht

/-- Rows whose chains correspond do so themselves. -/
theorem moved_of_aligned {before : Before} {r r' : Row K}
    (h : Chain.Aligned R before r.chain r'.chain) : r.Moved R r' := by
  obtain ⟨_, _, heq, hx, hrest⟩ := Chain.exists_of_aligned_operand h
  cases heq
  exact ⟨hx, forall₂_of_aligned hrest⟩

variable {d : Nat}

/-- Folding does not look at places. -/
theorem agrees_foldFrom (n : Nat) {x x' : Operand K} {t t' : List (Gap × Operand K)}
    (hx : x.Moved R x') (ht : List.Forall₂ (EntryMoved R) t t') :
    Agrees R (Moved R) (foldFrom (fun g => g.level == n) d x t)
      (foldFrom (fun g => g.level == n) d x' t') := by
  induction ht generalizing x x' with
  | nil => exact .ok ⟨hx, .nil⟩
  | @cons p p' t t' hp ht ih =>
      obtain ⟨g, y⟩ := p
      obtain ⟨g', y'⟩ := p'
      obtain ⟨hgap, hy⟩ := hp
      obtain ⟨hop, hlevel⟩ := Gap.op_eq_and_level_eq hgap
      rw [foldFrom, foldFrom, hlevel, hop]
      split
      · exact ((hx.apply hy g'.op).limit d).bind fun z z' hz => ih hz
      · refine (ih hy).map fun r r' hr => ⟨hx, .cons ⟨hgap, hr.head⟩ hr.tail⟩

/-- Applying the operators of all levels does not look at places. -/
theorem agrees_applyLevels (n : Nat) {r r' : Row K} (h : r.Moved R r') :
    Agrees R (Moved R) (r.applyLevels d n) (r'.applyLevels d n) := by
  induction n with
  | zero => exact .ok h
  | succ n ih => exact ih.bind fun r r' hr => agrees_foldFrom (n + 1) hr.head hr.tail

end Row

namespace Chain

variable [Scalar K] {c c' : Chain K} {d : Nat}

/-- What the sign step and the check let pass is a row, which comes down to one operand. -/
theorem exists_row_of_check {c₁ : Chain K} (hne : c ≠ []) (hsigns : applySigns d c = .ok c₁)
    (hcheck : check c₁ = .ok ()) :
    ∃ r : Row K, r.chain = c₁ ∧ ∀ r', r.applyLevels d 4 = .ok r' → r'.tail = [] := by
  obtain ⟨s, rfl⟩ := exists_sentence_of_check hne hsigns hcheck
  obtain ⟨e, he⟩ := s.exists_reads
  obtain ⟨s', hchain, -, hfold⟩ := he.exists_foldsTo d
  rw [← hchain, applySigns_chain] at hsigns
  obtain ⟨r, hr, rfl⟩ := map_eq_ok_iff.mp hsigns
  exact ⟨r, rfl, fun r' hr' => (hfold r' (bind_eq_ok_iff.mpr ⟨r, hr, hr'⟩)).1⟩

/-- Resolving a chain does not look at places. -/
theorem agrees_toOperand (h : Chain.Aligned R .start c c') (span span' : Span) :
    Agrees R (Operand.Moved R) (toOperand d span c) (toOperand d span' c') := by
  obtain ⟨hne, hne'⟩ := h.ne_nil
  refine (agrees_applySignsAfter .start h).bind_of_eq fun c₁ c₁' hsigns hsigns' h₁ => ?_
  refine (agrees_checkAfter .start h₁).bind_of_eq fun _ _ hcheck hcheck' _ => ?_
  obtain ⟨r, rfl, hr⟩ := exists_row_of_check hne hsigns hcheck
  obtain ⟨r', rfl, hr'⟩ := exists_row_of_check hne' hsigns' hcheck'
  rw [applyOperators_chain, applyOperators_chain, bind_of_map, bind_of_map]
  refine (Row.agrees_applyLevels 4 (Row.moved_of_aligned h₁)).bind_of_eq fun a a' ha ha' haa' => ?_
  -- both rows come down to one operand
  obtain ⟨x, tail⟩ := a
  obtain ⟨x', tail'⟩ := a'
  obtain rfl : tail = [] := hr _ ha
  obtain rfl : tail' = [] := hr' _ ha'
  exact .ok haa'.head

end Chain

/-! ## Segments -/

/-- What comes after the numerals were split off does not look at places either. -/
theorem Fragment.agrees_toOperand_of_readNumerals [Scalar K] [Literal K] {d : Nat}
    {fs fs' : List (Fragment K)}
    (h : Agrees R (Fragment.Aligned R .start) (readNumerals fs) (readNumerals fs'))
    (span span' : Span) :
    Agrees R (Operand.Moved R) (toOperand d span fs) (toOperand d span' fs') := by
  refine h.bind fun gs gs' hgs => ?_
  refine (agrees_readCalls hgs).bind fun gs gs' hgs => ?_
  exact (agrees_toLinks hgs).bind fun c c' hc => Chain.agrees_toOperand hc span span'

theorem Fragment.agrees_toOperand [Scalar K] [Literal K] {d : Nat} {fs fs' : List (Fragment K)}
    (h : List.Forall₂ (Written R) fs fs') (hne : fs ≠ []) (span span' : Span) :
    Agrees R (Operand.Moved R) (toOperand d span fs) (toOperand d span' fs') :=
  agrees_toOperand_of_readNumerals (agrees_readNumerals .start h (fun _ => hne) (by simp)) _ _

namespace Segment

variable [Scalar K] [Literal K] {d : Nat}

/-- No segment is lost on the way to the fragments. -/
theorem ne_nil_of_toFragments {ss : List Segment} {fs : List (Fragment K)} (hne : ss ≠ [])
    (h : toFragments d ss = .ok fs) : fs ≠ [] := by
  cases ss with
  | nil => exact absurd rfl hne
  | cons s ss =>
      rw [toFragments] at h
      obtain ⟨f, -, h⟩ := bind_eq_ok_iff.mp h
      obtain ⟨fs, -, h⟩ := bind_eq_ok_iff.mp h
      cases h
      exact List.cons_ne_nil f fs

mutual

/-- A group is read by its segments, which correspond, and takes the place of its parentheses. -/
theorem agrees_toFragment {s s' : Segment} (h : s.Moved R s') :
    Agrees R (Fragment.Written (K := K) R) (toFragment d s) (toFragment d s') := by
  match s, s', h with
  | _, _, .raw hne htext =>
    rw [toFragment, toFragment]
    exact .ok (.item (.raw hne htext))
  | _, _, .operator op hspan =>
    rw [toFragment, toFragment]
    exact .ok (.operator op hspan)
  | .group ss a, .group ss' b, .group hne hss hspan =>
    rw [toFragment, toFragment]
    refine (agrees_toFragments hss).bind_of_eq fun fs fs' hfs _ h => ?_
    refine (Fragment.agrees_toOperand h (ne_nil_of_toFragments hne hfs) _ _).bind fun x y hx => ?_
    exact .ok (.item (.group ⟨hx.expr_eq, hx.depth_eq, hspan⟩))

/-- Lists of corresponding segments become lists of corresponding fragments. -/
theorem agrees_toFragments {ss ss' : List Segment} (h : List.Forall₂ (Segment.Moved R) ss ss') :
    Agrees R (List.Forall₂ (Fragment.Written (K := K) R)) (toFragments d ss)
      (toFragments d ss') := by
  match ss, ss', h with
  | [], [], .nil =>
    rw [toFragments]
    exact .ok .nil
  | s :: ss, s' :: ss', .cons hs hss =>
    rw [toFragments, toFragments]
    refine (agrees_toFragment hs).bind fun f f' hf => ?_
    exact (agrees_toFragments hss).bind fun fs fs' hfs => .ok (.cons hf hfs)

end

/-- Corresponding segments are read as corresponding operands, wherever the list of them stands. -/
theorem agrees_toOperand {ss ss' : List Segment} (h : List.Forall₂ (Segment.Moved R) ss ss')
    (hne : ss ≠ []) (span span' : Span) :
    Agrees R (Operand.Moved (K := K) R) (toOperand d span ss) (toOperand d span' ss') :=
  (agrees_toFragments h).bind_of_eq fun _ _ hfs _ h =>
    Fragment.agrees_toOperand h (ne_nil_of_toFragments hne hfs) span span'

end Segment

end SymbolicCalculus
