import SymbolicCalculus.Proofs.Grammar.Blocks
import SymbolicCalculus.Proofs.Grammar.Relocation
import SymbolicCalculus.Proofs.Grammar.WhiteSpace

/-!
# Reading is traced to the source

Every step of reading makes things out of blocks of visible glyphs, next to each other in the order
of the source, and its errors point at such blocks. An inserted multiplication is never pointed at,
since it stands between two operands, and a chain that is let pass comes down to one operand.

So what a source is read as was read from all its visible glyphs, and an error points into them
(`traced_parseOperand`).
-/

namespace SymbolicCalculus

variable {K : Type}

/-! ## Kinds of glyphs -/

namespace TokenKind

/-- Only white space has the kind of white space. -/
theorem isWhiteSpace_of_ofChar {c : Char} (h : ofChar c ≠ .whiteSpace) :
    Text.isWhiteSpace c = false := by
  have hspace := Token.isWhiteSpace_single ⟨c, 0⟩
  rw [← hspace]
  exact beq_eq_false_iff_ne.mpr h

end TokenKind

/-! ## Grouping -/

namespace Segment

/-- The segments, the nearest one first, were read from the glyphs. -/
inductive Trail : List Segment → List Glyph → Prop
  | nil : Trail [] []
  | cons {s : Segment} {ss : List Segment} {gs b : List Glyph} : Trail ss gs → s.ReadFrom b →
      Trail (s :: ss) (gs ++ b)

/-- Turned round, the segments were read from blocks that make up the glyphs. -/
theorem Trail.exists_blocks {ss : List Segment} {gs : List Glyph} (h : Trail ss gs) :
    ∃ bs, bs.flatten = gs ∧ List.Forall₂ ReadFrom ss.reverse bs := by
  induction h with
  | nil => exact ⟨[], rfl, .nil⟩
  | @cons s ss gs b _ hs ih =>
      obtain ⟨bs, rfl, hbs⟩ := ih
      refine ⟨bs ++ [b], by simp, ?_⟩
      rw [List.reverse_cons]
      exact List.rel_append hbs (.cons hs .nil)

/-- Raw text that is read next belongs to the glyphs, in a new segment or in the one before. -/
theorem Trail.pushRaw {ss : List Segment} {gs text : List Glyph} (h : Trail ss gs)
    (hne : text ≠ []) (hraw : IsRaw text) : Trail (pushRaw text ss) (gs ++ text) := by
  have hfresh : Trail (.raw text :: ss) (gs ++ text) := .cons h (.raw hne hraw)
  cases h with
  | nil => exact hfresh
  | cons hss hs =>
      -- only raw text is joined
      cases hs with
      | operator | group => exact hfresh
      | @raw previous hne' hraw' =>
          rw [List.append_assoc]
          refine .cons hss (.raw (by simp [hne']) fun g hg => ?_)
          exact (List.mem_append.mp hg).elim (hraw' g) (hraw g)

/-- The groups that are open and the segments read since the last one was opened were read from the
glyphs. -/
inductive Stacked : List OpenGroup → List Segment → List Glyph → Prop
  | base {ss : List Segment} {gs : List Glyph} : Trail ss gs → Stacked [] ss gs
  | inside {groups : List OpenGroup} {before ss : List Segment} {outer inner : List Glyph}
      {opening : Glyph} : Stacked groups before outer → opening.char = '(' → Trail ss inner →
      Stacked (⟨before, opening.span⟩ :: groups) ss (outer ++ opening :: inner)

/-- What is read next goes on top of the stack. -/
theorem Stacked.push {groups : List OpenGroup} {ss ss' : List Segment} {gs b : List Glyph}
    (h : Stacked groups ss gs) (hpush : ∀ gs, Trail ss gs → Trail ss' (gs ++ b)) :
    Stacked groups ss' (gs ++ b) := by
  cases h with
  | base hss => exact .base (hpush _ hss)
  | inside houter ho hss =>
      rw [List.append_assoc, List.cons_append]
      exact .inside houter ho (hpush _ hss)

theorem span_of_char_eq {g : Glyph} {c : Char} (h : g.char = c) (hsize : c.utf8Size = 1) :
    Glyph.cover [g] = ⟨g.span.start, g.span.start + 1⟩ := by
  rw [Glyph.cover_singleton, Glyph.span, h, hsize]

/-- Grouping makes segments of all the glyphs that are read, or points at a parenthesis that does
not match, at an empty pair or at one that is nested too deep. -/
theorem traced_collect {n : Nat} {groups : List OpenGroup} {segments : List Segment}
    {read rest : List Glyph} (h : Stacked groups segments read)
    (hvisible : ∀ g ∈ rest, Text.isWhiteSpace g.char = false) :
    Traced (read ++ rest)
      (fun ss => ∃ bs, bs.flatten = read ++ rest ∧ List.Forall₂ ReadFrom ss bs)
      (collect n groups segments (rest.map Token.single)) := by
  -- on the glyphs yet to be read, for any stack of open groups
  induction rest generalizing groups segments read with
  | nil =>
      rw [List.append_nil]
      cases h with
      | base hss => exact .ok hss.exists_blocks
      -- the group that was opened last is still open
      | @inside _ _ _ outer inner opening _ ho _ =>
          have hcover := span_of_char_eq ho rfl
          rw [List.map_nil, collect, ← hcover]
          exact .atSpan (List.cons_ne_nil opening []) ⟨outer, inner, by simp⟩
            (congrArg (· :: []) ho)
  | cons g rest ih =>
      obtain ⟨hg, hrest⟩ := List.forall_mem_cons.mp hvisible
      have hgo {groups segments} (h : Stacked groups segments (read ++ [g])) :=
        ih h hrest
      rw [List.append_assoc, List.singleton_append] at hgo
      have hnext : [g] <:+: read ++ g :: rest := ⟨read, rest, by simp⟩
      rw [List.map_cons, collect_cons]
      cases hkind : (Token.single g).kind with
      | whiteSpace => exact absurd hkind (Token.kind_single_ne_whiteSpace hg)
      | raw =>
          refine hgo (h.push fun gs hss => hss.pushRaw (List.cons_ne_nil g []) ?_)
          exact List.forall_mem_singleton.mpr hkind
      | operator op => exact hgo (h.push fun gs hss => .cons hss (.operator hkind))
      | openParen =>
          have ho := TokenKind.ofChar_eq_openParen hkind
          dsimp only
          split
          · exact .atSpan (List.cons_ne_nil g []) hnext (congrArg (· :: []) ho)
          · exact hgo (.inside h ho .nil)
      -- no group is open, or the last one is closed, which may have nothing in it
      | closeParen =>
          have hc := TokenKind.ofChar_eq_closeParen hkind
          cases h with
          | base hss =>
              exact .atSpan (List.cons_ne_nil g []) hnext (congrArg (· :: []) hc)
          | @inside groups before _ outer inner opening houter ho hss =>
              dsimp only
              split
              · next hempty =>
                obtain rfl := List.isEmpty_iff.mp hempty
                cases hss
                have hboth : [opening, g] <:+: outer ++ [opening] ++ g :: rest :=
                  ⟨outer, rest, by simp⟩
                exact .atSpan (List.cons_ne_nil opening [g]) hboth ⟨[], by simp [ho, hc], by simp⟩
              · next hempty =>
                obtain ⟨bs, rfl, hbs⟩ := hss.exists_blocks
                have hgroup : ReadFrom (.group segments.reverse (opening.span.through g.span))
                    (opening :: bs.flatten ++ [g]) := .group ho hc (by simpa using hempty) hbs
                refine hgo ?_
                rw [List.append_assoc]
                exact houter.push fun gs hbefore => .cons hbefore hgroup

/-- Grouping the tokens of a source reads all its visible glyphs. -/
theorem traced_ofTokens (n : Nat) (source : String) :
    Traced (Glyph.visible source)
      (fun ss => ∃ bs, bs.flatten = Glyph.visible source ∧ List.Forall₂ ReadFrom ss bs)
      (ofTokens n (Token.significant source)) := by
  have hvisible : ∀ g ∈ Glyph.visible source, Text.isWhiteSpace g.char = false :=
    fun _ => Glyph.isWhiteSpace_of_mem_visible
  rw [ofTokens_visible]
  exact traced_collect (.base .nil) hvisible

end Segment

/-! ## Operands -/

variable [Scalar K] [Literal K] {d : Nat}

/-- An operand that is too deep is pointed at as a whole. -/
theorem Operand.ReadFrom.traced_limit {x : Operand K} {gs : List Glyph} (h : x.ReadFrom gs) :
    Traced gs (fun y => y.ReadFrom gs) (x.limit d) := by
  obtain ⟨hne, hspan⟩ := h.span_eq
  unfold Operand.limit
  split
  · rw [hspan]
    exact .atSpan hne (List.infix_refl gs) trivial
  · exact .ok h

/-! ## Numbers and names -/

namespace Fragment

/-- The text that is named as invalid is the one that stands there, without white space. -/
theorem seenIn_invalidToken {text : List Glyph} (h : Segment.IsRaw text) :
    (ParseError.invalidToken (Glyph.text text)).SeenIn (text.map Glyph.char) := by
  have hvisible : (text.map Glyph.char).filter (fun c => !Text.isWhiteSpace c) =
      text.map Glyph.char := by
    refine List.filter_eq_self.mpr fun c hc => ?_
    obtain ⟨g, hg, rfl⟩ := List.mem_map.mp hc
    rw [TokenKind.isWhiteSpace_of_ofChar (by rw [h g hg]; simp)]
    rfl
  rw [ParseError.SeenIn, hvisible, Glyph.text, String.toList_ofList]

/-- A numeral becomes a number, or is pointed at. -/
theorem traced_ofNumeral {text : List Glyph} (hne : text ≠ []) (hraw : Segment.IsRaw text) :
    Traced text (fun f : Fragment K => f.ReadFrom text) (ofNumeral text) := by
  unfold ofNumeral
  dsimp only
  split
  · next digits places h => exact .ok (.operand (.number hne h))
  · exact .atSpan hne (List.infix_refl text) (seenIn_invalidToken hraw)

/-- What a text is split into may stand anywhere in a list, and comes before what an operand comes
before. -/
theorem traced_ofText {text : List Glyph} (hne : text ≠ []) (hraw : Segment.IsRaw text) :
    Traced text (fun fs : List (Fragment K) => ∀ before rest gs, Fragment.Laid .operand rest gs →
      Fragment.Laid before (fs ++ rest) (text ++ gs)) (ofText text) := by
  induction text using ofText.induct with
  | case1 => exact absurd rfl hne
  | case2 g gs hlength =>
      rw [ofText, hlength]
      exact .ok fun before rest hs hrest => .item (.raw hne hraw) hrest
  | case3 g gs n hlength ih =>
      have hsplit : g :: gs = (g :: gs.take n) ++ gs.drop n := by simp
      have hnumeral : Segment.IsRaw (g :: gs.take n) := fun g' hg' =>
        hraw g' (by rw [hsplit]; exact List.mem_append_left _ hg')
      rw [ofText, hlength]
      dsimp only
      have hfront : g :: gs.take n <:+: g :: gs := ⟨[], gs.drop n, hsplit.symm⟩
      have hback : gs.drop n <:+: g :: gs := ⟨g :: gs.take n, [], by simp⟩
      refine ((traced_ofNumeral (List.cons_ne_nil g _) hnumeral).widen hfront).bind fun f hf => ?_
      -- a numeral at the end stands alone, any other has a multiplication inserted after it
      by_cases hempty : gs.drop n = []
      · rw [hempty, ofText]
        rw [hempty, List.append_nil] at hsplit
        rw [hsplit]
        exact .ok fun before rest hs hrest => .item hf hrest
      · have hrest : Segment.IsRaw (gs.drop n) := fun g' hg' =>
          hraw g' (List.mem_cons_of_mem g (List.mem_of_mem_drop hg'))
        refine ((ih hempty hrest).widen hback).bind fun fs hfs => ?_
        rw [if_neg (by simpa using hempty)]
        refine .ok fun before rest hs hafter => ?_
        rw [hsplit, List.append_assoc]
        exact .item hf (.inserted (hfs .inserted rest hs hafter))

/-- Splitting numerals off leaves fragments that lie in the glyphs, with multiplications inserted
between them. -/
theorem traced_readNumerals (before : Before) {fs : List (Fragment K)} {bs : List (List Glyph)}
    (h : List.Forall₂ WrittenAs fs bs) (hstart : before = .start → fs ≠ [])
    (hinserted : before ≠ .inserted) :
    Traced bs.flatten (fun fs => Fragment.Laid before fs bs.flatten) (readNumerals fs) := by
  induction h generalizing before with
  | nil => exact .ok (.nil (fun h => hstart h rfl) hinserted)
  | @cons f b fs bs hf _ ih =>
      rw [List.flatten_cons]
      have htail : bs.flatten <:+: b ++ bs.flatten := ⟨b, [], by simp⟩
      cases hf with
      | operator hop =>
          refine ((ih .operator (by simp) (by simp)).widen htail).bind fun gs hgs => ?_
          exact .ok (.operator hinserted hop hgs)
      | item hf =>
          have hrest := (ih .operand (by simp) (by simp)).widen htail
          cases hf with
          | raw hne hraw =>
              refine ((traced_ofText hne hraw).widen ⟨[], bs.flatten, by simp⟩).bind
                fun split hsplit => ?_
              exact hrest.bind fun gs hgs => .ok (hsplit before gs _ hgs)
          | group hx => exact hrest.bind fun gs hgs => .ok (.item (.group hx) hgs)
          | operand hx => exact hrest.bind fun gs hgs => .ok (.item (.operand hx) hgs)

/-- A name and the group after it were read from two blocks next to each other. -/
theorem exists_of_laid_call {before : Before} {text gs : List Glyph} {x : Operand K}
    {fs : List (Fragment K)} (h : Fragment.Laid before (raw text :: group x :: fs) gs) :
    ∃ hs rest, gs = text ++ (hs ++ rest) ∧ text ≠ [] ∧ Segment.IsRaw text ∧ x.ReadFrom hs ∧
      Fragment.Laid .operand fs rest := by
  cases h with
  | item hraw hrest =>
  cases hraw with
  | raw hne hraw =>
  cases hrest with
  | item hgroup hrest =>
  cases hgroup with
  | group hx => exact ⟨_, _, rfl, hne, hraw, hx, hrest⟩

/-- A call was read from the glyphs of its name and those of its group. -/
theorem traced_readCalls {before : Before} {fs : List (Fragment K)} {gs : List Glyph}
    (h : Fragment.Laid before fs gs) :
    Traced gs (fun fs => Fragment.Laid before fs gs) (readCalls d fs) := by
  fun_induction readCalls d fs generalizing before gs with
  | case1 => exact .ok h
  | case2 text x fs f hname ih =>
      obtain ⟨hs, rest, rfl, hne, hraw, hx, hrest⟩ := exists_of_laid_call h
      have hcall := (Operand.ReadFrom.call hne hname hx).traced_limit (d := d)
      refine (hcall.widen ⟨[], rest, by simp⟩).bind fun z hz => ?_
      refine ((ih hrest).widen ⟨text ++ hs, [], by simp⟩).bind fun fs hfs => ?_
      rw [← List.append_assoc]
      exact .ok (.item (.operand hz) hfs)
  | case3 text x fs hname ih =>
      obtain ⟨hs, rest, rfl, hne, hraw, hx, hrest⟩ := exists_of_laid_call h
      refine ((ih hrest).widen ⟨text ++ hs, [], by simp⟩).bind fun fs hfs => ?_
      exact .ok (.item (.raw hne hraw) (.item (.group hx) hfs))
  -- no call begins here, so the fragment stays as it is
  | case4 f fs hno ih =>
      cases h with
      | @operator _ _ g _ gs hinserted hop hrest =>
          refine ((ih hrest).widen ⟨[g], [], by simp⟩).bind fun fs hfs => ?_
          exact .ok (.operator hinserted hop hfs)
      | inserted hrest => exact (ih hrest).bind fun fs hfs => .ok (.inserted hfs)
      | @item _ _ _ gs hs hf hrest =>
          refine ((ih hrest).widen ⟨gs, [], by simp⟩).bind fun fs hfs => ?_
          exact .ok (.item hf hfs)

/-- The texts that are left become operands, if they are names. -/
theorem ReadFrom.traced_toLink {f : Fragment K} {gs : List Glyph} (h : f.ReadFrom gs) :
    Traced gs (fun link : Link K => link.ReadFrom gs) f.toLink := by
  cases h with
  | group hx => exact .ok (.operand hx)
  | operand hx => exact .ok (.operand hx)
  | raw hne hraw =>
      rw [toLink]
      split
      · next e he => exact .ok (.operand (.name hne he))
      · exact .atSpan hne (List.infix_refl _) (seenIn_invalidToken hraw)

/-- The chain lies in the glyphs as the fragments do. -/
theorem traced_toLinks {before : Before} {fs : List (Fragment K)} {gs : List Glyph}
    (h : Fragment.Laid before fs gs) :
    Traced gs (fun c => Chain.Laid before c gs) (fs.mapM toLink) := by
  induction h with
  | nil hstart hinserted => exact .ok (.nil hstart hinserted)
  | @item _ f _ gs hs hf _ ih =>
      rw [List.mapM_cons]
      refine (hf.traced_toLink.widen ⟨[], hs, by simp⟩).bind fun link hlink => ?_
      exact (ih.widen ⟨gs, [], by simp⟩).bind fun c hc => .ok (.item hlink hc)
  | @operator _ _ g _ gs hinserted hop _ ih =>
      rw [List.mapM_cons]
      exact (ih.widen ⟨[g], [], by simp⟩).bind fun c hc => .ok (.operator hinserted hop hc)
  | inserted _ ih =>
      rw [List.mapM_cons]
      exact ih.bind fun c hc => .ok (.inserted hc)

end Fragment

/-! ## Misplaced operators -/

/-- The link before a chain was read from the glyphs before it, if it is an operator that was
written. -/
inductive Follows : Before → Option (Link K) → List Glyph → Prop
  | start : Follows .start none []
  | operand (x : Operand K) : Follows .operand (some (.operand x)) []
  | operator {op : Operator} {g : Glyph} : TokenKind.ofChar g.char = .operator op →
      Follows .operator (some (.operator op g.span)) [g]
  | inserted (a : Span) : Follows .inserted (some (.operator .mul a)) []

namespace Chain

variable {before : Before} {c : Chain K} {gs : List Glyph}

/-- An operand at the front of a chain was read from the glyphs at the front. -/
theorem exists_of_laid_operand {x : Operand K} (h : Chain.Laid before (.operand x :: c) gs) :
    ∃ hs rest, gs = hs ++ rest ∧ x.ReadFrom hs ∧ Chain.Laid .operand c rest := by
  cases h with
  | item hlink hrest =>
  cases hlink with
  | operand hx => exact ⟨_, _, rfl, hx, hrest⟩

/-- Only multiplications are inserted, and only after operands. -/
theorem exists_of_laid_operator {op : Operator} {a : Span}
    (h : Chain.Laid before (.operator op a :: c) gs) (hwritten : op = .mul → before ≠ .operand) :
    ∃ g rest, gs = g :: rest ∧ a = g.span ∧ before ≠ .inserted ∧
      TokenKind.ofChar g.char = .operator op ∧ Chain.Laid .operator c rest := by
  cases h with
  | item hlink => cases hlink
  | operator hinserted hop hrest => exact ⟨_, _, rfl, rfl, hinserted, hop, hrest⟩
  | inserted => exact absurd rfl (hwritten rfl)

theorem seenIn_missingOperand (leading : Bool) {g : Glyph} {op : Operator}
    (h : TokenKind.ofChar g.char = .operator op) :
    (ParseError.missingOperand leading).SeenIn ([g].map Glyph.char) := ⟨g.char, op, rfl, h⟩

theorem seenIn_adjacentOperators {g g' : Glyph} {op op' : Operator}
    (h : TokenKind.ofChar g.char = .operator op) (h' : TokenKind.ofChar g'.char = .operator op') :
    ParseError.adjacentOperators.SeenIn ([g, g'].map Glyph.char) :=
  ⟨g.char, op, [], g'.char, op', rfl, h, h', List.forall_mem_nil _⟩

/-- The sign step joins the glyph of a sign with those of its operand. Its errors point at written
signs, since nothing that is inserted is a minus. -/
theorem traced_applySignsAfter {previous : Option (Link K)} (h : Chain.Laid before c gs) :
    Traced gs (fun c => Chain.Laid before c gs) (applySignsAfter d previous c) := by
  fun_induction applySignsAfter d previous c generalizing before gs with
  | case1 => exact .ok h
  | case2 previous sign x rest _ ih =>
      obtain ⟨g, gs, rfl, rfl, -, hop, h⟩ := exists_of_laid_operator h (by simp)
      obtain ⟨hs, gs, rfl, hx, hrest⟩ := exists_of_laid_operand h
      have hnegated := (Operand.ReadFrom.negated hop hx).traced_limit (d := d)
      refine (hnegated.widen ⟨[], gs, by simp⟩).bind fun z hz => ?_
      refine ((ih z hrest).widen ⟨g :: hs, [], by simp⟩).bind fun c hc => ?_
      rw [← List.cons_append]
      exact .ok (.item (.operand hz) hc)
  | case3 previous sign op span rest _ =>
      obtain ⟨g, gs, rfl, rfl, -, hop, h⟩ := exists_of_laid_operator h (by simp)
      obtain ⟨g', gs, rfl, rfl, -, hop', -⟩ := exists_of_laid_operator h (by simp)
      exact .atSpan (List.cons_ne_nil g [g']) ⟨[], gs, rfl⟩ (seenIn_adjacentOperators hop hop')
  | case4 previous sign _ =>
      obtain ⟨g, gs, rfl, rfl, -, hop, -⟩ := exists_of_laid_operator h (by simp)
      exact .atSpan (List.cons_ne_nil g []) ⟨[], gs, rfl⟩ (seenIn_missingOperand _ hop)
  | case5 previous sign rest _ ih =>
      obtain ⟨g, gs, rfl, rfl, hinserted, hop, hrest⟩ := exists_of_laid_operator h (by simp)
      refine ((ih hrest).widen ⟨[g], [], by simp⟩).bind fun c hc => ?_
      exact .ok (.operator hinserted hop hc)
  -- no sign begins here
  | case6 previous link rest _ ih =>
      cases h with
      | @item _ _ _ gs hs hlink hrest =>
          refine ((ih hrest).widen ⟨gs, [], by simp⟩).bind fun c hc => ?_
          exact .ok (.item hlink hc)
      | @operator _ _ g _ gs hinserted hop hrest =>
          refine ((ih hrest).widen ⟨[g], [], by simp⟩).bind fun c hc => ?_
          exact .ok (.operator hinserted hop hc)
      | inserted hrest => exact (ih hrest).bind fun c hc => .ok (.inserted hc)

/-- An error of the check may point at the operator before the chain. -/
theorem traced_checkAfter {previous : Option (Link K)} {read : List Glyph}
    (hprevious : Follows before previous read) (h : Chain.Laid before c gs) :
    Traced (read ++ gs) (fun _ => True) (checkAfter previous c) := by
  fun_induction checkAfter previous c generalizing before read gs with
  | case1 => exact .ok trivial
  | case2 previous x rest ih =>
      obtain ⟨hs, gs, rfl, -, hrest⟩ := exists_of_laid_operand h
      exact (ih (.operand x) hrest).widen ⟨read ++ hs, [], by simp⟩
  -- an operator without an operand before it was written, since none is inserted there
  | case3 op span rest _ =>
      cases hprevious
      obtain ⟨g, gs, rfl, rfl, -, hop, -⟩ := exists_of_laid_operator h (by simp)
      exact .atSpan (List.cons_ne_nil g []) ⟨[], gs, rfl⟩ (seenIn_missingOperand _ hop)
  | case4 op span rest _ ih =>
      cases hprevious
      obtain ⟨g, gs, rfl, rfl, -, hop, hrest⟩ := exists_of_laid_operator h (by simp)
      have hnext := ih (.operator hop) hrest
      exact hnext
  | case5 op span rest link hempty =>
      obtain rfl := List.isEmpty_iff.mp hempty
      cases h with
      | item hlink => cases hlink
      | @operator _ _ g _ gs _ hop _ =>
          exact .atSpan (List.cons_ne_nil g []) ⟨read, gs, by simp⟩ (seenIn_missingOperand _ hop)
      | inserted hrest =>
          -- an operand comes after a multiplication that was inserted
          cases hrest with
          | nil _ hinserted => exact absurd rfl hinserted
  -- neither of two neighbouring operators was inserted
  | case6 op span rest _ op' span' =>
      cases hprevious with
      | @operator _ g hop =>
          obtain ⟨g', gs, rfl, rfl, -, hop', -⟩ := exists_of_laid_operator h (by simp)
          exact .atSpan (List.cons_ne_nil g [g']) ⟨[], gs, rfl⟩ (seenIn_adjacentOperators hop hop')
      | inserted =>
          obtain ⟨_, _, -, -, hinserted, -⟩ := exists_of_laid_operator h (by simp)
          exact absurd rfl hinserted
  | case7 op span rest _ x ih =>
      cases hprevious
      cases h with
      | item hlink => cases hlink
      | operator _ hop hrest =>
          have hnext := ih (.operator hop) hrest
          exact hnext
      | inserted hrest => exact ih (.inserted _) hrest

end Chain

/-! ## Folding -/

namespace Row

/-- The operands of the tail and the gaps before them were read from blocks that follow one
another. -/
inductive TailFrom : List (Gap × Operand K) → List Glyph → Prop
  | nil : TailFrom [] []
  | cons {g : Gap} {x : Operand K} {t : List (Gap × Operand K)} {mid hs gs : List Glyph} :
      g.op.Between mid → x.ReadFrom hs → TailFrom t gs → TailFrom ((g, x) :: t) (mid ++ (hs ++ gs))

/-- The row was read from the glyphs. -/
def ReadFrom (r : Row K) (gs : List Glyph) : Prop :=
  ∃ hs rest, gs = hs ++ rest ∧ r.head.ReadFrom hs ∧ TailFrom r.tail rest

/-- The tail of a row lies in the glyphs as its links do. -/
theorem tailFrom_of_laid {t : List (Gap × Operand K)} {gs : List Glyph}
    (h : Chain.Laid .operand (tailLinks t) gs) : TailFrom t gs := by
  induction t generalizing gs with
  | nil =>
      cases h with
      | nil => exact .nil
  | cons p t ih =>
      obtain ⟨g, x⟩ := p
      have hcons {before : Before} {mid gs : List Glyph} (hmid : g.op.Between mid)
          (h : Chain.Laid before (.operand x :: tailLinks t) gs) :
          TailFrom ((g, x) :: t) (mid ++ gs) := by
        obtain ⟨hs, rest, rfl, hx, hrest⟩ := Chain.exists_of_laid_operand h
        exact .cons hmid hx (ih hrest)
      -- a gap is nothing, a written operator or an inserted multiplication
      match g with
      | none => exact hcons .nothing h
      | some (op, span) =>
        cases h with
        | item hlink => cases hlink
        | operator _ hop hrest => exact hcons (.glyph hop) hrest
        | inserted hrest => exact hcons .nothing hrest

/-- Folding joins the blocks of two operands and of what stands between them. -/
theorem traced_foldFrom {tier : Gap → Bool} {x : Operand K} {t : List (Gap × Operand K)}
    {hs gs : List Glyph} (hx : x.ReadFrom hs) (ht : TailFrom t gs) :
    Traced (hs ++ gs) (fun r => r.ReadFrom (hs ++ gs)) (foldFrom tier d x t) := by
  induction ht generalizing x hs with
  | nil => exact .ok ⟨hs, [], rfl, hx, .nil⟩
  | @cons g y t mid ys gs hmid hy ht ih =>
      rw [foldFrom]
      split
      -- the operator belongs to the tier and is applied
      · have happly := (Operand.ReadFrom.apply hmid hx hy).traced_limit (d := d)
        refine (happly.widen ⟨[], gs, by simp⟩).bind fun z hz => ?_
        have hrest := ih hz
        simpa only [List.append_assoc] using hrest
      · refine ((ih hy).widen ⟨hs ++ mid, [], by simp⟩).map fun r hr => ?_
        obtain ⟨zs, rest, hgs, hhead, htail⟩ := hr
        exact ⟨hs, mid ++ (ys ++ gs), rfl, hx, hgs ▸ .cons hmid hhead htail⟩

/-- Any number of levels leaves a row that was read from the same glyphs. -/
theorem ReadFrom.traced_applyLevels {r : Row K} {gs : List Glyph} (h : r.ReadFrom gs) (n : Nat) :
    Traced gs (fun r => r.ReadFrom gs) (r.applyLevels d n) := by
  induction n with
  | zero => exact .ok h
  | succ n ih =>
      refine ih.bind fun r hr => ?_
      obtain ⟨hs, rest, rfl, hx, ht⟩ := hr
      exact traced_foldFrom hx ht

end Row

/-- A chain that lies in the glyphs is read as an operand from all of them. -/
theorem Chain.traced_toOperand {c : Chain K} {gs : List Glyph} (h : Chain.Laid .start c gs)
    (span : Span) : Traced gs (fun x : Operand K => x.ReadFrom gs) (toOperand d span c) := by
  have hne : c ≠ [] := h.ne_nil
  refine (traced_applySignsAfter h).bind_of_eq fun c₁ hsigns h₁ => ?_
  refine (traced_checkAfter .start h₁).bind_of_eq fun _ hcheck _ => ?_
  obtain ⟨r, rfl, hr⟩ := exists_row_of_check hne hsigns hcheck
  obtain ⟨hs, rest, rfl, hx, hrest⟩ := exists_of_laid_operand h₁
  have hrow : r.ReadFrom (hs ++ rest) := ⟨hs, rest, rfl, hx, Row.tailFrom_of_laid hrest⟩
  rw [applyOperators_chain, bind_of_map]
  refine (hrow.traced_applyLevels 4).bind_of_eq fun a ha hread => ?_
  obtain ⟨zs, zs', hgs, hhead, htail⟩ := hread
  obtain ⟨x, t⟩ := a
  -- what was let pass comes down to one operand, so nothing is left of the row
  obtain rfl : t = [] := hr _ ha
  cases htail
  rw [hgs, List.append_nil]
  exact .ok hhead

/-! ## Segments -/

/-- So is a list of fragments that were written in them. -/
theorem Fragment.traced_toOperand {fs : List (Fragment K)} {bs : List (List Glyph)}
    (h : List.Forall₂ WrittenAs fs bs) (hne : fs ≠ []) (span : Span) :
    Traced bs.flatten (fun x : Operand K => x.ReadFrom bs.flatten) (toOperand d span fs) := by
  refine (traced_readNumerals .start h (fun _ => hne) (by simp)).bind fun fs hfs => ?_
  refine (traced_readCalls hfs).bind fun fs hfs => ?_
  exact (traced_toLinks hfs).bind fun c hc => Chain.traced_toOperand hc span

namespace Segment

mutual

/-- A group was read from its parentheses and what stands between them. -/
theorem traced_toFragment {s : Segment} {gs : List Glyph} (h : s.ReadFrom gs) :
    Traced gs (fun f : Fragment K => f.WrittenAs gs) (toFragment d s) := by
  match s, gs, h with
  | _, _, .raw hne hraw =>
    rw [toFragment]
    exact .ok (.item (.raw hne hraw))
  | _, _, .operator hop =>
    rw [toFragment]
    exact .ok (.operator hop)
  | .group ss _, _, @ReadFrom.group _ bs opening closing ho hc hne hss =>
    rw [toFragment]
    have hinner : bs.flatten <:+: opening :: bs.flatten ++ [closing] :=
      ⟨[opening], [closing], by simp⟩
    refine ((traced_toFragments hss).widen hinner).bind_of_eq fun fs hfs hwritten => ?_
    -- there is something between the parentheses, so the chain has an entry
    have hne' : fs ≠ [] := ne_nil_of_toFragments hne hfs
    refine ((Fragment.traced_toOperand hwritten hne' _).widen hinner).bind fun x hx => ?_
    exact .ok (.item (.group (.group ho hc hx)))

/-- Each fragment was read from the block of its segment. -/
theorem traced_toFragments {ss : List Segment} {bs : List (List Glyph)}
    (h : List.Forall₂ Segment.ReadFrom ss bs) :
    Traced bs.flatten (fun fs : List (Fragment K) => List.Forall₂ Fragment.WrittenAs fs bs)
      (toFragments d ss) := by
  match ss, bs, h with
  | [], _, .nil =>
    rw [toFragments]
    exact .ok .nil
  | s :: ss, b :: bs, .cons hs hss =>
    rw [toFragments, List.flatten_cons]
    refine ((traced_toFragment hs).widen ⟨[], bs.flatten, by simp⟩).bind fun f hf => ?_
    refine ((traced_toFragments hss).widen ⟨b, [], by simp⟩).bind fun fs hfs => ?_
    exact .ok (.cons hf hfs)

end

/-- Segments that were read from blocks of glyphs are read as an operand from all of them. -/
theorem traced_toOperand {ss : List Segment} {bs : List (List Glyph)}
    (h : List.Forall₂ Segment.ReadFrom ss bs) (hne : ss ≠ []) (span : Span) :
    Traced bs.flatten (fun x : Operand K => x.ReadFrom bs.flatten) (toOperand d span ss) :=
  (traced_toFragments h).bind_of_eq fun _ hfs hwritten =>
    Fragment.traced_toOperand hwritten (ne_nil_of_toFragments hne hfs) span

end Segment

/-! ## Sources -/

/-- A source without visible glyphs is refused for being empty. Any other source is read as an
operand from all its visible glyphs, or its error points into them. -/
theorem traced_parseOperand (limits : ParseLimits) (source : String) :
    (Glyph.visible source = [] ∧
      parseOperand (K := K) limits source = .error (.nowhere .emptyInput)) ∨
    Traced (Glyph.visible source) (fun x : Operand K => x.ReadFrom (Glyph.visible source))
      (parseOperand limits source) := by
  unfold parseOperand
  dsimp only
  by_cases hempty : Glyph.visible source = []
  · rw [Token.significant_eq_nil_iff.mpr hempty, hempty]
    exact Or.inl ⟨rfl, rfl⟩
  · have hsegments := Segment.traced_ofTokens limits.nesting source
    refine Or.inr (hsegments.bind_of_eq fun ss hss hblocks => ?_)
    obtain ⟨bs, hflatten, hblocks⟩ := hblocks
    have hne : ss ≠ [] := Segment.ne_nil_of_ofTokens hempty hss
    obtain ⟨first, last, hfirst, hlast⟩ := Token.exists_ends_of_visible hempty
    rw [hfirst, hlast, ← hflatten]
    exact Segment.traced_toOperand hblocks hne _

end SymbolicCalculus
