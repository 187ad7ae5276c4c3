import Mathlib
import SymbolicCalculus.Proofs.Grammar.DepthLimit
import SymbolicCalculus.Proofs.Grammar.Phrases
import SymbolicCalculus.Proofs.Grammar.Relocation

/-!
# Parsing is compositional

A text that is parsed on its own is a phrase (`Phrase.exists_of_parse`), so it is read as the same
expression wherever it stands in parentheses. Three things have to be shown for that.

* What was open and what was read before a text are left alone while the text is read, and the limit
  of nesting only has to make room for what was open (`Segment.collects_of_collect`).
* The text is read alike at the place where it stands (`Segment.agrees_toChain`).
* It is read alike under a higher limit of depth (`Segment.deepens_toChain`).
-/

namespace SymbolicCalculus

open Chain

variable {K : Type}

/-! ## Grouping -/

namespace Segment

/-- The groups that are open and the segments read since then, if the segments `base` stood before
everything that was read. -/
def after (base : List Segment) : List OpenGroup → List Segment → List OpenGroup × List Segment
  | [], segments => ([], segments ++ base)
  | g :: groups, segments =>
    let outer := after base groups g.before
    (⟨outer.2, g.paren⟩ :: outer.1, segments)

variable {base : List Segment}

/-- Segments before everything change nothing about how many groups are open. -/
theorem length_after (groups : List OpenGroup) (segments : List Segment) :
    (after base groups segments).1.length = groups.length := by
  induction groups generalizing segments with
  | nil => rfl
  | cons g groups ih => exact congrArg Nat.succ (ih g.before)

theorem after_cons (groups : List OpenGroup) (s : Segment) (segments : List Segment) :
    after base groups (s :: segments) =
      ((after base groups segments).1, s :: (after base groups segments).2) := by
  cases groups <;> rfl

/-- Raw text goes on top, unless it could continue what stands before everything. -/
theorem after_pushRaw (h : NotRawFirst base) (text : List Glyph) (groups : List OpenGroup)
    (segments : List Segment) : after base groups (pushRaw text segments) =
      ((after base groups segments).1, pushRaw text (after base groups segments).2) := by
  cases groups with
  | cons => rfl
  | nil =>
      refine congrArg (Prod.mk []) ?_
      show pushRaw text segments ++ base = pushRaw text (segments ++ base)
      -- only raw text at the front of `base` would be continued, which is excluded
      match segments, base with
      | [], [] => rfl
      | [], .raw _ :: _ => exact h.elim
      | [], .operator _ _ :: _ => rfl
      | [], .group _ _ :: _ => rfl
      | .raw _ :: _, _ => rfl
      | .operator _ _ :: _, _ => rfl
      | .group _ _ :: _, _ => rfl

/-- Glyphs that are read on their own are read alike inside of other groups and after other
segments. -/
theorem collect_after {n n' : Nat} {gs : List Glyph} {groups outer : List OpenGroup}
    {segments ss : List Segment} (hbase : NotRawFirst base) (hn : outer.length + n ≤ n')
    (h : collect n groups segments (gs.map Token.single) = .ok ss) (ts : List Token) :
    collect n' ((after base groups segments).1 ++ outer) (after base groups segments).2
        (gs.map Token.single ++ ts) = collect n' outer (ss.reverse ++ base) ts := by
  -- induction on the glyphs; every kind of token does to both stacks the same
  induction gs generalizing groups segments with
  | nil =>
      cases groups with
      | cons => cases h
      | nil =>
          cases h
          rw [List.reverse_reverse]
          rfl
  | cons g gs ih =>
      rw [List.map_cons, collect_cons] at h
      rw [List.map_cons, List.cons_append, collect_cons]
      cases hkind : (Token.single g).kind with
      | whiteSpace =>
          rw [hkind] at h
          exact ih h
      | raw =>
          rw [hkind] at h
          have hrest := ih h
          rwa [after_pushRaw hbase] at hrest
      | operator op =>
          rw [hkind] at h
          have hrest := ih h
          rwa [after_cons] at hrest
      | openParen =>
          simp only [hkind] at h
          split at h
          · cases h
          · next hlt =>
            -- the groups outside take up part of the higher limit, and no more
            have hlt' : ¬ ((after base groups segments).1 ++ outer).length ≥ n' := by
              rw [List.length_append, length_after]
              omega
            dsimp only
            rw [if_neg hlt']
            exact ih h
      | closeParen =>
          simp only [hkind] at h
          match groups with
          | [] => cases h
          | closed :: groups =>
            dsimp only at h
            split at h
            · cases h
            · next hne =>
              have hrest := ih h
              rw [after_cons] at hrest
              have hopened : after base (closed :: groups) segments =
                  (⟨(after base groups closed.before).2, closed.paren⟩ ::
                    (after base groups closed.before).1, segments) := rfl
              rw [hopened]
              dsimp only [List.cons_append]
              rwa [if_neg hne]

/-- Glyphs that are read on their own add what they are read as. -/
theorem collects_of_collect {n : Nat} {gs : List Glyph} {ss : List Segment}
    (h : collect n [] [] (gs.map Token.single) = .ok ss) : Collects n gs ss :=
  fun _ _ _ ts hn hbase => collect_after hbase hn h ts

end Segment

/-! ## Chains -/

namespace Chain

/-- Chains that agree up to places have the same weight. -/
theorem weight_eq_of_aligned {R : Glyph → Glyph → Prop} {before : Before} {c c' : Chain K}
    (h : Chain.Aligned R before c c') : weight c = weight c' := by
  induction h with
  | nil => rfl
  | item hlink _ ih =>
      cases hlink with
      | operand hx => rw [weight, weight, hx.depth_eq, ih]
  | operator _ _ _ ih => exact ih
  | inserted _ ih => exact ih

/-- No operand is deeper than the weight of its chain. -/
theorem depth_le_weight {c : Chain K} {x : Operand K} (hx : x ∈ operands c) :
    x.depth ≤ weight c := by
  induction c with
  | nil => cases hx
  | cons link c ih =>
      cases link with
      | operand y =>
          rw [weight]
          rcases List.mem_cons.mp hx with rfl | hx
          · omega
          · have := ih hx
            omega
      | operator op span => exact ih hx

/-- A chain that is resolved has a reading, which is what it is resolved to. -/
theorem exists_reads_of_toOperand [Scalar K] {d : Nat} {span : Span} {c : Chain K} {x : Operand K}
    (h : toOperand d span c = .ok x) : ∃ e, Reads true 4 c e ∧ x.expr.normalize = e.normalize := by
  obtain ⟨s, rfl⟩ := exists_sentence_of_toOperand h
  obtain ⟨e, he⟩ := s.exists_reads
  obtain ⟨s', hchain, -, hfold⟩ := he.exists_foldsTo d
  rw [← hchain] at h
  obtain ⟨y, hy, hnormal⟩ | ⟨spans, herr⟩ : _ ∨ _ := toOperand_of_foldsTo hfold
  · cases h.symm.trans hy
    exact ⟨e, he, hnormal⟩
  · cases h.symm.trans herr

end Chain

variable [Scalar K] [Literal K]

namespace Segment

/-- Segments that agree up to places are read as chains that do. -/
theorem agrees_toChain {R : Glyph → Glyph → Prop} {d : Nat} {ss ss' : List Segment}
    (h : List.Forall₂ (Segment.Moved R) ss ss') (hne : ss ≠ []) :
    Agrees R (Chain.Aligned (K := K) R .start) (toChain d ss) (toChain d ss') := by
  refine (agrees_toFragments h).bind_of_eq fun fs fs' hfs _ hwritten => ?_
  have hne' : fs ≠ [] := ne_nil_of_toFragments hne hfs
  refine (Fragment.agrees_readNumerals .start hwritten (fun _ => hne') (by simp)).bind
    fun gs gs' hgs => ?_
  exact (Fragment.agrees_readCalls hgs).bind fun gs gs' hgs => Fragment.agrees_toLinks hgs

/-- Reading segments as a chain depends on the limit of depth only as far as the operands made meet
it. -/
theorem deepens_toChain (ss : List Segment) :
    Deepens [] (Chain.operands (K := K)) fun d => toChain d ss := by
  refine (deepens_toFragments ss).bind fun fs => ?_
  have hnumerals : Deepens (Fragment.operands fs) Fragment.operands fun _ =>
      Fragment.readNumerals fs := .const fun _ => Fragment.addsLeaves_readNumerals
  refine hnumerals.bind fun fs => (Fragment.deepens_readCalls fs).bind fun fs => ?_
  exact .const fun _ => Fragment.addsLeaves_toLinks

/-- Under a limit of depth that a chain meets, the segments are read as that chain. -/
theorem toChain_of_weight_le {d d' : Nat} {ss : List Segment} {c : Chain K}
    (h : toChain d ss = .ok c) (hd : weight c ≤ d') (hpos : 1 ≤ d') : toChain d' ss = .ok c := by
  obtain ⟨-, -, hlimits⟩ := deepens_toChain ss (List.forall_mem_nil _) d c h
  refine (hlimits d' hpos).1 (deepest_le_iff.mpr ⟨hpos, fun x hx => ?_⟩)
  exact Nat.le_trans (depth_le_weight hx) hd

end Segment

/-! ## Phrases -/

namespace Phrase

/-- A text that is parsed is a phrase, under all limits of depth from some limit on. -/
theorem exists_of_parse {limits : ParseLimits} {source : String} {e : Expr K}
    (h : SymbolicCalculus.parse limits source = .ok e) :
    ∃ w, ∀ d, w ≤ d → Phrase d limits.nesting w 4 source.toList e := by
  obtain ⟨x, hx, he⟩ := bind_eq_ok_iff.mp h
  cases he
  obtain ⟨ss, hss, hx⟩ := bind_eq_ok_iff.mp hx
  obtain ⟨span, hx⟩ : ∃ span, Segment.toOperand limits.depth span ss = .ok x := by
    split at hx
    · exact ⟨_, hx⟩
    · cases hx
  rw [Segment.toOperand_eq] at hx
  obtain ⟨c, hc, hx⟩ := bind_eq_ok_iff.mp hx
  have hne : ss ≠ [] := by
    rintro rfl
    rw [Segment.toChain_nil] at hc
    cases hc
    cases hx
  rw [Segment.ofTokens_significant] at hss
  refine ⟨max (weight c) 1, fun d hd gs hgs => ?_⟩
  -- the glyphs show the same text as the source, so they are read alike
  have hmoved : Glyph.TextsMoved (fun _ _ => True) (Glyph.ofSource source) gs :=
    Glyph.textsMoved_of_map_char ((Glyph.map_char_ofChars 0 _).trans hgs.symm)
  obtain ⟨ss', hss', hsegments⟩ := (Segment.agrees_collect hmoved .nil .nil).exists_of_ok hss
  obtain ⟨c', hc', haligned⟩ := (Segment.agrees_toChain hsegments hne).exists_of_ok hc
  obtain ⟨x', hx', hexpr⟩ := (Chain.agrees_toOperand haligned span span).exists_of_ok hx
  obtain ⟨e, hreads, hnormal⟩ := Chain.exists_reads_of_toOperand hx'
  have hne' : ss' ≠ [] := fun hnil => hne (List.forall₂_nil_right_iff.mp (hnil ▸ hsegments))
  have hweight := weight_eq_of_aligned haligned
  have hdeep := Segment.toChain_of_weight_le hc' (show weight c' ≤ d by omega) (by omega)
  refine ⟨c', e, ⟨ss', hne', Segment.collects_of_collect hss', hdeep⟩, hreads, ?_, by omega⟩
  rw [← hnormal, ← hexpr.expr_eq, Expr.normalize_normalize]

end Phrase

/-! ## Sources -/

/-- **Parsing is compositional.** If two sources are parsed on their own, then under limits of
nesting and depth that are large enough they are parsed as the same expressions where they stand in
parentheses: alone, after the name of a function, after a sign, on the two sides of an operator,
next to one another, and as a base and an exponent with a sign. What a composed source is parsed as
is the normal form of the node made of the two expressions. -/
theorem parse_composed {l l' : ParseLimits} {s t : String} {a b : Expr K}
    (hs : parse l s = .ok a) (ht : parse l' t = .ok b) :
    ∃ d, ∀ limits : ParseLimits, max l.nesting l'.nesting < limits.nesting → d ≤ limits.depth →
      parse limits ("(" ++ s ++ ")") = .ok a ∧
      (∀ f : Fn, parse limits (f.name ++ "(" ++ s ++ ")") = .ok (.call f a)) ∧
      parse limits ("-(" ++ s ++ ")") =
        .ok (Expr.product [.number Scalar.minusOne, a]).normalize ∧
      (∀ o op, TokenKind.ofChar o = .operator op →
        parse limits ("(" ++ s ++ ")" ++ String.singleton o ++ "(" ++ t ++ ")") =
          .ok (op.node a b).normalize) ∧
      parse limits ("(" ++ s ++ ")(" ++ t ++ ")") = .ok (Expr.product [a, b]).normalize ∧
      parse limits ("(" ++ s ++ ")^-(" ++ t ++ ")") =
        .ok (Expr.power a (.product [.number Scalar.minusOne, b])).normalize := by
  obtain ⟨w, hphrase⟩ := Phrase.exists_of_parse hs
  obtain ⟨w', hphrase'⟩ := Phrase.exists_of_parse ht
  refine ⟨w + w' + 4, fun limits hnesting hdepth => ?_⟩
  have hnormal : a.normalize = a := by
    obtain ⟨x, -, he⟩ := bind_eq_ok_iff.mp hs
    cases he
    exact x.expr.normalize_normalize
  -- both texts are phrases with as many parentheses as either of them has
  have hp := (hphrase limits.depth (by omega)).mono (Nat.le_max_left _ l'.nesting)
    (Nat.le_refl w) (Nat.le_refl 4)
  have hp' := (hphrase' limits.depth (by omega)).mono (Nat.le_max_right l.nesting _)
    (Nat.le_refl w') (Nat.le_refl 4)
  have hgroup := hp.group (show w ≤ limits.depth by omega)
  have hgroup' := hp'.group (show w' ≤ limits.depth by omega)
  -- each of the composed texts is a phrase, so it is parsed as the tree it is read as
  have hparse (source : String) {w n : Nat} {cs : List Char} {e : Expr K}
      (hsource : source.toList = cs)
      (h : Phrase limits.depth (max l.nesting l'.nesting + 1) w n cs e) (hn : n ≤ 4)
      (hw : w ≤ limits.depth) : parse limits source = .ok e.normalize := by
    subst hsource
    exact (h.mono (Nat.le_refl _) (Nat.le_refl _) hn).parse hnesting hw
  refine ⟨?_, fun f => ?_, ?_, fun o op ho => ?_, ?_, ?_⟩
  · have h := hparse ("(" ++ s ++ ")") (by simp) (hgroup.phrase 4) (Nat.le_refl 4) (by omega)
    rwa [hnormal] at h
  · have h := hparse (f.name ++ "(" ++ s ++ ")") (by simp) ((hp.call f (by omega)).phrase 4)
      (Nat.le_refl 4) (by omega)
    rwa [Expr.normalize, hnormal] at h
  · exact hparse _ (by simp) (Phrase.sign (n := 4) hgroup) (Nat.le_refl 4) (by omega)
  · have hlevel : op.level = op.level - 1 + 1 := by cases op <;> rfl
    have hoperator := (hgroup.phrase _).operator hlevel ho (List.forall_mem_nil _)
      (List.forall_mem_nil _) hgroup'
    exact hparse _ (by simp) hoperator (by cases op <;> decide) (by omega)
  · exact hparse _ (by simp) (hp.juxtaposed hp' (by omega) (by omega)) (by decide) (by omega)
  · exact hparse _ (by simp) ((hgroup.phrase 1).power (.sign hgroup')) (by decide) (by omega)

/-- The exponent `-(2(y))` of `x - 1` is one product of three factors. -/
theorem parse_composed_exponent :
    let one : Float := Literal.ofDecimal 1 0
    let two : Float := Literal.ofDecimal 2 0
    let a : Expr Float := .sum [.plus (.var "x"), .minus (.number one)]
    let b : Expr Float := .product [.number two, .var "y"]
    parse ⟨0, 2⟩ "x - 1" = .ok a ∧ parse ⟨1, 2⟩ "2(y)" = .ok b ∧
      ∃ d, ∀ limits : ParseLimits, 1 < limits.nesting → d ≤ limits.depth →
        parse limits "(x - 1)" = .ok a ∧
        parse limits "(x - 1)/(2(y))" = .ok (.quotient a b) ∧
        parse limits "(x - 1)^-(2(y))" =
          .ok (.power a (.product [.number Scalar.minusOne, .number two, .var "y"])) := by
  intro one two a b
  -- the sources are read alike with any numbers, so the doubles need not be computed here
  have hs (L : Type) [Scalar L] [Literal L] : parse (K := L) ⟨0, 2⟩ "x - 1" =
      .ok (.sum [.plus (.var "x"), .minus (.number (Literal.ofDecimal 1 0))]) := by
    cbv
  have ht (L : Type) [Scalar L] [Literal L] : parse (K := L) ⟨1, 2⟩ "2(y)" =
      .ok (.product [.number (Literal.ofDecimal 2 0), .var "y"]) := by
    cbv
  refine ⟨hs Float, ht Float, ?_⟩
  obtain ⟨d, hd⟩ := parse_composed (hs Float) (ht Float)
  refine ⟨d, fun limits hnesting hdepth => ?_⟩
  obtain ⟨halone, -, -, hoperator, -, hexponent⟩ := hd limits hnesting hdepth
  exact ⟨halone, hoperator '/' .div rfl, hexponent⟩

end SymbolicCalculus
