import Mathlib
import SymbolicCalculus.Grammar.Parse
import SymbolicCalculus.Proofs.Grammar.Building
import SymbolicCalculus.Proofs.Grammar.Flat
import SymbolicCalculus.Proofs.Grammar.Links
import SymbolicCalculus.Scalar.Binary64

/-!
# The limit of depth is exact

Every step of reading makes operands out of others, and refuses what is too deep at once. Since
trees only get deeper on the way, nothing is refused that would not be too deep in the end, and
what is too deep in the end is refused (`parse_depthLimit`).
-/

namespace SymbolicCalculus

variable {K : Type}

/-! ## Rows -/

namespace Row

variable [Scalar K]

/-- Folding the gaps of a tier only makes operands deeper. -/
theorem deepens_foldFrom (tier : Gap → Bool) (x : Operand K) (tail : List (Gap × Operand K)) :
    Deepens (x :: tail.map Prod.snd) operands fun d => foldFrom tier d x tail := by
  induction tail generalizing x with
  | nil => exact .ok rfl
  | cons p tail ih =>
      obtain ⟨g, y⟩ := p
      simp only [foldFrom]
      -- at a gap of the tier two operands become one, and at any other gap the first one is put
      -- aside
      split
      · have hlimit : Deepens [x, y] (fun z => [z]) fun d => (x.apply g.op y).limit d := by
          refine .limit (fun h => ?_) (by simpa using Operand.depth_le_apply g.op x y)
          exact .apply g.op (h x (by simp)) (h y (by simp))
        exact (hlimit.append_right _).bind ih
      · exact ((ih y).append_left [x]).map fun _ => rfl

/-- Applying the operators of all levels only makes operands deeper. -/
theorem deepens_applyLevels (n : Nat) (r : Row K) :
    Deepens r.operands operands fun d => r.applyLevels d n := by
  induction n with
  | zero => exact .ok rfl
  | succ n ih => exact ih.bind fun r => deepens_foldFrom _ r.head r.tail

end Row

/-! ## Chains -/

/-- The operand that the link is. -/
def Link.operand? : Link K → Option (Operand K)
  | operand x => some x
  | operator _ _ => none

namespace Chain

/-- The operands of a chain. -/
def operands (c : Chain K) : List (Operand K) := c.filterMap Link.operand?

theorem operands_cons (link : Link K) (c : Chain K) :
    operands (link :: c) = link.operand?.toList ++ operands c := by
  cases link <;> rfl

/-- The operands after a sentence's first one are those in its tail. -/
theorem operands_tailLinks (tail : List (Separator × Operand K)) :
    operands (tailLinks tail) = tail.map Prod.snd := by
  induction tail with
  | nil => rfl
  | cons p tail ih =>
      obtain ⟨(_ | _) | _, x⟩ := p <;> exact congrArg (x :: ·) ih

theorem operands_chain (s : Sentence K) : operands s.chain = s.head :: s.tail.map Prod.snd := by
  obtain ⟨_ | sign, x, tail⟩ := s <;> exact congrArg (x :: ·) (operands_tailLinks tail)

variable [Scalar K]

/-- Applying a sign makes an operand deeper by one level, or leaves it. -/
theorem deepens_applySign (sign : Option Span) (x : Operand K) :
    Deepens [x] (fun z => [z]) fun d => applySign d sign x := by
  cases sign with
  | none => exact .ok rfl
  | some sign =>
      refine .limit (fun h => (List.forall_mem_singleton.mp h).negated sign) ?_
      exact List.forall_mem_singleton.mpr (Nat.le_succ x.depth)

namespace Sentence

/-- Applying the signs in a tail only makes operands deeper. -/
theorem deepens_rowTail (tail : List (Separator × Operand K)) :
    Deepens (tail.map Prod.snd) (fun t => t.map Prod.snd) fun d => rowTail d tail := by
  induction tail with
  | nil => exact .ok rfl
  | cons p tail ih =>
      obtain ⟨sep, x⟩ := p
      refine ((deepens_applySign sep.sign x).append_right (tail.map Prod.snd)).bind fun z => ?_
      exact (ih.append_left [z]).bind fun t => .ok rfl

/-- Applying the signs of a sentence only makes operands deeper. -/
theorem deepens_row (s : Sentence K) :
    Deepens (operands s.chain) Row.operands fun d => s.row d := by
  rw [operands_chain]
  refine ((deepens_applySign s.sign s.head).append_right (s.tail.map Prod.snd)).bind fun z => ?_
  exact ((deepens_rowTail s.tail).append_left [z]).bind fun t => .ok rfl

end Sentence

/-- Resolving a chain only makes operands deeper. -/
theorem deepens_toOperand (span : Span) (c : Chain K) :
    Deepens (operands c) (fun x => [x]) fun d => toOperand d span c := by
  intro hc limit x h
  -- that a chain is a sentence does not depend on the limit
  obtain ⟨s, rfl⟩ := exists_sentence_of_toOperand h
  have hdeepens : Deepens (operands s.chain) (fun x => [x]) fun d => toOperand d span s.chain := by
    simp only [toOperand_chain]
    refine (s.deepens_row.bind fun r => r.deepens_applyLevels 4).bind fun r => .const ?_
    intro y hy
    split at hy
    · next htail =>
      cases hy
      rw [Row.operands, List.isEmpty_iff.mp htail]
      exact .refl _
    · cases hy
  exact hdeepens hc limit x h

end Chain

/-! ## Fragments -/

namespace Fragment

/-- The operand that the fragment is. -/
def operand? : Fragment K → Option (Operand K)
  | group x => some x
  | operand x => some x
  | raw _ => none
  | operator _ _ => none

/-- The operands among fragments. -/
def operands (fs : List (Fragment K)) : List (Operand K) := fs.filterMap operand?

theorem operands_cons (f : Fragment K) (fs : List (Fragment K)) :
    operands (f :: fs) = f.operand?.toList ++ operands fs := by
  cases f <;> rfl

theorem operands_append (fs gs : List (Fragment K)) :
    operands (fs ++ gs) = operands fs ++ operands gs :=
  List.filterMap_append

variable [Scalar K] {fs fs' : List (Fragment K)}

section Texts

variable [Literal K]

/-- A numeral is read as a leaf. -/
theorem addsLeaves_ofNumeral {numeral : List Glyph} {f : Fragment K}
    (h : ofNumeral numeral = .ok f) : AddsLeaves [] f.operand?.toList := by
  unfold ofNumeral at h
  dsimp only at h
  split at h
  · cases h
    exact .leaf (.number _ _) rfl
  · cases h

/-- A text is split into numbers and the rest of the text. -/
theorem addsLeaves_ofText {text : List Glyph} (h : ofText text = .ok fs) :
    AddsLeaves [] (operands fs) := by
  -- induction as in `ofText`: no text is left, no numeral starts it, or one is split off
  induction text using ofText.induct generalizing fs with
  | case1 =>
      rw [ofText] at h
      cases h
      exact .refl _
  | case2 g gs hlength =>
      rw [ofText, hlength] at h
      cases h
      exact .refl _
  | case3 g gs n hlength ih =>
      rw [ofText, hlength] at h
      obtain ⟨number, hnumber, h⟩ := bind_eq_ok_iff.mp h
      obtain ⟨rest, hrest, h⟩ := bind_eq_ok_iff.mp h
      have hleaves := (addsLeaves_ofNumeral hnumber).append (ih hrest)
      split at h
      · cases h
        exact operands_cons number rest ▸ hleaves
      · cases h
        exact operands_cons number _ ▸ hleaves

/-- Splitting numerals off adds leaves. -/
theorem addsLeaves_readNumerals (h : readNumerals fs = .ok fs') :
    AddsLeaves (operands fs) (operands fs') := by
  induction fs generalizing fs' with
  | nil =>
      cases h
      exact .refl _
  | cons f fs ih =>
      cases f with
      | raw text =>
          obtain ⟨split, hsplit, h⟩ := bind_eq_ok_iff.mp h
          obtain ⟨rest, hrest, h⟩ := bind_eq_ok_iff.mp h
          cases h
          exact operands_append split rest ▸ (addsLeaves_ofText hsplit).append (ih hrest)
      | operator | group | operand =>
          obtain ⟨rest, hrest, h⟩ := bind_eq_ok_iff.mp h
          cases h
          rw [operands_cons, operands_cons]
          exact (AddsLeaves.refl _).append (ih hrest)

end Texts

/-- Calls make their arguments deeper by one level. -/
theorem deepens_readCalls (fs : List (Fragment K)) :
    Deepens (operands fs) operands fun d => readCalls d fs := by
  -- which fragments are calls does not depend on the limit, so the recursion is that under any of
  -- them
  fun_induction readCalls 0 fs with
  | case1 => exact .ok rfl
  | case2 text x fs f hname ih =>
      simp only [readCalls, hname]
      have hcall : Deepens [x] (fun z => [z]) fun d =>
          (x.below (.call f) ((Glyph.cover text).through x.span)).limit d := by
        refine .limit (fun h => (List.forall_mem_singleton.mp h).call f _) ?_
        exact List.forall_mem_singleton.mpr (Nat.le_succ x.depth)
      refine (hcall.append_right (operands fs)).bind fun z => ?_
      exact (ih.append_left [z]).bind fun rest => .ok rfl
  | case3 text x fs hname ih =>
      simp only [readCalls, hname]
      exact (ih.append_left [x]).bind fun rest => .ok rfl
  | case4 f fs hno ih =>
      rw [operands_cons]
      have hstep : (fun d => readCalls d (f :: fs)) = fun d => readCalls d fs >>= fun rest =>
          .ok (f :: rest) := by
        funext d
        rw [readCalls]
        · rfl
        · exact hno
      rw [hstep]
      exact (ih.append_left f.operand?.toList).bind fun rest => .ok (operands_cons f rest).symm

/-- A name is read as a leaf, and everything else is what it was. -/
theorem addsLeaves_toLink {f : Fragment K} {link : Link K} (h : f.toLink = .ok link) :
    AddsLeaves f.operand?.toList link.operand?.toList := by
  cases f with
  | operator op span =>
      cases h
      exact .refl _
  | group x | operand x =>
      cases h
      exact .refl _
  | raw text =>
      rw [toLink] at h
      split at h
      · next e he =>
        cases h
        unfold nameExpr? at he
        split at he
        · cases he
          exact .leaf (.constant _ _) rfl
        · split at he
          · cases he
            exact .leaf (.var _ _) rfl
          · cases he
      · cases h

/-- Reading names adds leaves. -/
theorem addsLeaves_toLinks {c : Chain K} (h : fs.mapM toLink = .ok c) :
    AddsLeaves (operands fs) c.operands := by
  induction fs generalizing c with
  | nil =>
      cases h
      exact .refl _
  | cons f fs ih =>
      rw [List.mapM_cons] at h
      obtain ⟨link, hlink, h⟩ := bind_eq_ok_iff.mp h
      obtain ⟨rest, hrest, h⟩ := bind_eq_ok_iff.mp h
      cases h
      rw [operands_cons, Chain.operands_cons]
      exact (addsLeaves_toLink hlink).append (ih hrest)

theorem deepens_toOperand [Literal K] (span : Span) (fs : List (Fragment K)) :
    Deepens (operands fs) (fun x => [x]) fun d => toOperand d span fs := by
  have hnumerals : Deepens (operands fs) operands fun _ => readNumerals fs :=
    .const fun _ => addsLeaves_readNumerals
  have hlinks (fs : List (Fragment K)) : Deepens (operands fs) Chain.operands fun _ =>
      fs.mapM toLink := .const fun _ => addsLeaves_toLinks
  refine hnumerals.bind fun fs => (deepens_readCalls fs).bind fun fs => (hlinks fs).bind fun c => ?_
  exact c.deepens_toOperand span

end Fragment

/-! ## Segments -/

namespace Segment

variable [Scalar K] [Literal K]

mutual

/-- Reading a group makes one operand of what is in it, and of nothing else. -/
theorem deepens_toFragment (s : Segment) :
    Deepens [] (fun f : Fragment K => f.operand?.toList) fun d => toFragment d s := by
  match s with
  | raw text =>
    simp only [toFragment]
    exact .ok rfl
  | operator op span =>
    simp only [toFragment]
    exact .ok rfl
  | group ss span =>
    simp only [toFragment]
    refine (deepens_toFragments ss).bind fun fs => ?_
    refine (Fragment.deepens_toOperand span.inner fs).bind fun x => .of_deepest_eq fun f hf => ?_
    cases hf
    refine ⟨fun hx => ?_, rfl⟩
    exact List.forall_mem_singleton.mpr ((List.forall_mem_singleton.mp hx).group span)

/-- Reading segments makes operands of the groups among them. -/
theorem deepens_toFragments (ss : List Segment) :
    Deepens [] (Fragment.operands (K := K)) fun d => toFragments d ss := by
  match ss with
  | [] =>
    simp only [toFragments]
    exact .ok rfl
  | s :: ss =>
    simp only [toFragments]
    refine (deepens_toFragment s).bind fun f => ?_
    have hrest := (deepens_toFragments ss).append_left f.operand?.toList
    rw [List.append_nil] at hrest
    exact hrest.bind fun fs => .ok (Fragment.operands_cons f fs).symm

end

theorem deepens_toOperand (span : Span) (ss : List Segment) :
    Deepens [] (fun x : Operand K => [x]) fun d => toOperand d span ss :=
  (deepens_toFragments ss).bind fun fs => Fragment.deepens_toOperand span fs

end Segment

/-! ## Sources -/

section

variable [Scalar K] [Literal K]

/-- Reading a source starts with no operands and makes one, which is the deepest on the way. -/
theorem deepens_parseOperand (nesting : Nat) (source : String) :
    Deepens [] (fun x : Operand K => [x]) fun d => parseOperand ⟨nesting, d⟩ source := by
  have hsegments : Deepens [] (fun _ => ([] : List (Operand K))) fun _ =>
      Segment.ofTokens nesting (Token.significant source) := .const fun _ _ => .refl _
  refine hsegments.bind fun ss => ?_
  dsimp only
  split
  · exact Segment.deepens_toOperand _ ss
  · exact .const fun _ h => by cases h

/-- What a source is read as decides under which limits of depth it is read. -/
theorem parseOperand_depth {nesting limit : Nat} {source : String} {x : Operand K}
    (h : parseOperand ⟨nesting, limit⟩ source = .ok x) : x.Built ∧ ∀ d, 1 ≤ d →
      (x.expr.depth ≤ d → parseOperand ⟨nesting, d⟩ source = .ok x) ∧
      (d < x.expr.depth →
        ∃ span, parseOperand (K := K) ⟨nesting, d⟩ source =
          .error (.atSpan (.expressionTooDeep d) span)) := by
  obtain ⟨hbuilt, -, hlimits⟩ := deepens_parseOperand nesting source (List.forall_mem_nil _) limit x h
  have hbuilt : x.Built := List.forall_mem_singleton.mp hbuilt
  have hdeepest : deepest [x] = x.expr.depth := by
    rw [← hbuilt.depth_eq]
    exact Nat.max_eq_left (hbuilt.depth_eq ▸ x.expr.one_le_depth)
  simp only [hdeepest] at hlimits
  exact ⟨hbuilt, hlimits⟩

theorem parse_of_parseOperand {limits : ParseLimits} {source : String} {x : Operand K}
    (h : parseOperand limits source = .ok x) : parse limits source = .ok x.expr.normalize :=
  bind_eq_ok_iff.mpr ⟨x, h, rfl⟩

/-- **The limit of depth is exact.** The depth that an operand carries along is that of its
expression, for every operand that is built while a source is read. If a source can be read under
some limit, as a tree that is not normalized yet, then it can be read under every other limit that
the tree meets, with the same result, and under every other one it is refused since the tree is too
deep. So what is read meets the limit, and a higher limit does not change it. Chains of one kind of
operator get one level deeper, however long they are. -/
theorem parse_depthLimit (nesting : Nat) (source : String) :
    (∀ x : Operand K, x.Built → x.depth = x.expr.depth) ∧
    (∀ limit (x : Operand K), parseOperand ⟨nesting, limit⟩ source = .ok x → x.Built ∧
      ∀ d, 1 ≤ d →
        (x.expr.depth ≤ d → parse ⟨nesting, d⟩ source = .ok x.expr.normalize) ∧
        (d < x.expr.depth → ∃ span,
          parse (K := K) ⟨nesting, d⟩ source = .error (.atSpan (.expressionTooDeep d) span))) ∧
    (∀ d (e : Expr K), 1 ≤ d → parse ⟨nesting, d⟩ source = .ok e →
      e.depth ≤ d ∧ ∀ d', d ≤ d' → parse ⟨nesting, d'⟩ source = .ok e) ∧
    ∀ (n m d : Nat) (span : Span) (r : Row K), r.IsFlat n → (∀ x ∈ r.operands, x.depth ≤ m) →
      m + 1 ≤ d → ∃ z, Chain.toOperand d span r.chain = .ok z ∧ z.depth ≤ m + 1 := by
  refine ⟨fun x hx => hx.depth_eq, fun limit x hx => ?_, fun d e hd he => ?_,
    fun n m d span r h hdepth hd => h.exists_toOperand hdepth hd span⟩
  · obtain ⟨hbuilt, hlimits⟩ := parseOperand_depth hx
    refine ⟨hbuilt, fun d hd => ⟨fun hle => parse_of_parseOperand ((hlimits d hd).1 hle), ?_⟩⟩
    intro hlt
    obtain ⟨span, herr⟩ := (hlimits d hd).2 hlt
    exact ⟨span, bind_eq_error_iff.mpr (Or.inl herr)⟩
  · obtain ⟨x, hx, he⟩ := bind_eq_ok_iff.mp he
    cases he
    obtain ⟨-, hlimits⟩ := parseOperand_depth hx
    -- a tree deeper than the limit would have been refused under it
    have hle : x.expr.depth ≤ d := by
      refine Nat.le_of_not_lt fun hlt => ?_
      obtain ⟨span, herr⟩ := (hlimits d hd).2 hlt
      rw [hx] at herr
      cases herr
    refine ⟨Nat.le_trans x.expr.depth_normalize_le hle, fun d' hd' => ?_⟩
    exact parse_of_parseOperand ((hlimits d' (Nat.le_trans hd hd')).1 (Nat.le_trans hle hd'))

end

/-- The tree of `sin(x)/y^-2` has four levels. -/
theorem parse_depthLimit_quotient :
    ∃ x, parseOperand (K := Float) ⟨128, 256⟩ "sin(x)/y^-2" = .ok x ∧ x.Built ∧ x.expr.depth = 4 ∧
      parse ⟨128, 4⟩ "sin(x)/y^-2" = .ok x.expr.normalize ∧
      ∃ span, parse (K := Float) ⟨128, 3⟩ "sin(x)/y^-2" =
        .error (.atSpan (.expressionTooDeep 3) span) := by
  -- the source is read alike with any numbers, so the doubles need not be computed here
  have hsource (L : Type) [Scalar L] [Literal L] :
      parseOperand (K := L) ⟨128, 256⟩ "sin(x)/y^-2" = .ok ⟨.quotient (.call .sin (.var "x"))
        (.power (.var "y") (.product [.number Scalar.minusOne, .number (Literal.ofDecimal 2 0)])),
        ⟨0, 11⟩, 4⟩ := by
    cbv
  obtain ⟨hbuilt, hlimits⟩ := (parse_depthLimit 128 "sin(x)/y^-2").2.1 256 _ (hsource Float)
  exact ⟨_, hsource Float, hbuilt, rfl, (hlimits 4 (by decide)).1 (by decide),
    (hlimits 3 (by decide)).2 (by decide)⟩

end SymbolicCalculus
