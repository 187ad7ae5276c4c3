import SymbolicCalculus.Proofs.Grammar.Splitting
import SymbolicCalculus.Proofs.Grammar.Tracing

/-!
# Errors that never occur

Some steps of reading are ready for what earlier steps rule out: a numeral that is no number, an
operator that has nothing to apply to, a chain that does not come down to one operand. None of this
happens.

* The numeral that a text starts with is read as a number, and splitting numerals off a text never
  fails (`Fragment.exists_readNumerals`).
* A chain that is read in a source has an entry (`Chain.ReadIn.ne_nil`). If the sign step and the
  check let it pass it is a row, and applying operators to a row gives a row. So every operator
  finds operands on both sides, and it does not matter what would be done without
  (`applyOperatorsWith_chain`).
* What is left in the end is one operand, unless a tree gets too deep (`applyOperators_of_check`).
-/

namespace SymbolicCalculus

variable {K : Type}

/-! ## Numerals -/

namespace Decimal

/-- Every numeral that is found at the start of a text is read as a number. -/
theorem exists_read?_of_leadingNumeral? {text numeral : String}
    (h : leadingNumeral? text = some numeral) : ∃ r, read? numeral.toList = some r := by
  unfold leadingNumeral? at h
  split at h
  · cases h
  · next hlength =>
    cases h
    rw [String.toList_ofList]
    exact exists_read?_take hlength

end Decimal

/-! ## Chains read in a source -/

namespace Segment

/-- The list itself, or the list of a group that stands somewhere in it. -/
inductive Within (segments : List Segment) : List Segment → Prop
  | whole : Within segments segments
  | group {ss inner : List Segment} {span : Span} : Within segments ss →
      .group inner span ∈ ss → Within segments inner

/-- Of segments that were read from glyphs every list within was, and it has an entry. -/
theorem Within.exists_blocks {segments ss : List Segment} (h : Within segments ss)
    (hne : segments ≠ []) (hblocks : ∃ bs, List.Forall₂ ReadFrom segments bs) :
    ss ≠ [] ∧ ∃ bs, List.Forall₂ ReadFrom ss bs := by
  induction h with
  | whole => exact ⟨hne, hblocks⟩
  | @group ss inner span _ hmem ih =>
      obtain ⟨-, bs, hbs⟩ := ih
      -- each segment of the list has a block of its own, so the group has one too
      have heach : ∀ s ∈ ss, ∃ b, s.ReadFrom b :=
        ((List.forall₂_and_left _ bs).mp (hbs.imp fun s b hs => ⟨⟨b, hs⟩, hs⟩)).1
      obtain ⟨b, hgroup⟩ := heach _ hmem
      cases hgroup with
      | group _ _ hne' hinner => exact ⟨hne', _, hinner⟩

variable [Scalar K] [Literal K]

/-- The chain that segments become was read from their glyphs, the first of which starts the chain.
-/
theorem traced_toChain {d : Nat} {ss : List Segment} {bs : List (List Glyph)}
    (h : List.Forall₂ ReadFrom ss bs) (hne : ss ≠ []) :
    Traced bs.flatten (fun c : Chain K => Chain.Laid .start c bs.flatten) (toChain d ss) := by
  refine (traced_toFragments h).bind_of_eq fun fs hfs hwritten => ?_
  have hstart : Before.start = .start → fs ≠ [] := fun _ => ne_nil_of_toFragments hne hfs
  refine (Fragment.traced_readNumerals .start hwritten hstart (by simp)).bind fun fs hfs => ?_
  exact (Fragment.traced_readCalls hfs).bind fun fs hfs => Fragment.traced_toLinks hfs

end Segment

/-- The chain is brought down to an operand when the source is read. It is the chain of all segments
of the source, or of those in one of its groups. -/
def Chain.ReadIn [Scalar K] [Literal K] (limits : ParseLimits) (source : String) (c : Chain K) :
    Prop :=
  ∃ segments ss, Token.significant source ≠ [] ∧
    Segment.ofTokens limits.nesting (Token.significant source) = .ok segments ∧
    Segment.Within segments ss ∧ Segment.toChain limits.depth ss = .ok c

/-- A chain that is read in a source is not empty, since empty parentheses and empty sources are
refused before. -/
theorem Chain.ReadIn.ne_nil [Scalar K] [Literal K] {limits : ParseLimits} {source : String}
    {c : Chain K} (h : c.ReadIn limits source) : c ≠ [] := by
  obtain ⟨segments, ss, htokens, hsegments, hwithin, hc⟩ := h
  obtain ⟨bs, -, hblocks⟩ := (Segment.traced_ofTokens limits.nesting source).post_of_ok hsegments
  have hne := Segment.ne_nil_of_ofTokens (mt Token.significant_eq_nil_iff.mpr htokens) hsegments
  obtain ⟨hss, cs, hcs⟩ := hwithin.exists_blocks hne ⟨bs, hblocks⟩
  exact ((Segment.traced_toChain hcs hss).post_of_ok hc).ne_nil

/-! ## Applying operators -/

namespace Chain

/-- The left operand of an operator, and the links before it, found among the links before the
operator, nearest first. -/
abbrev LeftRule (K : Type) :=
  Operator → Span → Chain K → Except (Located ParseError) (Operand K × Chain K)

/-- An operand right before the operator is taken. What happens without one is left open. -/
def LeftRule.TakesOperand (left : LeftRule K) : Prop :=
  ∀ op span x before, left op span (.operand x :: before) = .ok (x, before)

/-- `applyTierAfter` with another rule for left operands. -/
def applyTierAfterWith (left : LeftRule K) (tier : Operator → Bool) (maxDepth : Nat) :
    (before : Chain K) → Chain K → Except (Located ParseError) (Chain K)
  | before, [] => .ok before.reverse
  | before, .operand x :: rest => applyTierAfterWith left tier maxDepth (.operand x :: before) rest
  | before, .operator op span :: rest =>
    if tier op then
      match rest with
      | .operand y :: rest => do
        let (x, before) ← left op span before
        let z ← (x.apply op y).limit maxDepth
        applyTierAfterWith left tier maxDepth (.operand z :: before) rest
      | _ => .error (.atSpan (.missingOperand false) span)
    else applyTierAfterWith left tier maxDepth (.operator op span :: before) rest

/-- `applyOperators` with another rule for left operands. -/
def applyOperatorsWith (left : LeftRule K) (maxDepth : Nat) (chain : Chain K) :
    Except (Located ParseError) (Chain K) := do
  let chain ← applyTierAfterWith left isPower maxDepth [] chain
  let chain ← applyTierAfterWith left isMultiplicative maxDepth [] chain
  let chain ← multiplyNeighbours maxDepth chain
  applyTierAfterWith left isAdditive maxDepth [] chain

/-- With the rule of the parser, a tier is applied as the parser does it. -/
theorem applyTierAfterWith_leftOperand [Scalar K] (tier : Operator → Bool) (maxDepth : Nat)
    (before c : Chain K) :
    applyTierAfterWith leftOperand tier maxDepth before c =
      applyTierAfter tier maxDepth before c := by
  fun_induction applyTierAfter tier maxDepth before c with
  | case1 => rfl
  | case2 before x rest ih => exact ih
  | case3 before op span htier y rest ih =>
      rw [applyTierAfterWith, if_pos htier]
      refine bind_congr fun p => bind_congr fun z => ?_
      exact ih p.2 z
  | case4 before op span rest htier hrest =>
      unfold applyTierAfterWith
      rw [if_pos htier]
      cases rest with
      | nil => rfl
      | cons link rest =>
          cases link with
          | operand y => exact absurd rfl (hrest y rest)
          | operator op span => rfl
  | case5 before op span rest htier ih =>
      unfold applyTierAfterWith
      rw [if_neg htier]
      exact ih

/-- With the rule of the parser, operators are applied as the parser does. -/
theorem applyOperatorsWith_leftOperand [Scalar K] (maxDepth : Nat) (c : Chain K) :
    applyOperatorsWith leftOperand maxDepth c = applyOperators maxDepth c := by
  simp only [applyOperatorsWith, applyOperators, applyTier, applyTierAfterWith_leftOperand]

variable {left left' : LeftRule K}

/-- In a row every operator has an operand right before it. -/
theorem applyTierAfterWith_tailLinks (hleft : left.TakesOperand) (hleft' : left'.TakesOperand)
    (tier : Operator → Bool) (maxDepth : Nat) (before : Chain K) (x : Operand K)
    (tail : List (Gap × Operand K)) :
    applyTierAfterWith left tier maxDepth (.operand x :: before) (Row.tailLinks tail) =
      applyTierAfterWith left' tier maxDepth (.operand x :: before) (Row.tailLinks tail) := by
  -- after each step an operand comes last before the tail again
  induction tail generalizing x before with
  | nil => rfl
  | cons p tail ih =>
      obtain ⟨g, y⟩ := p
      match g with
      | none => exact ih (.operand x :: before) y
      | some (op, span) =>
        show applyTierAfterWith left tier maxDepth _ (.operator op span :: .operand y :: _) =
          applyTierAfterWith left' tier maxDepth _ (.operator op span :: .operand y :: _)
        unfold applyTierAfterWith
        by_cases htier : tier op = true
        · rw [if_pos htier, if_pos htier, hleft, hleft']
          show ((x.apply op y).limit maxDepth >>= _) = ((x.apply op y).limit maxDepth >>= _)
          exact bind_congr fun z => ih before z
        · rw [if_neg htier, if_neg htier]
          exact ih (.operator op span :: .operand x :: before) y

/-- Applying the operators of a tier to a row does not depend on the rule. -/
theorem applyTierAfterWith_chain [Scalar K] (hleft : left.TakesOperand) (tier : Operator → Bool)
    (maxDepth : Nat) (r : Row K) :
    applyTierAfterWith left tier maxDepth [] r.chain = applyTier tier maxDepth r.chain := by
  have hrule : LeftRule.TakesOperand (K := K) leftOperand := fun op span x before => rfl
  rw [applyTier, ← applyTierAfterWith_leftOperand]
  exact applyTierAfterWith_tailLinks hleft hrule tier maxDepth [] r.head r.tail

/-- Two steps that agree on chains of rows agree after a step that makes such a chain or fails. -/
theorem bind_congr_of_chain {r : Except (Located ParseError) (Row K)}
    {step step' : Chain K → Except (Located ParseError) (Chain K)}
    (h : ∀ r : Row K, step r.chain = step' r.chain) :
    (r.map Row.chain >>= step) = (r.map Row.chain >>= step') := by
  cases r with
  | error err => rfl
  | ok r => exact h r

/-- No step that applies operators to a row asks for a left operand that is missing. -/
theorem applyOperatorsWith_chain [Scalar K] (hleft : left.TakesOperand) (maxDepth : Nat)
    (r : Row K) :
    applyOperatorsWith left maxDepth r.chain = applyOperators maxDepth r.chain := by
  have hpower (r : Row K) :
      applyTier isPower maxDepth r.chain = (r.applyLevel maxDepth 1).map Row.chain :=
    applyTier_chain (by decide) (fun op => by cases op <;> rfl) maxDepth r
  have hproduct (r : Row K) :
      applyTier isMultiplicative maxDepth r.chain = (r.applyLevel maxDepth 2).map Row.chain :=
    applyTier_chain (by decide) (fun op => by cases op <;> rfl) maxDepth r
  unfold applyOperatorsWith applyOperators
  rw [applyTierAfterWith_chain hleft, hpower]
  -- every step makes a row of a row
  refine bind_congr_of_chain fun r => ?_
  rw [applyTierAfterWith_chain hleft, hproduct]
  refine bind_congr_of_chain fun r => ?_
  rw [multiplyNeighbours_chain]
  exact bind_congr_of_chain (applyTierAfterWith_chain hleft isAdditive maxDepth)

/-- What the sign step and the check let pass comes down to one operand, unless a tree gets too
deep. -/
theorem applyOperators_of_check [Scalar K] {d : Nat} {c c' : Chain K} (hne : c ≠ [])
    (hsigns : applySigns d c = .ok c') (hcheck : check c' = .ok ()) :
    (∃ x, applyOperators d c' = .ok [.operand x]) ∨
      ∃ spans, applyOperators d c' = .error ⟨.expressionTooDeep d, spans⟩ := by
  obtain ⟨r, rfl, hr⟩ := exists_row_of_check hne hsigns hcheck
  rw [applyOperators_chain]
  -- the four levels leave a row without a tail, or fail for depth only
  cases happly : r.applyLevels d 4 with
  | ok r' =>
      obtain ⟨x, tail⟩ := r'
      obtain rfl : tail = [] := hr _ happly
      exact Or.inl ⟨x, rfl⟩
  | error err =>
      obtain ⟨cause, spans⟩ := err
      obtain rfl : cause = .expressionTooDeep d := Row.failsOnly_applyLevels d 4 r _ happly
      exact Or.inr ⟨spans, rfl⟩

end Chain

/-! ## Sources -/

/-- No text is refused for invalid syntax. -/
theorem parse_ne_invalidSyntax [Scalar K] [Literal K] {limits : ParseLimits} {source : String}
    {err : Located ParseError} (h : parse (K := K) limits source = .error err) :
    err.cause ≠ .invalidSyntax := by
  have herr : parseOperand (K := K) limits source = .error err := by
    rcases bind_eq_error_iff.mp h with herr | ⟨x, -, hx⟩
    · exact herr
    · cases hx
  -- no text is one in which invalid syntax is seen
  rcases traced_parseOperand (K := K) limits source with ⟨-, hempty⟩ | htraced
  · cases herr.symm.trans hempty
    exact ParseError.noConfusion
  · obtain ⟨block, -, -, -, hseen⟩ := htraced.pointsInto_of_error herr
    intro hcause
    rw [hcause] at hseen
    exact hseen

/-- **What the parser guards against does not happen.** No source is refused for invalid syntax.
Every numeral that is found is read as a number, so splitting numerals off does not fail. The chains
that are read in a source have an entry, and if the sign step and the check let such a chain pass,
applying its operators leaves one operand or fails because a tree gets too deep. No operator lacks
an operand on the way: a rule for left operands other than `leftOperand` would make no difference.

The sign step counts here. The check by itself lets a minus at the start of a chain pass, which
would be subtracted from zero. -/
theorem parse_errors_unreachable [Scalar K] [Literal K] :
    (∀ (limits : ParseLimits) (source : String) (err : Located ParseError),
      parse (K := K) limits source = .error err → err.cause ≠ .invalidSyntax) ∧
    (∀ text numeral : String, Decimal.leadingNumeral? text = some numeral →
      ∃ number, Decimal.read? numeral.toList = some number) ∧
    (∀ fs : List (Fragment K), ∃ fs', Fragment.readNumerals fs = .ok fs') ∧
    (∀ (limits : ParseLimits) (source : String) (c : Chain K), c.ReadIn limits source → c ≠ []) ∧
    (∀ (d : Nat) (c : Chain K),
      Chain.applyOperatorsWith Chain.leftOperand d c = Chain.applyOperators d c) ∧
    ∀ (d : Nat) (c accepted : Chain K), c ≠ [] → Chain.applySigns d c = .ok accepted →
      Chain.check accepted = .ok () →
      (∀ left : Chain.LeftRule K, left.TakesOperand →
        Chain.applyOperatorsWith left d accepted = Chain.applyOperators d accepted) ∧
      ((∃ x, Chain.applyOperators d accepted = .ok [.operand x]) ∨
        ∃ spans, Chain.applyOperators d accepted = .error ⟨.expressionTooDeep d, spans⟩) := by
  refine ⟨fun _ _ _ => parse_ne_invalidSyntax, fun _ _ => Decimal.exists_read?_of_leadingNumeral?,
    Fragment.exists_readNumerals, fun _ _ _ h => h.ne_nil, Chain.applyOperatorsWith_leftOperand, ?_⟩
  intro d c accepted hne hsigns hcheck
  refine ⟨?_, Chain.applyOperators_of_check hne hsigns hcheck⟩
  intro left hleft
  obtain ⟨r, rfl, -⟩ := Chain.exists_row_of_check hne hsigns hcheck
  exact Chain.applyOperatorsWith_chain hleft d r

/-- The chain of `-x^-n`, with a rule that refuses a missing left operand in its own way. -/
theorem parse_errors_unreachable_signs :
    let c : Chain Float := [.operator .sub ⟨0, 1⟩, .operand (.atom (.var "x") ⟨1, 2⟩),
      .operator .pow ⟨2, 3⟩, .operator .sub ⟨3, 4⟩, .operand (.atom (.var "n") ⟨4, 5⟩)]
    let accepted : Chain Float := [.operand (Chain.negated ⟨0, 1⟩ (.atom (.var "x") ⟨1, 2⟩)),
      .operator .pow ⟨2, 3⟩, .operand (Chain.negated ⟨3, 4⟩ (.atom (.var "n") ⟨4, 5⟩))]
    let left : Chain.LeftRule Float := fun _ _ before =>
      match before with
      | .operand x :: before => .ok (x, before)
      | _ => .error (.nowhere .invalidSyntax)
    (parse (K := Float) {} ")" = .error ⟨.unclosedParenthesis false, [⟨0, 1⟩]⟩ ∧
      ParseError.unclosedParenthesis false ≠ .invalidSyntax) ∧
    (Decimal.leadingNumeral? "2.5x" = some "2.5" ∧
      ∃ number, Decimal.read? "2.5".toList = some number) ∧
    c.ReadIn {} "-x^-n" ∧ c ≠ [] ∧ Chain.applySigns 256 c = .ok accepted ∧
    Chain.check accepted = .ok () ∧ left.TakesOperand ∧
    Chain.applyOperatorsWith left 256 accepted = Chain.applyOperators 256 accepted := by
  intro c accepted left
  have hparse (L : Type) [Scalar L] [Literal L] :
      parse (K := L) {} ")" = .error ⟨.unclosedParenthesis false, [⟨0, 1⟩]⟩ := by
    cbv
  have hnumeral : Decimal.leadingNumeral? "2.5x" = some "2.5" := by cbv
  have hread : c.ReadIn {} "-x^-n" := by
    have hc : Segment.toChain 256 [.operator .sub ⟨0, 1⟩, .raw [⟨'x', 1⟩], .operator .pow ⟨2, 3⟩,
        .operator .sub ⟨3, 4⟩, .raw [⟨'n', 4⟩]] = .ok c := by
      cbv
    exact ⟨_, _, List.isEmpty_eq_false_iff.mp (by cbv), by cbv, .whole, hc⟩
  have hsigns : Chain.applySigns 256 c = .ok accepted := rfl
  have hcheck : Chain.check accepted = .ok () := rfl
  have hleft : left.TakesOperand := fun op span x before => rfl
  obtain ⟨hcause, hnumber, -, hentry, -, happly⟩ := parse_errors_unreachable (K := Float)
  exact ⟨⟨hparse Float, hcause _ _ _ (hparse Float)⟩, ⟨hnumeral, hnumber _ _ hnumeral⟩, hread,
    hentry _ _ _ hread, hsigns, hcheck, hleft,
    (happly 256 c accepted (hentry _ _ _ hread) hsigns hcheck).1 left hleft⟩

end SymbolicCalculus
