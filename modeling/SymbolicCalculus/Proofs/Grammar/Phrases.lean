import SymbolicCalculus.Grammar.Parse
import SymbolicCalculus.Proofs.Grammar.Links

/-!
# Phrases of formulas

A text is an `Item` if it is read as one operand, whatever stands before and after it, and a
`Phrase` of a level if it is read as a chain of that level. Both say which expression is read, up to
normalization. They also bound what is asked of the limits: how many parentheses are open at a time,
and how many levels the trees may have.

There is one rule for each form of a formula: numerals, names, calls, parentheses, a sign at the
start, and an operator between a phrase and an item. A text that is a phrase is parsed, if the
limits allow it (`Phrase.parse`).
-/

namespace SymbolicCalculus

open Chain

variable {K : Type} [Scalar K]

/-- A single operand is read at every level. -/
theorem Reads.single {signed : Bool} (x : Operand K) (n : Nat) :
    Reads signed n [.operand x] x.expr := by
  induction n with
  | zero => exact .operand x
  | succ n ih => exact .loosen ih

/-- What is read at a level is read at all looser levels. -/
theorem Reads.mono {signed : Bool} {m n : Nat} {c : Chain K} {e : Expr K}
    (h : Reads signed m c e) (hmn : m ≤ n) : Reads signed n c e := by
  induction hmn with
  | refl => exact h
  | step _ ih => exact .loosen ih

variable [Literal K]

/-- The glyphs add segments whose chain is `c`. -/
def Spells (maxDepth k : Nat) (gs : List Glyph) (c : Chain K) : Prop :=
  ∃ ss, ss ≠ [] ∧ Segment.Collects k gs ss ∧ Segment.toChain maxDepth ss = .ok c

/-- The text is read as one operand, with at most `k` parentheses open at a time. Its expression is
`e` up to normalization, and its levels count no more than `w` in a chain. -/
def Item (maxDepth k w : Nat) (cs : List Char) (e : Expr K) : Prop :=
  ∀ gs : List Glyph, gs.map Glyph.char = cs →
    ∃ x : Operand K, Spells maxDepth k gs [.operand x] ∧ x.expr.normalize = e.normalize ∧
      x.depth + 2 ≤ w

/-- The text is read as a chain of level `n`, with at most `k` parentheses open at a time. Its tree
is `e` up to normalization, and the chain weighs at most `w`. -/
def Phrase (maxDepth k w n : Nat) (cs : List Char) (e : Expr K) : Prop :=
  ∀ gs : List Glyph, gs.map Glyph.char = cs →
    ∃ (c : Chain K) (a : Expr K), Spells maxDepth k gs c ∧ Reads true n c a ∧
      a.normalize = e.normalize ∧ weight c ≤ w

variable {maxDepth k w n : Nat} {cs : List Char} {e : Expr K}

namespace Item

/-- More may be allowed than is needed. -/
theorem mono {k' w' : Nat} (h : Item maxDepth k w cs e) (hk : k ≤ k') (hw : w ≤ w') :
    Item maxDepth k' w' cs e := by
  intro gs hgs
  obtain ⟨x, ⟨ss, hne, hss, hchain⟩, hx, hdepth⟩ := h gs hgs
  exact ⟨x, ⟨ss, hne, hss.mono hk, hchain⟩, hx, Nat.le_trans hdepth hw⟩

theorem phrase (h : Item maxDepth k w cs e) (n : Nat) : Phrase maxDepth k w n cs e := by
  intro gs hgs
  obtain ⟨x, hspells, hx, hdepth⟩ := h gs hgs
  exact ⟨_, x.expr, hspells, .single x n, hx, hdepth⟩

/-- A numeral is an item. -/
theorem numeral {digits places : Nat} (h : Decimal.read? cs = some (digits, places)) :
    Item maxDepth 0 3 cs (.number (Literal.ofDecimal digits places) : Expr K) := by
  rintro gs rfl
  obtain ⟨hne, hraw⟩ := Segment.isRaw_numeral h
  exact ⟨_, ⟨_, List.cons_ne_nil _ _, .raw hne hraw, Segment.toChain_numeral h⟩, rfl,
    Nat.le_refl _⟩

/-- A name is an item. -/
theorem name {name : String} (hname : isVariableName name = true)
    (he : Fragment.nameExpr? name = some e) : Item maxDepth 0 3 name.toList e := by
  intro gs hgs
  obtain ⟨hne, hraw⟩ := Segment.isRaw_name hgs hname
  exact ⟨_, ⟨_, List.cons_ne_nil _ _, .raw hne hraw, Segment.toChain_name hgs hname he⟩, rfl,
    Nat.le_refl _⟩

end Item

/-- The glyphs of a text in parentheses. -/
theorem exists_parenthesized {gs : List Glyph} (h : gs.map Glyph.char = '(' :: cs ++ [')']) :
    ∃ opening inner closing, gs = opening :: inner ++ [closing] ∧ opening.char = '(' ∧
      inner.map Glyph.char = cs ∧ closing.char = ')' := by
  obtain ⟨front, last, rfl, hfront, hlast⟩ := List.map_eq_append_iff.mp h
  obtain ⟨opening, inner, rfl, hopening, hinner⟩ := List.map_eq_cons_iff.mp hfront
  obtain ⟨closing, rest, rfl, hclosing, hrest⟩ := List.map_eq_cons_iff.mp hlast
  obtain rfl := List.map_eq_nil_iff.mp hrest
  exact ⟨opening, inner, closing, rfl, hopening, hinner, hclosing⟩

namespace Phrase

theorem mono {k' w' n' : Nat} (h : Phrase maxDepth k w n cs e) (hk : k ≤ k') (hw : w ≤ w')
    (hn : n ≤ n') : Phrase maxDepth k' w' n' cs e := by
  intro gs hgs
  obtain ⟨c, a, ⟨ss, hne, hss, hchain⟩, hreads, ha, hweight⟩ := h gs hgs
  exact ⟨c, a, ⟨ss, hne, hss.mono hk, hchain⟩, hreads.mono hn, ha, Nat.le_trans hweight hw⟩

/-- A phrase may be given any expression with the same normal form. -/
theorem congr {e' : Expr K} (h : Phrase maxDepth k w n cs e) (he : e.normalize = e'.normalize) :
    Phrase maxDepth k w n cs e' := by
  intro gs hgs
  obtain ⟨c, a, hspells, hreads, ha, hweight⟩ := h gs hgs
  exact ⟨c, a, hspells, hreads, ha.trans he, hweight⟩

/-- A sign before an item. -/
theorem sign (h : Item maxDepth k w cs e) :
    Phrase maxDepth k w n ('-' :: cs) (.product [.number Scalar.minusOne, e]) := by
  intro gs hgs
  obtain ⟨g, gs, rfl, hg, hgs⟩ := List.map_eq_cons_iff.mp hgs
  obtain ⟨x, ⟨ss, hne, hss, hchain⟩, hx, hdepth⟩ := h gs hgs
  have hlinks : Segment.toChain maxDepth (.operator .sub (Token.single g).span :: ss) =
      .ok [.operator .sub (Token.single g).span, .operand x] :=
    Segment.toChain_operator Segment.toChain_nil hchain
  have hreads := (Reads.sign (Token.single g).span x).mono (Nat.zero_le n)
  refine ⟨_, _, ⟨_, List.cons_ne_nil _ _, hss.sign hg, hlinks⟩, hreads, ?_, hdepth⟩
  simp [Expr.normalize, Expr.normalizeFactors, hx]

/-- An operator of the level between a phrase and an item. Blanks may stand on either side of it. -/
theorem operator {op : Operator} {o : Char} {before after ds : List Char} {f : Expr K} {w' : Nat}
    (h : Phrase maxDepth k w (n + 1) cs e) (hlevel : op.level = n + 1)
    (ho : TokenKind.ofChar o = .operator op) (hbefore : ∀ c ∈ before, c = ' ')
    (hafter : ∀ c ∈ after, c = ' ') (hitem : Item maxDepth k w' ds f) :
    Phrase maxDepth k (w + w') (n + 1) (cs ++ (before ++ o :: after) ++ ds) (op.node e f) := by
  intro gs hgs
  -- the glyphs fall into those of the phrase, the operator with its blanks, and the item
  obtain ⟨front, hs, rfl, hfront, hhs⟩ := List.map_eq_append_iff.mp hgs
  obtain ⟨left, mid, rfl, hleft, hmid⟩ := List.map_eq_append_iff.mp hfront
  obtain ⟨bs, rest, rfl, hbs, hrest⟩ := List.map_eq_append_iff.mp hmid
  obtain ⟨g, as, rfl, hg, has⟩ := List.map_eq_cons_iff.mp hrest
  obtain ⟨c, a, ⟨ss, hne, hss, hc⟩, hreads, ha, hweight⟩ := h left hleft
  obtain ⟨y, ⟨tt, -, htt, hd⟩, hy, hdepth⟩ := hitem hs hhs
  have hcollects := hss.operator (by rw [hg]; exact ho)
    (fun b hb => hbefore _ (hbs ▸ List.mem_map_of_mem hb))
    (fun b hb => hafter _ (has ▸ List.mem_map_of_mem hb)) htt
  have hoperator : Reads true (n + 1) (c ++ .operator op (Token.single g).span :: [.operand y])
      (op.node a y.expr) := .operator _ hlevel hreads (.single y n)
  refine ⟨_, _, ⟨_, by simp [hne], hcollects, Segment.toChain_operator hc hd⟩, hoperator,
    Expr.normalize_node op ha hy, ?_⟩
  rw [weight_append, weight, weight, weight]
  omega

/-- The operator `^` between two phrases, the second of which is one operand. It may have a sign. -/
theorem power {ds : List Char} {f : Expr K} {w' : Nat} (h : Phrase maxDepth k w 1 cs e)
    (h' : Phrase maxDepth k w' 0 ds f) :
    Phrase maxDepth k (w + w') 1 (cs ++ '^' :: ds) (.power e f) := by
  intro gs hgs
  obtain ⟨left, mid, rfl, hleft, hmid⟩ := List.map_eq_append_iff.mp hgs
  obtain ⟨g, hs, rfl, hg, hhs⟩ := List.map_eq_cons_iff.mp hmid
  obtain ⟨c, a, ⟨ss, hne, hss, hc⟩, hreads, ha, hweight⟩ := h left hleft
  obtain ⟨d, b, ⟨tt, -, htt, hd⟩, hreads', hb, hweight'⟩ := h' hs hhs
  have hop : TokenKind.ofChar g.char = .operator .pow := by rw [hg]; rfl
  have hcollects := hss.operator hop (List.forall_mem_nil _) (List.forall_mem_nil _) htt
  rw [List.nil_append, List.append_assoc, List.cons_append, List.nil_append] at hcollects
  have hlevel : Operator.pow.level = 0 + 1 := rfl
  -- the exponent is read at the tightest level, where a sign is allowed after the operator
  have hpower : Reads true 1 (c ++ .operator .pow (Token.single g).span :: d) (.power a b) :=
    .operator _ hlevel hreads hreads'
  refine ⟨_, _, ⟨_, by simp [hne], hcollects, Segment.toChain_operator hc hd⟩, hpower,
    Expr.normalize_node .pow ha hb, ?_⟩
  rw [weight_append, weight]
  omega

/-- A phrase in parentheses makes a group. -/
theorem exists_group (h : Phrase maxDepth k w 4 cs e) (hw : w ≤ maxDepth) {gs : List Glyph}
    (hgs : gs.map Glyph.char = '(' :: cs ++ [')']) :
    ∃ (s : Segment) (x : Operand K), Segment.Adds (k + 1) gs s ∧
      Segment.toFragment maxDepth s = .ok (.group x) ∧ x.expr.normalize = e.normalize ∧
      x.depth ≤ w := by
  obtain ⟨opening, inner, closing, rfl, ho, hinner, hc⟩ := exists_parenthesized hgs
  obtain ⟨c, a, ⟨ss, hne, hss, hchain⟩, hreads, ha, hweight⟩ := h inner hinner
  -- the chain between the parentheses is resolved, since its weight meets the limit
  obtain ⟨x, hx, hnormal, hdepth⟩ := hreads.exists_toOperand (Nat.le_trans hweight hw)
    ((Token.single opening).span.through (Token.single closing).span).inner
  exact ⟨_, _, hss.group ho hc hne, Segment.toFragment_group hchain hx, hnormal.trans ha,
    Nat.le_trans hdepth hweight⟩

/-- A phrase in parentheses. -/
theorem group (h : Phrase maxDepth k w 4 cs e) (hw : w ≤ maxDepth) :
    Item maxDepth (k + 1) (w + 2) ('(' :: cs ++ [')']) e := by
  intro gs hgs
  obtain ⟨s, x, hs, hx, hnormal, hdepth⟩ := h.exists_group hw hgs
  exact ⟨x, ⟨_, List.cons_ne_nil _ _, hs.collects, Segment.toChain_group hx⟩, hnormal, by omega⟩

/-- A phrase in parentheses after the name of a function. -/
theorem call (f : Fn) (h : Phrase maxDepth k w 4 cs e) (hw : w + 1 ≤ maxDepth) :
    Item maxDepth (k + 1) (w + 3) (f.name.toList ++ ('(' :: cs ++ [')'])) (.call f e) := by
  intro gs hgs
  obtain ⟨name, gs, rfl, hname, hgs⟩ := List.map_eq_append_iff.mp hgs
  obtain ⟨s, x, hs, hx, hnormal, hdepth⟩ := h.exists_group (by omega) hgs
  obtain ⟨hnil, hraw⟩ := Segment.isRaw_name hname f.isVariableName_name
  have hcollects := ((Segment.Collects.raw hnil hraw).mono (Nat.zero_le (k + 1))).append_adds hs
  refine ⟨_, ⟨_, List.cons_ne_nil _ _, hcollects, Segment.toChain_call hx hname (by omega)⟩, ?_, ?_⟩
  · show (Expr.call f x.expr).normalize = _
    rw [Expr.normalize, Expr.normalize, hnormal]
  · show x.depth + 1 + 2 ≤ w + 3
    omega

/-- Two phrases in parentheses with nothing between them. -/
theorem juxtaposed {ds : List Char} {f : Expr K} {w' : Nat} (h : Phrase maxDepth k w 4 cs e)
    (h' : Phrase maxDepth k w' 4 ds f) (hw : w ≤ maxDepth) (hw' : w' ≤ maxDepth) :
    Phrase maxDepth (k + 1) ((w + 2) + (w' + 2)) 3 (('(' :: cs ++ [')']) ++ ('(' :: ds ++ [')']))
      (.product [e, f]) := by
  intro gs hgs
  obtain ⟨left, right, rfl, hleft, hright⟩ := List.map_eq_append_iff.mp hgs
  obtain ⟨s, x, hs, hx, hnormal, hdepth⟩ := h.exists_group hw hleft
  obtain ⟨t, y, ht, hy, hnormal', hdepth'⟩ := h'.exists_group hw' hright
  have hreads : Reads true 3 ([.operand x] ++ [.operand y]) (.product [x.expr, y.expr]) :=
    .juxtaposed (.single x 3) (.single y 2)
  refine ⟨_, _, ⟨_, List.cons_ne_nil _ _, hs.collects.append_adds ht,
    Segment.toChain_groups hx hy⟩, hreads, Expr.normalize_node .mul hnormal hnormal', ?_⟩
  show x.depth + 2 + (y.depth + 2 + 0) ≤ _
  omega

/-- A text that is a phrase is parsed, if the limits allow it. -/
theorem parse {limits : ParseLimits} {source : String}
    (h : Phrase limits.depth k w 4 source.toList e) (hk : k ≤ limits.nesting)
    (hw : w ≤ limits.depth) : parse limits source = .ok e.normalize := by
  obtain ⟨c, a, ⟨ss, hne, hss, hchain⟩, hreads, ha, hweight⟩ :=
    h (Glyph.ofSource source) (Glyph.map_char_ofChars 0 source.toList)
  have htokens : Segment.ofTokens limits.nesting (Token.significant source) = .ok ss := by
    have hcollect := hss limits.nesting [] [] [] (by simpa using hk) trivial
    rw [List.append_nil] at hcollect
    rw [Segment.ofTokens_significant, hcollect]
    simp [Segment.collect]
  -- a source with segments has tokens, so the reader does not refuse it for being empty
  obtain ⟨first, hfirst⟩ : ∃ t, (Token.significant source).head? = some t := by
    cases htoken : Token.significant source with
    | nil =>
        rw [htoken] at htokens
        cases htokens
        exact absurd rfl hne
    | cons t ts => exact ⟨t, rfl⟩
  obtain ⟨last, hlast⟩ : ∃ t, (Token.significant source).getLast? = some t := by
    cases htoken : (Token.significant source).getLast? with
    | none =>
        rw [List.getLast?_eq_none_iff.mp htoken] at hfirst
        cases hfirst
    | some t => exact ⟨t, rfl⟩
  obtain ⟨x, hx, hnormal, -⟩ := hreads.exists_toOperand (Nat.le_trans hweight hw)
    (first.span.through last.span)
  -- reading goes from the tokens to segments, to a chain and to one operand
  have hoperand : parseOperand limits source = .ok x := by
    rw [parseOperand]
    refine bind_eq_ok_iff.2 ⟨ss, htokens, ?_⟩
    rw [hfirst, hlast]
    dsimp only
    rw [Segment.toOperand_eq, hchain]
    exact hx
  have hparse : SymbolicCalculus.parse limits source = .ok x.expr.normalize := by
    rw [SymbolicCalculus.parse, hoperand]
    rfl
  rw [hparse, hnormal, ha]

end Phrase

end SymbolicCalculus
