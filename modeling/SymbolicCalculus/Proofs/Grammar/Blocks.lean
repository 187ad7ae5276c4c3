import SymbolicCalculus.Proofs.Grammar.Folding
import SymbolicCalculus.Proofs.Grammar.Grouping
import SymbolicCalculus.Proofs.Grammar.Placement

/-!
# Blocks of glyphs

Whatever is read is read from a block of glyphs, which are next to each other once white space is
dropped. `ReadFrom` says what may be read from which block, for operands, segments and the entries
of the lists between them, and `Laid` puts the entries of a list on blocks that follow one another.

`Traced gs post r` says that a step of reading the glyphs `gs` ends as it should: what it makes
meets `post`, or its error points at a block of these glyphs where its cause is to be seen.
-/

namespace SymbolicCalculus

variable {K : Type}

/-! ## Covers -/

namespace Glyph

theorem cover_singleton (g : Glyph) : cover [g] = g.span := rfl

/-- What reaches through two blocks covers what is between them. -/
theorem through_cover {front back : List Glyph} (hfront : front ≠ []) (hback : back ≠ [])
    (mid : List Glyph) :
    (cover front).through (cover back) = cover (front ++ mid ++ back) := by
  obtain ⟨g, front, rfl⟩ := List.exists_cons_of_ne_nil hfront
  obtain ⟨h, hh⟩ : ∃ h, (g :: front).getLast? = some h :=
    ⟨_, List.getLast?_eq_some_getLast hfront⟩
  obtain ⟨last, hlast⟩ : ∃ last, back.getLast? = some last :=
    ⟨_, List.getLast?_eq_some_getLast hback⟩
  obtain ⟨first, back, rfl⟩ := List.exists_cons_of_ne_nil hback
  simp only [cover, List.cons_append, List.head?_cons, hh, hlast]
  -- the last glyph of the whole is the last one of the back
  have hwhole : (g :: (front ++ mid ++ first :: back)).getLast? = some last := by
    rw [← List.cons_append, List.getLast?_append, hlast]
    rfl
  rw [hwhole]
  rfl

end Glyph

/-! ## Operands -/

/-- Between two operands stands an operator, or nothing, which is a multiplication. -/
inductive Operator.Between : Operator → List Glyph → Prop
  | nothing : Between .mul []
  | glyph {op : Operator} {g : Glyph} : TokenKind.ofChar g.char = .operator op → Between op [g]

/-- The operand was read from the block: a numeral, a name, a group, a call, an operand with a sign,
or two operands with an operator between them. -/
inductive Operand.ReadFrom [Scalar K] [Literal K] : Operand K → List Glyph → Prop
  | number {text : List Glyph} {digits places : Nat} : text ≠ [] →
      Decimal.read? (text.map Glyph.char) = some (digits, places) →
      ReadFrom (.atom (.number (Literal.ofDecimal digits places)) (Glyph.cover text)) text
  | name {text : List Glyph} {e : Expr K} : text ≠ [] →
      Fragment.nameExpr? (Glyph.text text) = some e →
      ReadFrom (.atom e (Glyph.cover text)) text
  | group {x : Operand K} {opening closing : Glyph} {gs : List Glyph} : opening.char = '(' →
      closing.char = ')' → ReadFrom x gs →
      ReadFrom ⟨x.expr, opening.span.through closing.span, x.depth⟩ (opening :: gs ++ [closing])
  | call {x : Operand K} {f : Fn} {text gs : List Glyph} : text ≠ [] →
      Fn.ofName? (Glyph.text text) = some f → ReadFrom x gs →
      ReadFrom (x.below (.call f) ((Glyph.cover text).through x.span)) (text ++ gs)
  | negated {x : Operand K} {sign : Glyph} {gs : List Glyph} :
      TokenKind.ofChar sign.char = .operator .sub → ReadFrom x gs →
      ReadFrom (Chain.negated sign.span x) (sign :: gs)
  | apply {x y : Operand K} {op : Operator} {gs mid hs : List Glyph} : op.Between mid →
      ReadFrom x gs → ReadFrom y hs → ReadFrom (x.apply op y) (gs ++ mid ++ hs)

theorem Operand.span_apply (op : Operator) (x y : Operand K) :
    (x.apply op y).span = x.span.through y.span := by
  unfold apply
  split <;> rfl

/-- An operand is pointed at where it was read. -/
theorem Operand.ReadFrom.span_eq [Scalar K] [Literal K] {x : Operand K} {gs : List Glyph}
    (h : x.ReadFrom gs) : gs ≠ [] ∧ x.span = Glyph.cover gs := by
  -- one case for each way to read an operand: its place reaches from its first glyph to its last
  induction h with
  | number hne _ => exact ⟨hne, rfl⟩
  | name hne _ => exact ⟨hne, rfl⟩
  | @group x opening closing gs _ _ _ _ =>
      have hcover := Glyph.through_cover (List.cons_ne_nil opening []) (List.cons_ne_nil closing [])
        gs
      exact ⟨List.cons_ne_nil _ _, hcover⟩
  | @call x f text gs hne _ _ ih =>
      have hcover := Glyph.through_cover hne ih.1 []
      rw [List.append_nil, ← ih.2] at hcover
      exact ⟨by simp [hne], hcover⟩
  | @negated x sign gs _ _ ih =>
      have hcover := Glyph.through_cover (List.cons_ne_nil sign []) ih.1 []
      rw [List.append_nil, ← ih.2] at hcover
      exact ⟨List.cons_ne_nil _ _, hcover⟩
  | @apply x y op gs mid hs _ _ _ ihx ihy =>
      rw [Operand.span_apply, ihx.2, ihy.2]
      exact ⟨by simp [ihx.1], Glyph.through_cover ihx.1 ihy.1 mid⟩

/-! ## Segments -/

/-- The segment was read from the block. -/
inductive Segment.ReadFrom : Segment → List Glyph → Prop
  | raw {text : List Glyph} : text ≠ [] → Segment.IsRaw text → ReadFrom (.raw text) text
  | operator {op : Operator} {g : Glyph} : TokenKind.ofChar g.char = .operator op →
      ReadFrom (.operator op g.span) [g]
  | group {ss : List Segment} {bs : List (List Glyph)} {opening closing : Glyph} :
      opening.char = '(' → closing.char = ')' → ss ≠ [] → List.Forall₂ ReadFrom ss bs →
      ReadFrom (.group ss (opening.span.through closing.span)) (opening :: bs.flatten ++ [closing])

/-! ## Entries of lists -/

variable [Scalar K] [Literal K]

/-- The fragment is no operator, and it was read from the block. -/
inductive Fragment.ReadFrom : Fragment K → List Glyph → Prop
  | raw {text : List Glyph} : text ≠ [] → Segment.IsRaw text → ReadFrom (.raw text) text
  | group {x : Operand K} {gs : List Glyph} : x.ReadFrom gs → ReadFrom (.group x) gs
  | operand {x : Operand K} {gs : List Glyph} : x.ReadFrom gs → ReadFrom (.operand x) gs

/-- What fragments are read from before numerals are split off. -/
inductive Fragment.WrittenAs : Fragment K → List Glyph → Prop
  | item {f : Fragment K} {gs : List Glyph} : f.ReadFrom gs → WrittenAs f gs
  | operator {op : Operator} {g : Glyph} : TokenKind.ofChar g.char = .operator op →
      WrittenAs (.operator op g.span) [g]

/-- The link is an operand that was read from the block. -/
inductive Link.ReadFrom : Link K → List Glyph → Prop
  | operand {x : Operand K} {gs : List Glyph} : x.ReadFrom gs → ReadFrom (.operand x) gs

/-- The entries of the list were read from blocks that follow one another. A multiplication may be
inserted between two entries that are no operators. The list is not empty if it stands at the
start. -/
inductive Laid {β : Type} (item : β → List Glyph → Prop) (operator : Operator → Span → β) :
    Before → List β → List Glyph → Prop
  | nil {before : Before} : before ≠ .start → before ≠ .inserted →
      Laid item operator before [] []
  | item {before : Before} {a : β} {l : List β} {gs hs : List Glyph} : item a gs →
      Laid item operator .operand l hs → Laid item operator before (a :: l) (gs ++ hs)
  | operator {before : Before} {op : Operator} {g : Glyph} {l : List β} {gs : List Glyph} :
      before ≠ .inserted → TokenKind.ofChar g.char = .operator op →
      Laid item operator .operator l gs →
      Laid item operator before (operator op g.span :: l) (g :: gs)
  | inserted {s : Span} {l : List β} {gs : List Glyph} : Laid item operator .inserted l gs →
      Laid item operator .operand (operator .mul s :: l) gs

/-- A list at the start is not empty. -/
theorem Laid.ne_nil {β : Type} {item : β → List Glyph → Prop} {operator : Operator → Span → β}
    {l : List β} {gs : List Glyph} (h : Laid item operator .start l gs) : l ≠ [] := by
  rintro rfl
  cases h with
  | nil hstart => exact hstart rfl

/-- The fragments were read from blocks that follow one another. -/
abbrev Fragment.Laid : Before → List (Fragment K) → List Glyph → Prop :=
  SymbolicCalculus.Laid Fragment.ReadFrom .operator

/-- The links were read from blocks that follow one another. -/
abbrev Chain.Laid : Before → Chain K → List Glyph → Prop :=
  SymbolicCalculus.Laid Link.ReadFrom .operator

/-! ## Results -/

/-- The cause of the error is to be seen in the text that is pointed at. -/
def ParseError.SeenIn : ParseError → List Char → Prop
  | emptyInput, _ => False
  | unclosedParenthesis opening, cs => cs = [if opening then '(' else ')']
  | emptyParenthesis, cs => ∃ blanks, cs = '(' :: blanks ++ [')'] ∧
      ∀ c ∈ blanks, Text.isWhiteSpace c = true
  | nestingTooDeep _, cs => cs = ['(']
  | expressionTooDeep _, _ => True
  | invalidToken token, cs => token.toList = cs.filter fun c => !Text.isWhiteSpace c
  | adjacentOperators, cs => ∃ o op blanks o' op', cs = o :: blanks ++ [o'] ∧
      TokenKind.ofChar o = .operator op ∧ TokenKind.ofChar o' = .operator op' ∧
      ∀ c ∈ blanks, Text.isWhiteSpace c = true
  | missingOperand _, cs => ∃ o op, cs = [o] ∧ TokenKind.ofChar o = .operator op
  | invalidSyntax, _ => False

/-- The error points at one block of the glyphs, in which its cause is to be seen. -/
def Located.PointsInto (err : Located ParseError) (gs : List Glyph) : Prop :=
  ∃ block, block ≠ [] ∧ block <:+: gs ∧ err.spans = [Glyph.cover block] ∧
    err.cause.SeenIn (block.map Glyph.char)

/-- The step makes something that meets `post`, or its error points into the glyphs. -/
inductive Traced {α : Type} (gs : List Glyph) (post : α → Prop) :
    Except (Located ParseError) α → Prop
  | ok {a : α} : post a → Traced gs post (.ok a)
  | error {err : Located ParseError} : err.PointsInto gs → Traced gs post (.error err)

namespace Traced

variable {α β : Type} {gs hs : List Glyph} {post : α → Prop} {post' : β → Prop}
  {r : Except (Located ParseError) α}

theorem atSpan {cause : ParseError} {block : List Glyph} (hne : block ≠ []) (h : block <:+: gs)
    (hseen : cause.SeenIn (block.map Glyph.char)) :
    Traced gs post (.error (.atSpan cause (Glyph.cover block))) :=
  .error ⟨block, hne, h, rfl, hseen⟩

/-- What such a step makes is as it should be. -/
theorem post_of_ok (h : Traced gs post r) {a : α} (hr : r = .ok a) : post a := by
  cases h with
  | ok ha =>
      cases hr
      exact ha
  | error _ => cases hr

/-- What such a step fails with points into the glyphs. -/
theorem pointsInto_of_error (h : Traced gs post r) {err : Located ParseError}
    (hr : r = .error err) : err.PointsInto gs := by
  cases h with
  | ok _ => cases hr
  | error herr =>
      cases hr
      exact herr

/-- A step of reading glyphs is one of reading more glyphs. -/
theorem widen (h : Traced gs post r) (hgs : gs <:+: hs) : Traced hs post r := by
  cases h with
  | ok ha => exact .ok ha
  | error herr =>
      obtain ⟨block, hne, hblock, hspans, hseen⟩ := herr
      exact .error ⟨block, hne, hblock.trans hgs, hspans, hseen⟩

/-- What comes after a step may make use of what the step made. -/
theorem bind_of_eq {f : α → Except (Located ParseError) β} (h : Traced gs post r)
    (hf : ∀ a, r = .ok a → post a → Traced gs post' (f a)) : Traced gs post' (r >>= f) := by
  cases h with
  | ok ha => exact hf _ rfl ha
  | error herr => exact .error herr

theorem bind {f : α → Except (Located ParseError) β} (h : Traced gs post r)
    (hf : ∀ a, post a → Traced gs post' (f a)) : Traced gs post' (r >>= f) :=
  h.bind_of_eq fun a _ => hf a

/-- What a step makes may be changed afterwards. -/
theorem map {f : α → β} (h : Traced gs post r) (hf : ∀ a, post a → post' (f a)) :
    Traced gs post' (r.map f) := by
  cases h with
  | ok ha => exact .ok (hf _ ha)
  | error herr => exact .error herr

end Traced

end SymbolicCalculus
