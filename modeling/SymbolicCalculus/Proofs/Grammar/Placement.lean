import Mathlib.Data.List.Forall2
import SymbolicCalculus.Grammar.Fragment
import SymbolicCalculus.Proofs.Results

/-!
# The same text in two places

`R` pairs glyphs of one source with glyphs of another. Spans, operands and segments correspond if
they begin and end at paired glyphs and show the same text otherwise. Two results agree if they are
corresponding values, or errors with the same cause at corresponding spans.
-/

namespace SymbolicCalculus

variable {K : Type} {R : Glyph → Glyph → Prop}

/-! ## Glyphs and spans -/

/-- The glyphs are paired and show the same character. -/
structure Glyph.Moved (R : Glyph → Glyph → Prop) (g g' : Glyph) : Prop where
  paired : R g g'
  char_eq : g.char = g'.char

/-- The texts consist of paired glyphs. -/
abbrev Glyph.TextsMoved (R : Glyph → Glyph → Prop) : List Glyph → List Glyph → Prop :=
  List.Forall₂ (Glyph.Moved R)

/-- The spans begin at paired glyphs and end with paired glyphs. -/
inductive Span.Moved (R : Glyph → Glyph → Prop) : Span → Span → Prop
  | through {g g' h h' : Glyph} : g.Moved R g' → h.Moved R h' →
      Moved R (g.span.through h.span) (g'.span.through h'.span)

theorem Glyph.Moved.span {g g' : Glyph} (h : g.Moved R g') : Span.Moved R g.span g'.span :=
  .through h h

/-- What reaches through corresponding places corresponds. -/
theorem Span.Moved.trans {a a' b b' : Span} (ha : Span.Moved R a a') (hb : Span.Moved R b b') :
    Span.Moved R (a.through b) (a'.through b') := by
  obtain ⟨hg, -⟩ := ha
  obtain ⟨-, hh⟩ := hb
  exact .through hg hh

namespace Glyph.TextsMoved

variable {gs gs' : List Glyph}

theorem map_char (h : TextsMoved R gs gs') : gs.map Glyph.char = gs'.map Glyph.char := by
  induction h with
  | nil => rfl
  | cons hg _ ih => rw [List.map_cons, List.map_cons, hg.char_eq, ih]

theorem text_eq (h : TextsMoved R gs gs') : Glyph.text gs = Glyph.text gs' :=
  congrArg String.ofList (map_char h)

/-- Corresponding texts end with paired glyphs. -/
theorem exists_getLast? (h : TextsMoved R gs gs') (hne : gs ≠ []) :
    ∃ g g', gs.getLast? = some g ∧ gs'.getLast? = some g' ∧ g.Moved R g' := by
  induction h with
  | nil => exact absurd rfl hne
  | cons hg htail ih =>
      cases htail with
      | nil => exact ⟨_, _, rfl, rfl, hg⟩
      | cons => simpa only [List.getLast?_cons_cons] using ih (List.cons_ne_nil _ _)

/-- Corresponding texts cover corresponding places. -/
theorem cover (h : TextsMoved R gs gs') (hne : gs ≠ []) :
    Span.Moved R (Glyph.cover gs) (Glyph.cover gs') := by
  obtain ⟨last, last', hlast, hlast', hmoved⟩ := exists_getLast? h hne
  cases h with
  | nil => exact absurd rfl hne
  | cons hg htail =>
      rw [Glyph.cover, Glyph.cover, hlast, hlast']
      exact .through hg hmoved

end Glyph.TextsMoved

/-- Texts that show the same correspond if all glyphs are paired. -/
theorem Glyph.textsMoved_of_map_char {gs gs' : List Glyph}
    (h : gs.map Glyph.char = gs'.map Glyph.char) : TextsMoved (fun _ _ => True) gs gs' := by
  rw [← List.forall₂_eq_eq_eq, List.forall₂_map_left_iff, List.forall₂_map_right_iff] at h
  exact h.imp fun _ _ hchar => ⟨trivial, hchar⟩

/-! ## Operands -/

/-- The operands have the same tree and were read from corresponding places. -/
structure Operand.Moved (R : Glyph → Glyph → Prop) (x y : Operand K) : Prop where
  expr_eq : x.expr = y.expr
  depth_eq : x.depth = y.depth
  span : Span.Moved R x.span y.span

/-! ## Segments -/

/-- The segments consist of the same text at corresponding places. -/
inductive Segment.Moved (R : Glyph → Glyph → Prop) : Segment → Segment → Prop
  | raw {text text' : List Glyph} : text ≠ [] → Glyph.TextsMoved R text text' →
      Moved R (.raw text) (.raw text')
  | operator {a b : Span} (op : Operator) : Span.Moved R a b →
      Moved R (.operator op a) (.operator op b)
  | group {ss ss' : List Segment} {a b : Span} : ss ≠ [] → List.Forall₂ (Moved R) ss ss' →
      Span.Moved R a b → Moved R (.group ss a) (.group ss' b)

/-! ## Entries of lists -/

/-- The fragments show the same, and they are no operators. -/
inductive Fragment.Moved (R : Glyph → Glyph → Prop) : Fragment K → Fragment K → Prop
  | raw {text text' : List Glyph} : text ≠ [] → Glyph.TextsMoved R text text' →
      Moved R (.raw text) (.raw text')
  | group {x y : Operand K} : x.Moved R y → Moved R (.group x) (.group y)
  | operand {x y : Operand K} : x.Moved R y → Moved R (.operand x) (.operand y)

/-- The links are corresponding operands. -/
inductive Link.Moved (R : Glyph → Glyph → Prop) : Link K → Link K → Prop
  | operand {x y : Operand K} : x.Moved R y → Moved R (.operand x) (.operand y)

/-- What stands before an entry of a list: nothing, an operand, an operator that was written, or a
multiplication that was inserted after a numeral. -/
inductive Before where
  | start
  | operand
  | operator
  | inserted

/-- The lists correspond entry by entry. A multiplication may be inserted between two entries that
are no operators, and its place need not correspond to anything. The lists are not empty if they
stand at the start. -/
inductive Aligned {β : Type} (R : Glyph → Glyph → Prop) (item : β → β → Prop)
    (operator : Operator → Span → β) : Before → List β → List β → Prop
  | nil {before : Before} : before ≠ .start → before ≠ .inserted →
      Aligned R item operator before [] []
  | item {before : Before} {a a' : β} {l l' : List β} : item a a' →
      Aligned R item operator .operand l l' →
      Aligned R item operator before (a :: l) (a' :: l')
  | operator {before : Before} {op : Operator} {s s' : Span} {l l' : List β} :
      before ≠ .inserted → Span.Moved R s s' → Aligned R item operator .operator l l' →
      Aligned R item operator before (operator op s :: l) (operator op s' :: l')
  | inserted {s s' : Span} {l l' : List β} : Aligned R item operator .inserted l l' →
      Aligned R item operator .operand (operator .mul s :: l) (operator .mul s' :: l')

/-- Lists at the start are not empty. -/
theorem Aligned.ne_nil {β : Type} {item : β → β → Prop} {operator : Operator → Span → β}
    {l l' : List β} (h : Aligned R item operator .start l l') : l ≠ [] ∧ l' ≠ [] := by
  constructor
  · rintro rfl
    cases h with
    | nil hstart => exact hstart rfl
  · rintro rfl
    cases h with
    | nil hstart => exact hstart rfl

/-- The lists of fragments correspond. -/
abbrev Fragment.Aligned (R : Glyph → Glyph → Prop) :
    Before → List (Fragment K) → List (Fragment K) → Prop :=
  SymbolicCalculus.Aligned R (Fragment.Moved R) .operator

/-- The chains correspond. -/
abbrev Chain.Aligned (R : Glyph → Glyph → Prop) : Before → Chain K → Chain K → Prop :=
  SymbolicCalculus.Aligned R (Link.Moved R) .operator

/-! ## Results -/

/-- The results correspond, or they are errors with the same cause at corresponding places. -/
inductive Agrees (R : Glyph → Glyph → Prop) {α β : Type} (rel : α → β → Prop) :
    Except (Located ParseError) α → Except (Located ParseError) β → Prop
  | ok {a : α} {b : β} : rel a b → Agrees R rel (.ok a) (.ok b)
  | error {cause : ParseError} {spans spans' : List Span} :
      List.Forall₂ (Span.Moved R) spans spans' →
      Agrees R rel (.error ⟨cause, spans⟩) (.error ⟨cause, spans'⟩)

namespace Agrees

variable {α β α' β' : Type} {rel : α → β → Prop} {rel' : α' → β' → Prop}
  {x : Except (Located ParseError) α} {y : Except (Located ParseError) β}

theorem atSpan {a b : Span} (cause : ParseError) (h : Span.Moved R a b) :
    Agrees R rel (.error (.atSpan cause a)) (.error (.atSpan cause b)) :=
  .error (.cons h .nil)

/-- If the one run makes something, so does the other. -/
theorem exists_of_ok (h : Agrees R rel x y) {a : α} (hx : x = .ok a) : ∃ b, y = .ok b ∧ rel a b := by
  cases h with
  | ok hab =>
      cases hx
      exact ⟨_, rfl, hab⟩
  | error _ => cases hx

/-- What comes after results that agree may make use of what they are. -/
theorem bind_of_eq {f : α → Except (Located ParseError) α'} {g : β → Except (Located ParseError) β'}
    (h : Agrees R rel x y)
    (hf : ∀ a b, x = .ok a → y = .ok b → rel a b → Agrees R rel' (f a) (g b)) :
    Agrees R rel' (x >>= f) (y >>= g) := by
  cases h with
  | ok hab => exact hf _ _ rfl rfl hab
  | error hspans => exact .error hspans

theorem bind {f : α → Except (Located ParseError) α'} {g : β → Except (Located ParseError) β'}
    (h : Agrees R rel x y) (hf : ∀ a b, rel a b → Agrees R rel' (f a) (g b)) :
    Agrees R rel' (x >>= f) (y >>= g) :=
  h.bind_of_eq fun a b _ _ => hf a b

/-- Results that agree still agree if less is asked of their values. -/
theorem imp {rel₁ : α → β → Prop} (h : Agrees R rel x y) (hrel : ∀ a b, rel a b → rel₁ a b) :
    Agrees R rel₁ x y := by
  cases h with
  | ok hab => exact .ok (hrel _ _ hab)
  | error hspans => exact .error hspans

/-- Results that agree still do when they are changed alike. -/
theorem map {f : α → α'} {g : β → β'} (h : Agrees R rel x y)
    (hf : ∀ a b, rel a b → rel' (f a) (g b)) : Agrees R rel' (x.map f) (y.map g) := by
  cases h with
  | ok hab => exact .ok (hf _ _ hab)
  | error hspans => exact .error hspans

end Agrees

end SymbolicCalculus
