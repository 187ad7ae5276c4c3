import SymbolicCalculus.Grammar.Segment

/-!
# Grouping glyph by glyph

Raw text right after raw text continues it, and white space is dropped. So it makes no difference to
the segments of a source where its runs are cut into tokens, and each glyph may as well be a token
of its own (`collect_ofGlyphs`).

`Collects k gs ss` says that the glyphs `gs` add the segments `ss` to those before them, whatever
comes before and after them, and open up to `k` parentheses at a time. The texts of which a printed
formula consists are put together in this way.
-/

namespace SymbolicCalculus

/-! ## Glyphs as tokens -/

/-- A token of one glyph. -/
def Token.single (g : Glyph) : Token := ⟨.ofChar g.char, [g]⟩

namespace Segment

open Token

/-- Raw text may be added in two portions. -/
theorem pushRaw_append (a b : List Glyph) (segments : List Segment) :
    pushRaw (a ++ b) segments = pushRaw b (pushRaw a segments) := by
  cases segments with
  | nil => rfl
  | cons segment segments => cases segment <;> simp [pushRaw]

/-- Once raw text is read there is a segment. -/
theorem pushRaw_ne_nil (text : List Glyph) (segments : List Segment) :
    pushRaw text segments ≠ [] := by
  cases segments with
  | nil => exact List.cons_ne_nil _ _
  | cons s segments => cases s <;> exact List.cons_ne_nil _ _

variable {n : Nat} {groups : List OpenGroup} {segments : List Segment}

/-- What one token does to the stack, for each of its kinds. -/
theorem collect_cons (t : Token) (ts : List Token) :
    collect n groups segments (t :: ts) =
      match t.kind with
      | .whiteSpace => collect n groups segments ts
      | .raw => collect n groups (pushRaw t.glyphs segments) ts
      | .operator op => collect n groups (operator op t.span :: segments) ts
      | .openParen =>
        if groups.length ≥ n then .error (.atSpan (.nestingTooDeep n) t.span)
        else collect n (⟨segments, t.span⟩ :: groups) [] ts
      | .closeParen =>
        match groups with
        | [] => .error (.atSpan (.unclosedParenthesis false) t.span)
        | closed :: groups =>
          if segments.isEmpty then
            .error (.atSpan .emptyParenthesis (closed.paren.through t.span))
          else collect n groups
            (group segments.reverse (closed.paren.through t.span) :: closed.before) ts := by
  rw [collect.eq_def]
  cases groups <;> rfl

/-- What is kept between two tokens. -/
structure Stack where
  /-- The groups that are open, innermost first. -/
  groups : List OpenGroup
  /-- The segments read since the innermost one was opened, the nearest one first. -/
  segments : List Segment

/-- Reads one token. -/
def Stack.read (n : Nat) (st : Stack) (t : Token) : Except (Located ParseError) Stack :=
  match t.kind with
  | .whiteSpace => .ok st
  | .raw => .ok ⟨st.groups, pushRaw t.glyphs st.segments⟩
  | .operator op => .ok ⟨st.groups, operator op t.span :: st.segments⟩
  | .openParen =>
    if st.groups.length ≥ n then .error (.atSpan (.nestingTooDeep n) t.span)
    else .ok ⟨⟨st.segments, t.span⟩ :: st.groups, []⟩
  | .closeParen =>
    match st.groups with
    | [] => .error (.atSpan (.unclosedParenthesis false) t.span)
    | closed :: groups =>
      let span := closed.paren.through t.span
      if st.segments.isEmpty then .error (.atSpan .emptyParenthesis span)
      else .ok ⟨groups, group st.segments.reverse span :: closed.before⟩

/-- Ends the reading, which leaves no group open. -/
def Stack.close (st : Stack) : Except (Located ParseError) (List Segment) :=
  match st.groups with
  | [] => .ok st.segments.reverse
  | unclosed :: _ =>
    .error (.atSpan (.unclosedParenthesis true) ⟨unclosed.paren.start, unclosed.paren.start + 1⟩)

/-- Grouping reads one token after another and ends the reading. -/
theorem collect_eq (st : Stack) (ts : List Token) :
    collect n st.groups st.segments ts = ts.foldlM (Stack.read n) st >>= Stack.close := by
  induction ts generalizing st with
  | nil =>
      obtain ⟨groups, segments⟩ := st
      cases groups <;> rfl
  | cons t ts ih =>
      rw [collect_cons, List.foldlM_cons, bind_assoc]
      simp only [← ih]
      -- the two recursions do the same at each kind of token
      rw [Stack.read]
      split
      · rfl
      · rfl
      · rfl
      · split <;> rfl
      · dsimp only
        split
        · rfl
        · split <;> rfl

/-- A glyph that joins the token after it adds what it would add as a token of its own. -/
theorem collect_push (g : Glyph) (ts : List Token) :
    collect n groups segments (push g ts) = collect n groups segments (single g :: ts) := by
  cases ts with
  | nil => rfl
  | cons t ts =>
      rw [push]
      split
      · next hjoin =>
        obtain ⟨hrun, hkind⟩ := Bool.and_eq_true_iff.mp hjoin
        have hkind := eq_of_beq hkind
        rw [collect_cons, collect_cons, single]
        dsimp only
        -- only white space and raw text come in runs, and both may be read glyph by glyph
        cases hg : TokenKind.ofChar g.char with
        | whiteSpace =>
            dsimp only
            rw [collect_cons, ← hkind, hg]
        | raw =>
            dsimp only
            rw [collect_cons, ← hkind, hg]
            exact congrArg (fun segments => collect n groups segments ts)
              (pushRaw_append [g] t.glyphs segments)
        | _ =>
            rw [hg] at hrun
            cases hrun
      · rfl

/-- The segments of a source do not depend on how its runs are cut into tokens. -/
theorem collect_ofGlyphs (gs : List Glyph) :
    collect n groups segments (ofGlyphs gs) = collect n groups segments (gs.map single) := by
  induction gs generalizing groups segments with
  | nil => rfl
  | cons g gs ih =>
      have hpush : ofGlyphs (g :: gs) = push g (ofGlyphs gs) := rfl
      rw [hpush, collect_push, List.map_cons, collect_cons, collect_cons]
      simp only [ih]

/-- White space may be dropped before grouping. -/
theorem collect_filter (ts : List Token) :
    collect n groups segments (ts.filter fun t => !t.isWhiteSpace) =
      collect n groups segments ts := by
  induction ts generalizing groups segments with
  | nil => rfl
  | cons t ts ih =>
      by_cases hspace : t.kind = .whiteSpace
      · rw [List.filter_cons_of_neg (by simp [isWhiteSpace, hspace]), ih, collect_cons, hspace]
      · rw [List.filter_cons_of_pos (by simp [isWhiteSpace, hspace]), collect_cons, collect_cons]
        simp only [ih]

/-- Grouping a source is grouping its glyphs. -/
theorem ofTokens_significant (n : Nat) (source : String) :
    ofTokens n (significant source) = collect n [] [] ((Glyph.ofSource source).map single) := by
  rw [ofTokens, significant, collect_filter, tokenize, collect_ofGlyphs]

end Segment

/-! ## Kinds of glyphs -/

namespace TokenKind

theorem ofChar_eq_openParen {c : Char} (h : ofChar c = .openParen) : c = '(' := by
  unfold ofChar at h
  split at h <;> first | rfl | cases h | skip
  split at h <;> cases h

theorem ofChar_eq_closeParen {c : Char} (h : ofChar c = .closeParen) : c = ')' := by
  unfold ofChar at h
  split at h <;> first | rfl | cases h | skip
  split at h <;> cases h

end TokenKind

namespace Segment

open Token

variable {n : Nat} {groups : List OpenGroup} {segments : List Segment}

/-- All glyphs are raw text. -/
def IsRaw (gs : List Glyph) : Prop := ∀ g ∈ gs, TokenKind.ofChar g.char = .raw

/-- Glyphs of raw text add that text. -/
theorem collect_raw {gs : List Glyph} (hne : gs ≠ []) (h : IsRaw gs) (ts : List Token) :
    collect n groups segments (gs.map single ++ ts) =
      collect n groups (pushRaw gs segments) ts := by
  induction gs generalizing segments with
  | nil => exact absurd rfl hne
  | cons g gs ih =>
      have hg : (single g).kind = .raw := h g List.mem_cons_self
      rw [List.map_cons, List.cons_append, collect_cons, hg]
      -- the last glyph adds itself, and any other one goes before the rest of the text
      by_cases hgs : gs = []
      · subst hgs
        rfl
      · have hsplit : pushRaw (g :: gs) segments = pushRaw gs (pushRaw [g] segments) :=
          pushRaw_append [g] gs segments
        rw [hsplit]
        exact ih hgs fun g' hg' => h g' (List.mem_cons_of_mem g hg')

theorem collect_space {g : Glyph} (h : g.char = ' ') (ts : List Token) :
    collect n groups segments (single g :: ts) = collect n groups segments ts := by
  rw [collect_cons, single, h]
  rfl

/-- The glyph of an operator adds that operator. -/
theorem collect_operator {g : Glyph} {op : Operator} (h : TokenKind.ofChar g.char = .operator op)
    (ts : List Token) : collect n groups segments (single g :: ts) =
      collect n groups (operator op (single g).span :: segments) ts := by
  have hkind : (single g).kind = .operator op := h
  rw [collect_cons, hkind]

/-! ## What glyphs add -/

/-- The segments do not begin with raw text, which more raw text would continue. -/
def NotRawFirst : List Segment → Prop
  | raw _ :: _ => False
  | _ => True

theorem notRawFirst_operator (op : Operator) (span : Span) (segments : List Segment) :
    NotRawFirst (operator op span :: segments) := trivial

/-- The glyphs add the segments to those before them, with at most `k` more parentheses open at a
time. -/
def Collects (k : Nat) (gs : List Glyph) (ss : List Segment) : Prop :=
  ∀ n groups segments ts, groups.length + k ≤ n → NotRawFirst segments →
    collect n groups segments (gs.map single ++ ts) =
      collect n groups (ss.reverse ++ segments) ts

/-- The glyphs add the segment as one of its own, also right after raw text. -/
def Adds (k : Nat) (gs : List Glyph) (s : Segment) : Prop :=
  ∀ n groups segments ts, groups.length + k ≤ n →
    collect n groups segments (gs.map single ++ ts) = collect n groups (s :: segments) ts

theorem Adds.collects {k : Nat} {gs : List Glyph} {s : Segment} (h : Adds k gs s) :
    Collects k gs [s] :=
  fun n groups segments ts hn _ => h n groups segments ts hn

namespace Collects

variable {k : Nat} {gs hs : List Glyph} {ss tt : List Segment}

theorem mono {k' : Nat} (h : Collects k gs ss) (hk : k ≤ k') : Collects k' gs ss :=
  fun n groups segments ts hn hraw => h n groups segments ts (by omega) hraw

/-- Raw text adds itself where no raw text comes before it. -/
theorem raw (hne : gs ≠ []) (h : IsRaw gs) : Collects 0 gs [.raw gs] := by
  intro n groups segments ts _ hraw
  rw [collect_raw hne h]
  cases segments with
  | nil => rfl
  | cons segment segments => cases segment <;> first | rfl | exact hraw.elim

/-- An operator keeps the segments on its sides apart. Blanks may stand on either side of it. -/
theorem operator {op : Operator} {g : Glyph} {before after : List Glyph}
    (hgs : Collects k gs ss) (hop : TokenKind.ofChar g.char = .operator op)
    (hbefore : ∀ b ∈ before, b.char = ' ') (hafter : ∀ b ∈ after, b.char = ' ')
    (hhs : Collects k hs tt) :
    Collects k (gs ++ (before ++ g :: after) ++ hs) (ss ++ .operator op (single g).span :: tt) := by
  -- blanks add nothing, however many there are
  have hblanks (bs : List Glyph) (hbs : ∀ b ∈ bs, b.char = ' ') (n : Nat)
      (groups : List OpenGroup) (segments : List Segment) (ts : List Token) :
      collect n groups segments (bs.map single ++ ts) = collect n groups segments ts := by
    induction bs with
    | nil => rfl
    | cons b bs ih =>
        rw [List.map_cons, List.cons_append, collect_space (hbs b List.mem_cons_self)]
        exact ih fun b' hb' => hbs b' (List.mem_cons_of_mem b hb')
  intro n groups segments ts hn hraw
  simp only [List.map_append, List.map_cons, List.append_assoc, List.cons_append]
  rw [hgs n groups segments _ hn hraw, hblanks before hbefore, collect_operator hop,
    hblanks after hafter, hhs n groups (_ :: _) ts hn (notRawFirst_operator _ _ _)]
  simp

/-- A minus with nothing before it. -/
theorem sign {g : Glyph} (hg : g.char = '-') (h : Collects k gs ss) :
    Collects k (g :: gs) (.operator .sub (single g).span :: ss) := by
  intro n groups segments ts hn hraw
  have hop : TokenKind.ofChar g.char = .operator .sub := by rw [hg]; rfl
  rw [List.map_cons, List.cons_append, collect_operator hop,
    h n groups (_ :: _) ts hn (notRawFirst_operator _ _ _)]
  simp

/-- Parentheses around glyphs that add anything make a group. -/
theorem group {opening closing : Glyph} (ho : opening.char = '(') (hc : closing.char = ')')
    (hne : ss ≠ []) (h : Collects k gs ss) : Adds (k + 1) (opening :: gs ++ [closing])
      (.group ss ((single opening).span.through (single closing).span)) := by
  intro n groups segments ts hn
  have hopen : (single opening).kind = .openParen := by rw [single, ho]; rfl
  have hclose : (single closing).kind = .closeParen := by rw [single, hc]; rfl
  have hlt : ¬ groups.length ≥ n := by omega
  have hinner : (OpenGroup.mk segments (single opening).span :: groups).length + k ≤ n := by
    rw [List.length_cons]
    omega
  simp only [List.cons_append, List.map_cons, List.map_append, List.append_assoc, List.map_nil,
    List.nil_append]
  rw [collect_cons, hopen]
  dsimp only
  rw [if_neg hlt]
  have hstep := h n (⟨segments, (single opening).span⟩ :: groups) [] (single closing :: ts) hinner
    trivial
  rw [hstep, collect_cons, hclose]
  simp [hne]

/-- A segment right after others. -/
theorem append_adds {s : Segment} (h : Collects k gs ss) (h' : Adds k hs s) :
    Collects k (gs ++ hs) (ss ++ [s]) := by
  intro n groups segments ts hn hraw
  rw [List.map_append, List.append_assoc, h n groups segments _ hn hraw,
    h' n groups _ ts hn, List.reverse_append]
  rfl

end Collects

end Segment

end SymbolicCalculus
