import Mathlib.Data.List.Induction
import Mathlib.Data.List.Infix
import SymbolicCalculus.Proofs.Grammar.Grouping

/-!
# Balanced parentheses

Grouping keeps the groups that are still open on a stack. The stack tells where a token list stands:
`Opened` takes the tokens read so far apart at the parentheses that are still open, and what stands
after each of these is balanced.

As long as no token offends (`Offends`), reading goes on and keeps the stack in step with the tokens
(`Inoffensive.reaches`). So a list of tokens is grouped exactly if it is balanced, without an empty
pair, and not nested too deeply, and otherwise the first offence decides which error is reported
(`ofTokens_balanced`).
-/

namespace SymbolicCalculus

/-- What a token of the kind adds to the number of open parentheses. -/
def TokenKind.weight : TokenKind → Int
  | openParen => 1
  | closeParen => -1
  | _ => 0

namespace Token

/-! ## Balance and nesting -/

/-- How many more parentheses the tokens open than they close. -/
def height : List Token → Int
  | [] => 0
  | t :: ts => t.kind.weight + height ts

/-- Every parenthesis among the tokens has its partner. -/
inductive Balanced : List Token → Prop
  | nil : Balanced []
  | token {t : Token} {ts : List Token} : t.kind ≠ .openParen → t.kind ≠ .closeParen →
      Balanced ts → Balanced (t :: ts)
  | pair {opening closing : Token} {inside after : List Token} : opening.kind = .openParen →
      closing.kind = .closeParen → Balanced inside → Balanced after →
      Balanced (opening :: inside ++ closing :: after)

/-- All tokens are white space. -/
def IsBlank (ts : List Token) : Prop := ∀ t ∈ ts, t.kind = .whiteSpace

/-- Somewhere a pair of parentheses has nothing but white space between them. -/
def HasEmptyPair (ts : List Token) : Prop :=
  ∃ before opening blanks closing after, ts = before ++ opening :: blanks ++ closing :: after ∧
    opening.kind = .openParen ∧ closing.kind = .closeParen ∧ IsBlank blanks

/-- When the tokens are read from the left, at most `n` parentheses are open at a time. -/
def NestedWithin (n : Nat) (ts : List Token) : Prop := ∀ read, read <+: ts → height read ≤ n

@[simp] theorem height_nil : height [] = 0 := rfl

@[simp] theorem height_cons (t : Token) (ts : List Token) :
    height (t :: ts) = t.kind.weight + height ts := rfl

@[simp] theorem height_append (as bs : List Token) :
    height (as ++ bs) = height as + height bs := by
  induction as with
  | nil => exact (Int.zero_add _).symm
  | cons t as ih => rw [List.cons_append, height_cons, height_cons, ih, Int.add_assoc]

theorem weight_of_ne {kind : TokenKind} (ho : kind ≠ .openParen) (hc : kind ≠ .closeParen) :
    kind.weight = 0 := by
  cases kind <;> first | rfl | contradiction

namespace Balanced

variable {as bs : List Token} {opening : Token}

/-- Balanced tokens open as many parentheses as they close. -/
theorem height_eq (h : Balanced as) : height as = 0 := by
  induction h with
  | nil => rfl
  | token ho hc _ ih => rw [height_cons, weight_of_ne ho hc, ih, Int.zero_add]
  | pair ho hc _ _ ihinside ihafter =>
      simp [ho, hc, TokenKind.weight, ihinside, ihafter]

/-- No parenthesis is closed before it is opened. -/
theorem height_nonneg (h : Balanced as) {read rest : List Token} (hsplit : as = read ++ rest) :
    0 ≤ height read := by
  -- induction on the balance, over all places where the tokens may be cut
  induction h generalizing read rest with
  | nil =>
      obtain ⟨rfl, -⟩ := List.append_eq_nil_iff.mp hsplit.symm
      exact Int.le_refl 0
  | @token t ts ho hc _ ih =>
      obtain ⟨rfl, -⟩ | ⟨read, rfl, hts⟩ := List.cons_eq_append_iff.mp hsplit
      · exact Int.le_refl 0
      · rw [height_cons, weight_of_ne ho hc, Int.zero_add]
        exact ih hts
  | @pair opening closing inside after ho hc hinside _ ihinside ihafter =>
      obtain ⟨rfl, -⟩ | ⟨read, rfl, hread⟩ := List.cons_eq_append_iff.mp hsplit
      · exact Int.le_refl 0
      -- the split is inside the pair, or after its closing parenthesis
      · obtain ⟨more, hmore, -⟩ | ⟨more, rfl, hmore⟩ := List.append_eq_append_iff.mp hread.symm
        · have := ihinside hmore
          rw [height_cons, ho, TokenKind.weight]
          omega
        · obtain ⟨rfl, -⟩ | ⟨read, rfl, hafter⟩ := List.cons_eq_append_iff.mp hmore
          · simp [ho, TokenKind.weight, hinside.height_eq]
          · have := ihafter hafter
            simp only [height_cons, height_append, ho, hc, TokenKind.weight, hinside.height_eq]
            omega

/-- Balanced tokens may follow each other. -/
theorem append (ha : Balanced as) (hb : Balanced bs) : Balanced (as ++ bs) := by
  induction ha with
  | nil => exact hb
  | token ho hc _ ih => exact .token ho hc ih
  | pair ho hc hinside _ _ ih =>
      have h := Balanced.pair ho hc hinside ih
      simpa using h

/-- White space is balanced. -/
theorem of_isBlank (h : IsBlank as) : Balanced as := by
  induction as with
  | nil => exact .nil
  | cons t ts ih =>
      obtain ⟨ht, hts⟩ := List.forall_mem_cons.mp h
      exact .token (by simp [ht]) (by simp [ht]) (ih hts)

/-- A parenthesis with something balanced after it is not balanced itself. -/
theorem not_open (h : Balanced (as ++ opening :: bs)) (ho : opening.kind = .openParen)
    (hb : Balanced bs) : False := by
  have hpre := h.height_nonneg rfl
  have hall := h.height_eq
  rw [height_append, height_cons, ho, hb.height_eq, TokenKind.weight] at hall
  omega

end Balanced

end Token

open Token

namespace Segment

/-! ## The stack of open groups -/

/-- The segments were read from the tokens, which are balanced. -/
structure ReadBalanced (read : List Token) (segments : List Segment) : Prop where
  balanced : Balanced read
  eq_nil_iff : segments = [] ↔ IsBlank read

/-- After the tokens were read, the groups are open, innermost first, and the segments are those
read since the innermost one was opened. -/
inductive Opened : List Token → List OpenGroup → List Segment → Prop
  | outside {read : List Token} {segments : List Segment} : ReadBalanced read segments →
      Opened read [] segments
  | inside {before read : List Token} {opening : Token} {groups : List OpenGroup}
      {outer segments : List Segment} : Opened before groups outer → opening.kind = .openParen →
      ReadBalanced read segments →
      Opened (before ++ opening :: read) (⟨outer, opening.span⟩ :: groups) segments

namespace Opened

variable {read before after : List Token} {groups : List OpenGroup} {segments : List Segment}
  {t opening : Token} {n : Nat}

/-- The stack is as high as the tokens that were read. -/
theorem height_eq (h : Opened read groups segments) : height read = groups.length := by
  induction h with
  | outside hread => exact hread.balanced.height_eq
  | inside _ ho hread ih =>
      simp [ho, TokenKind.weight, hread.balanced.height_eq, ih]

/-- A parenthesis after which everything is balanced is the one that was opened last. -/
theorem exists_of_open (h : Opened (before ++ opening :: after) groups segments)
    (ho : opening.kind = .openParen) (hafter : Balanced after) :
    ∃ outer rest, groups = ⟨outer, opening.span⟩ :: rest ∧ (segments = [] ↔ IsBlank after) := by
  generalize hall : before ++ opening :: after = all at h
  cases h with
  | outside hread =>
      subst hall
      exact (hread.balanced.not_open ho hafter).elim
  | @inside before' read opening' rest outer _ _ ho' hread =>
      -- of two such parentheses, the first one would have the second one after it
      obtain ⟨more, hmore, hafter'⟩ | ⟨more, hmore, hread'⟩ := List.append_eq_append_iff.mp hall
      · cases more with
        | nil =>
            obtain ⟨rfl, rfl⟩ := List.cons.inj hafter'
            exact ⟨outer, rest, rfl, hread.eq_nil_iff⟩
        | cons t more =>
            obtain ⟨rfl, rfl⟩ := List.cons.inj hafter'
            exact (hafter.not_open ho' hread.balanced).elim
      · cases more with
        | nil =>
            obtain ⟨rfl, rfl⟩ := List.cons.inj hread'
            exact ⟨outer, rest, rfl, hread.eq_nil_iff⟩
        | cons t more =>
            obtain ⟨rfl, rfl⟩ := List.cons.inj hread'
            exact (hread.balanced.not_open ho hafter).elim

/-- What is balanced goes on top of the stack. -/
theorem push {more : List Token} {segments' : List Segment} (h : Opened read groups segments)
    (hmore : Balanced more) (hempty : segments' = [] ↔ segments = [] ∧ IsBlank more) :
    Opened (read ++ more) groups segments' := by
  -- the tokens go behind those since the innermost open parenthesis, or behind all if none is open
  have hgo {read : List Token} (hread : ReadBalanced read segments) :
      ReadBalanced (read ++ more) segments' :=
    ⟨hread.balanced.append hmore, by
      rw [hempty, hread.eq_nil_iff, IsBlank, IsBlank, IsBlank, List.forall_mem_append]⟩
  cases h with
  | outside hread => exact .outside (hgo hread)
  | inside hbefore ho hread =>
      rw [List.append_assoc, List.cons_append]
      exact .inside hbefore ho (hgo hread)

end Opened

/-! ## Offences -/

/-- The token cannot follow the tokens that were read when up to `n` parentheses may be open: it
opens one too many, closes one that is not open, or closes one right after it was opened. -/
inductive Offends (n : Nat) (read : List Token) (t : Token) : Located ParseError → Prop
  | tooDeep : t.kind = .openParen → height read = n →
      Offends n read t (.atSpan (.nestingTooDeep n) t.span)
  | stray : t.kind = .closeParen → height read = 0 →
      Offends n read t (.atSpan (.unclosedParenthesis false) t.span)
  | empty {before blanks : List Token} {opening : Token} : t.kind = .closeParen →
      read = before ++ opening :: blanks → opening.kind = .openParen → IsBlank blanks →
      Offends n read t (.atSpan .emptyParenthesis (opening.span.through t.span))

/-- No token offends. -/
def Inoffensive (n : Nat) (ts : List Token) : Prop :=
  ∀ read t rest err, ts = read ++ t :: rest → ¬Offends n read t err

/-- What the tokens are refused for: the first offence or, if there is none, the last parenthesis
that was opened and not closed. -/
inductive Refusal (n : Nat) (ts : List Token) : Located ParseError → Prop
  | offence {read rest : List Token} {t : Token} {err : Located ParseError} :
      ts = read ++ t :: rest → Inoffensive n read → Offends n read t err → Refusal n ts err
  | unclosed {before after : List Token} {opening : Token} : Inoffensive n ts →
      ts = before ++ opening :: after → opening.kind = .openParen → Balanced after →
      Refusal n ts (.atSpan (.unclosedParenthesis true)
        ⟨opening.span.start, opening.span.start + 1⟩)

section

variable {n : Nat} {read rest ts : List Token} {t : Token} {groups : List OpenGroup}
  {segments : List Segment} {err : Located ParseError}

theorem Inoffensive.left (h : Inoffensive n (read ++ rest)) : Inoffensive n read :=
  fun front t back err hsplit => h front t (back ++ rest) err (by simp [hsplit])

/-- A token that does not offend may come next. -/
theorem inoffensive_concat (h : Inoffensive n ts) (ht : ∀ err, ¬Offends n ts t err) :
    Inoffensive n (ts ++ [t]) := by
  intro read t' rest err hsplit
  -- the offending token would be the new one or one of the old ones
  obtain ⟨more, hread, hrest⟩ | ⟨more, hts, hrest⟩ := List.append_eq_append_iff.mp hsplit
  · cases more with
    | nil =>
        obtain ⟨rfl, -⟩ := List.cons.inj hrest
        rw [hread, List.append_nil]
        exact ht err
    | cons => simp at hrest
  · cases more with
    | nil =>
        obtain ⟨rfl, -⟩ := List.cons.inj hrest
        rw [← List.append_nil read, ← hts]
        exact ht err
    | cons t'' more =>
        obtain ⟨rfl, rfl⟩ := List.cons.inj hrest
        exact h read t' more err hts

/-- No token offends, or there is a first one that does. -/
theorem inoffensive_or (n : Nat) (ts : List Token) : Inoffensive n ts ∨
    ∃ read t rest err, ts = read ++ t :: rest ∧ Inoffensive n read ∧ Offends n read t err := by
  -- tokens are added at the end, so the first offence found is the first of all
  induction ts using List.reverseRecOn with
  | nil => exact Or.inl fun read t rest err hsplit => by simp at hsplit
  | append_singleton ts t ih =>
      obtain hts | ⟨read, t', rest, err, rfl, hread, hoffends⟩ := ih
      · by_cases ht : ∃ err, Offends n ts t err
        · obtain ⟨err, herr⟩ := ht
          exact Or.inr ⟨ts, t, [], err, rfl, hts, herr⟩
        · exact Or.inl (inoffensive_concat hts (not_exists.mp ht))
      · exact Or.inr ⟨read, t', rest ++ [t], err, by simp, hread, hoffends⟩

/-- A token that does not offend is read, and the stack stays in step. -/
theorem Opened.step (h : Opened read groups segments) (hn : groups.length ≤ n)
    (ht : ∀ err, ¬Offends n read t err) :
    ∃ groups' segments', Opened (read ++ [t]) groups' segments' ∧ groups'.length ≤ n ∧
      ∀ rest, collect n groups segments (t :: rest) = collect n groups' segments' rest := by
  have hsingle (ho : t.kind ≠ .openParen) (hc : t.kind ≠ .closeParen) : Balanced [t] :=
    .token ho hc .nil
  -- one case for each kind of token: a parenthesis changes the stack, everything else goes on top
  -- of it
  cases hkind : t.kind with
  | whiteSpace =>
      refine ⟨groups, segments, h.push (hsingle (by simp [hkind]) (by simp [hkind])) ?_, hn,
        fun rest => by rw [collect_cons, hkind]⟩
      simp [IsBlank, hkind]
  | raw =>
      refine ⟨groups, pushRaw t.glyphs segments,
        h.push (hsingle (by simp [hkind]) (by simp [hkind])) ?_, hn,
        fun rest => by rw [collect_cons, hkind]⟩
      have := pushRaw_ne_nil t.glyphs segments
      simp [IsBlank, hkind, this]
  | operator op =>
      refine ⟨groups, .operator op t.span :: segments,
        h.push (hsingle (by simp [hkind]) (by simp [hkind])) ?_, hn,
        fun rest => by rw [collect_cons, hkind]⟩
      simp [IsBlank, hkind]
  | openParen =>
      have hlt : groups.length < n := by
        have hne : height read ≠ n := fun hheight => ht _ (.tooDeep hkind hheight)
        rw [h.height_eq] at hne
        omega
      refine ⟨⟨segments, t.span⟩ :: groups, [], .inside h hkind ⟨.nil, by simp [IsBlank]⟩, hlt,
        fun rest => ?_⟩
      rw [collect_cons, hkind]
      exact if_neg (Nat.not_le_of_lt hlt)
  | closeParen =>
      cases h with
      | outside hread => exact (ht _ (.stray hkind hread.balanced.height_eq)).elim
      | @inside before read opening groups outer _ hbefore ho hread =>
          have hne : segments ≠ [] := fun hnil =>
            ht _ (.empty hkind rfl ho (hread.eq_nil_iff.mp hnil))
          have hpair : Balanced (opening :: read ++ [t]) := .pair ho hkind hread.balanced .nil
          refine ⟨groups, .group segments.reverse (opening.span.through t.span) :: outer, ?_,
            Nat.le_of_succ_le hn, fun rest => ?_⟩
          · rw [List.append_assoc]
            exact hbefore.push hpair (by simp [IsBlank, ho])
          · rw [collect_cons, hkind]
            exact if_neg (by simpa using hne)

/-- Tokens of which none offends are read, and the stack is in step with them. -/
theorem Inoffensive.reaches (h : Inoffensive n read) :
    ∃ groups segments, Opened read groups segments ∧ groups.length ≤ n ∧
      ∀ rest, collect n [] [] (read ++ rest) = collect n groups segments rest := by
  -- induction on the tokens read, one step for the last of them
  induction read using List.reverseRecOn with
  | nil => exact ⟨[], [], .outside ⟨.nil, by simp [IsBlank]⟩, Nat.zero_le n, fun _ => rfl⟩
  | append_singleton read t ih =>
      obtain ⟨groups, segments, hopened, hn, hread⟩ := ih h.left
      obtain ⟨groups', segments', hopened', hn', hstep⟩ := hopened.step hn
        fun err => h read t [] err rfl
      refine ⟨groups', segments', hopened', hn', fun rest => ?_⟩
      rw [List.append_assoc, hread, List.singleton_append, hstep]

/-- A token that offends is refused. -/
theorem Offends.collect_eq (ht : Offends n read t err) (h : Opened read groups segments)
    (rest : List Token) : collect n groups segments (t :: rest) = .error err := by
  rw [collect_cons]
  cases ht with
  | tooDeep hkind hheight =>
      have hn : groups.length = n := by
        rw [h.height_eq] at hheight
        omega
      rw [hkind]
      exact if_pos (Nat.le_of_eq hn.symm)
  | stray hkind hheight =>
      have hn : groups = [] := by
        rw [h.height_eq] at hheight
        exact List.eq_nil_of_length_eq_zero (by omega)
      rw [hkind, hn]
  | empty hkind hread ho hblanks =>
      -- the blanks since the parenthesis left no segment, so the pair is seen to be empty
      subst hread
      obtain ⟨outer, groups, rfl, hempty⟩ := h.exists_of_open ho (.of_isBlank hblanks)
      rw [hkind]
      exact if_pos (by simpa using hempty.mpr hblanks)

/-! ## What is accepted -/

/-- Tokens of which none offends are not nested too deeply. -/
theorem Inoffensive.nestedWithin (h : Inoffensive n ts) : NestedWithin n ts := by
  rintro read ⟨rest, rfl⟩
  obtain ⟨groups, segments, hopened, hn, -⟩ := h.left.reaches
  rw [hopened.height_eq]
  omega

theorem Inoffensive.not_hasEmptyPair (h : Inoffensive n ts) : ¬HasEmptyPair ts := by
  rintro ⟨before, opening, blanks, closing, after, rfl, ho, hc, hblanks⟩
  exact h (before ++ opening :: blanks) closing after _ rfl (.empty hc rfl ho hblanks)

/-- In balanced tokens that are not nested too deeply and have no empty pair, none offends. -/
theorem inoffensive_of_balanced (h : Balanced ts) (hempty : ¬HasEmptyPair ts)
    (hn : NestedWithin n ts) : Inoffensive n ts := by
  rintro read t rest err rfl ht
  have hread : read ++ t :: rest = (read ++ [t]) ++ rest := by simp
  -- each kind of offence contradicts one of the three conditions
  cases ht with
  | tooDeep hkind hheight =>
      have := hn (read ++ [t]) ⟨rest, hread.symm⟩
      simp only [height_append, height_cons, hkind, TokenKind.weight, height_nil] at this
      omega
  | stray hkind hheight =>
      have := h.height_nonneg hread
      simp only [height_append, height_cons, hkind, TokenKind.weight, height_nil] at this
      omega
  | @empty before blanks opening hkind hsplit ho hblanks =>
      exact hempty ⟨before, opening, blanks, t, rest, by rw [hsplit], ho, hkind, hblanks⟩

/-- Limits that the nesting does not exceed make no difference. -/
theorem collect_congr {m : Nat}
    (h : ∀ read, read <+: ts → groups.length + height read ≤ n ∧ groups.length + height read ≤ m) :
    collect n groups segments ts = collect m groups segments ts := by
  induction ts generalizing groups segments with
  | nil => cases groups <;> rfl
  | cons t ts ih =>
      -- one more token is read on both sides, and the stack tracks the height
      have hgo {groups' : List OpenGroup}
          (hheight : (groups'.length : Int) = groups.length + t.kind.weight)
          (segments : List Segment) :
          collect n groups' segments ts = collect m groups' segments ts := by
        refine ih fun read hread => ?_
        have := h (t :: read) ((List.prefix_cons_inj t).mpr hread)
        rw [height_cons] at this
        omega
      rw [collect_cons, collect_cons]
      cases hkind : t.kind with
      | whiteSpace | raw | operator op => exact hgo (by simp [hkind, TokenKind.weight]) _
      | openParen =>
          have hlt := h [t] ⟨ts, rfl⟩
          simp only [height_cons, hkind, TokenKind.weight, height_nil] at hlt
          dsimp only
          rw [if_neg (by omega), if_neg (by omega)]
          exact hgo (by simp [hkind, TokenKind.weight]) _
      | closeParen =>
          cases groups with
          | nil => rfl
          | cons closed groups =>
              dsimp only
              split
              · rfl
              · refine hgo ?_ _
                simp only [hkind, TokenKind.weight, List.length_cons]
                omega

end

/-! ## Grouping -/

section

variable {n : Nat} {ts : List Token}

/-- An offence is what the tokens are refused for. -/
theorem Offends.ofTokens_eq {read rest : List Token} {t : Token} {err : Located ParseError}
    (h : Offends n read t err) (hread : Inoffensive n read) :
    ofTokens n (read ++ t :: rest) = .error err := by
  obtain ⟨groups, segments, hopened, -, hcollect⟩ := hread.reaches
  rw [ofTokens, hcollect]
  exact h.collect_eq hopened rest

/-- If no token offends, the tokens are grouped unless a parenthesis was not closed. -/
theorem Inoffensive.ofTokens_eq (h : Inoffensive n ts) :
    (Balanced ts ∧ ∃ ss, ofTokens n ts = .ok ss) ∨
      ∃ err, Refusal n ts err ∧ ofTokens n ts = .error err := by
  obtain ⟨groups, segments, hopened, -, hcollect⟩ := h.reaches
  have hts : ofTokens n ts = collect n groups segments [] := by
    rw [ofTokens, ← hcollect, List.append_nil]
  rw [hts]
  -- reading reached the end; what is still open decides
  cases hopened with
  | outside hread => exact Or.inl ⟨hread.balanced, segments.reverse, rfl⟩
  | inside _ ho hread => exact Or.inr ⟨_, .unclosed h rfl ho hread.balanced, rfl⟩

/-- Balanced tokens of which none offends are grouped. -/
theorem exists_ofTokens (h : Inoffensive n ts) (hbalanced : Balanced ts) :
    ∃ ss, ofTokens n ts = .ok ss := by
  obtain ⟨groups, segments, hopened, -, hcollect⟩ := h.reaches
  obtain rfl : groups = [] := by
    have hheight := hopened.height_eq
    rw [hbalanced.height_eq] at hheight
    exact List.eq_nil_of_length_eq_zero (by omega)
  refine ⟨segments.reverse, ?_⟩
  rw [ofTokens, ← List.append_nil ts, hcollect]
  rfl

/-- Tokens are refused with the error of their first offence, or for the parenthesis that is not
closed. -/
theorem Refusal.ofTokens_eq {err : Located ParseError} (h : Refusal n ts err) :
    ofTokens n ts = .error err := by
  cases h with
  | offence hsplit hread hoffends =>
      subst hsplit
      exact hoffends.ofTokens_eq hread
  | @unclosed before after opening hts hsplit ho hafter =>
      subst hsplit
      obtain ⟨groups, segments, hopened, -, hcollect⟩ := hts.reaches
      obtain ⟨outer, groups, rfl, -⟩ := hopened.exists_of_open ho hafter
      rw [ofTokens, ← List.append_nil (before ++ opening :: after), hcollect]
      rfl

end

/-- **Grouping decides balance.** Tokens are grouped exactly if their parentheses are balanced, no
pair of them has nothing but white space between them, and they are not nested deeper than the
limit. Otherwise the first token that offends decides which error is reported, and, if none does,
the last parenthesis that was opened and not closed. Limits that the nesting does not exceed make no
difference. -/
theorem ofTokens_balanced (n : Nat) (ts : List Token) :
    ((∃ ss, ofTokens n ts = .ok ss) ↔ Balanced ts ∧ ¬HasEmptyPair ts ∧ NestedWithin n ts) ∧
    (∀ err, ofTokens n ts = .error err ↔ Refusal n ts err) ∧
    ∀ m, NestedWithin n ts → NestedWithin m ts → ofTokens n ts = ofTokens m ts := by
  -- either way the outcome is known, and a result excludes the other way
  have houtcome : (Inoffensive n ts ∧ Balanced ts ∧ ∃ ss, ofTokens n ts = .ok ss) ∨
      ∃ err, Refusal n ts err ∧ ofTokens n ts = .error err := by
    obtain hts | ⟨read, t, rest, err, rfl, hread, hoffends⟩ := inoffensive_or n ts
    · exact hts.ofTokens_eq.imp_left fun h => ⟨hts, h⟩
    · exact Or.inr ⟨err, .offence rfl hread hoffends, hoffends.ofTokens_eq hread⟩
  refine ⟨⟨?_, ?_⟩, fun err => ⟨?_, Refusal.ofTokens_eq⟩, fun m hn hm => ?_⟩
  · rintro ⟨ss, hss⟩
    obtain ⟨hts, hbalanced, -⟩ | ⟨err, -, herr⟩ := houtcome
    · exact ⟨hbalanced, hts.not_hasEmptyPair, hts.nestedWithin⟩
    · cases hss.symm.trans herr
  · rintro ⟨hbalanced, hempty, hn⟩
    exact exists_ofTokens (inoffensive_of_balanced hbalanced hempty hn) hbalanced
  · intro h
    obtain ⟨-, -, ss, hss⟩ | ⟨err', hrefusal, herr'⟩ := houtcome
    · cases h.symm.trans hss
    · cases h.symm.trans herr'
      exact hrefusal
  · refine collect_congr fun read hread => ?_
    simpa using ⟨hn read hread, hm read hread⟩

/-- Of the two parentheses that `(( x)` opens, the first one is not closed. -/
theorem ofTokens_balanced_outer :
    let ts := Token.tokenize "(( x)"
    NestedWithin 2 ts ∧ NestedWithin 128 ts ∧ ofTokens 2 ts = ofTokens 128 ts ∧
      Refusal 2 ts (.atSpan (.unclosedParenthesis true) ⟨0, 1⟩) := by
  intro ts
  have hinits : ∀ read ∈ ts.inits, height read ≤ 2 := by decide
  have htwo : NestedWithin 2 ts := fun read hread => hinits read ((List.mem_inits _ _).mpr hread)
  have hmany : NestedWithin 128 ts := fun read hread => by
    have := htwo read hread
    omega
  have herr : ofTokens 2 ts = .error (.atSpan (.unclosedParenthesis true) ⟨0, 1⟩) := by rfl
  obtain ⟨-, herror, hlimits⟩ := ofTokens_balanced 2 ts
  exact ⟨htwo, hmany, hlimits 128 htwo hmany, (herror _).mp herr⟩

end Segment

end SymbolicCalculus
