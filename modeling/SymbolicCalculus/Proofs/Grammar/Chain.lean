import SymbolicCalculus.Proofs.Grammar.Folding
import SymbolicCalculus.Scalar.Binary64

/-!
# Chains are read by their grammar

The sign step turns a sentence into a row (`applySigns_chain`), which is then folded. By induction
on a reading of the sentence, the row comes down to one operand, and its expression is the tree of
the reading up to normalization (`Reads.exists_foldsTo`).

A chain that is no sentence does not get as far. If the sign step and the check for misplaced
operators let a chain pass, it has the form of a sentence (`exists_sentence_of_check`).
-/

namespace SymbolicCalculus

variable {K : Type}

namespace Chain

/-! ## The check for misplaced operators -/

/-- After an operand, the gaps and operands of a row pass the check. -/
theorem checkAfter_tailLinks (x : Operand K) (tail : List (Gap × Operand K)) :
    checkAfter (some (.operand x)) (Row.tailLinks tail) = .ok () := by
  induction tail generalizing x with
  | nil => rfl
  | cons p tail ih =>
      obtain ⟨g, y⟩ := p
      match g with
      | none => exact ih y
      | some (op, span) => exact ih y

/-- No operator of a row is misplaced. -/
theorem check_chain (r : Row K) : check r.chain = .ok () := checkAfter_tailLinks r.head r.tail

/-- An operator after another one is refused. -/
theorem checkAfter_operator_operator {op op' : Operator} {span span' : Span} {rest : Chain K} :
    checkAfter (some (.operator op span)) (.operator op' span' :: rest) ≠ .ok () := by
  rw [checkAfter]
  -- the check asks first whether the chain ends there; it is refused in either case
  split <;> simp

/-! ## Signs -/

variable [Scalar K] {maxDepth : Nat}

section

variable (maxDepth : Nat)

/-- The operand with its sign applied. -/
def applySign : Option Span → Operand K → Except (Located ParseError) (Operand K)
  | none, x => .ok x
  | some sign, x => (negated sign x).limit maxDepth

namespace Sentence

/-- The gaps of a sentence and the operands after them, with signs applied. -/
def rowTail : List (Separator × Operand K) → Except (Located ParseError) (List (Gap × Operand K))
  | [] => .ok []
  | (sep, x) :: tail => do
    let x ← applySign maxDepth sep.sign x
    let tail ← rowTail tail
    return (sep.gap, x) :: tail

/-- The row of a sentence, with signs applied. -/
def row (s : Sentence K) : Except (Located ParseError) (Row K) := do
  let x ← applySign maxDepth s.sign s.head
  let tail ← rowTail maxDepth s.tail
  return ⟨x, tail⟩

end Sentence

end

/-- An operand is kept by the sign step. -/
theorem applySignsAfter_operand (previous : Option (Link K)) (x : Operand K) (rest : Chain K) :
    applySignsAfter maxDepth previous (.operand x :: rest) =
      (applySignsAfter maxDepth (some (.operand x)) rest).map (.operand x :: ·) := by
  rw [applySignsAfter]
  · rfl
  · intro _ h
    cases h

/-- An operator that is no sign stays. -/
theorem applySignsAfter_operator {previous : Option (Link K)} {op : Operator} {rest : Chain K}
    (h : op = .sub → isSign previous rest = false) (span : Span) :
    applySignsAfter maxDepth previous (.operator op span :: rest) =
      (applySignsAfter maxDepth (some (.operator op span)) rest).map (.operator op span :: ·) := by
  by_cases hop : op = .sub
  · subst hop
    have hsign := Bool.eq_false_iff.1 (h rfl)
    match rest with
    | [] => simp only [applySignsAfter, if_neg hsign]; rfl
    | .operand x :: rest => rw [applySignsAfter, if_neg hsign]; rfl
    | .operator op' span' :: rest => rw [applySignsAfter, if_neg hsign]; rfl
  · rw [applySignsAfter]
    · rfl
    · intro _ heq
      cases heq
      exact hop rfl

/-- A sign is applied to the operand after it. -/
theorem applySignsAfter_signLinks {previous : Option (Link K)} {sign : Option Span} {x : Operand K}
    {rest : Chain K} (h : sign.isSome → isSign previous (.operand x :: rest) = true) :
    applySignsAfter maxDepth previous (signLinks sign ++ .operand x :: rest) =
      applySign maxDepth sign x >>= fun z =>
        (applySignsAfter maxDepth (some (.operand z)) rest).map (.operand z :: ·) := by
  match sign with
  | none => exact applySignsAfter_operand previous x rest
  | some sign =>
    show applySignsAfter maxDepth previous (.operator .sub sign :: .operand x :: rest) = _
    rw [applySignsAfter, if_pos (h rfl)]
    rfl

/-- After an operand, signs are applied to the operand after a separator and to what follows. -/
theorem applySignsAfter_separator (x : Operand K) (sep : Separator) (y : Operand K)
    (rest : Chain K) :
    applySignsAfter maxDepth (some (.operand x))
        (sep.gap.links ++ signLinks sep.sign ++ .operand y :: rest) =
      applySign maxDepth sep.sign y >>= fun z =>
        (applySignsAfter maxDepth (some (.operand z)) rest).map
          (sep.gap.links ++ .operand z :: ·) := by
  -- nothing, an operator, or a power with a sign after it
  match sep with
  | .plain none => exact applySignsAfter_operand _ y rest
  | .plain (some (op, span)) =>
    show applySignsAfter maxDepth _ (.operator op span :: .operand y :: rest) = _
    rw [applySignsAfter_operator (fun _ => rfl), applySignsAfter_operand, map_map]
    rfl
  | .signedPower span sign =>
    show applySignsAfter maxDepth _
      (.operator .pow span :: (signLinks (some sign) ++ .operand y :: rest)) = _
    rw [applySignsAfter_operator (fun _ => rfl), applySignsAfter_signLinks (fun _ => rfl), map_bind]
    exact congrArg _ (funext fun z => map_map _ _ _)

/-- After an operand, the sign step turns the links of a sentence into those of its row. -/
theorem applySignsAfter_tailLinks (x : Operand K) (tail : List (Separator × Operand K)) :
    applySignsAfter maxDepth (some (.operand x)) (tailLinks tail) =
      (Sentence.rowTail maxDepth tail).map Row.tailLinks := by
  -- induction on the pairs of separator and operand, after any operand
  induction tail generalizing x with
  | nil => rfl
  | cons p tail ih =>
      obtain ⟨sep, y⟩ := p
      rw [tailLinks, applySignsAfter_separator, Sentence.rowTail, map_bind]
      refine congrArg _ (funext fun z => ?_)
      rw [ih, map_map, map_bind]
      rfl

/-- Applying the signs of a sentence gives the chain of its row. -/
theorem applySigns_chain (s : Sentence K) :
    applySigns maxDepth s.chain = (s.row maxDepth).map Row.chain := by
  unfold applySigns Sentence.chain Sentence.row
  rw [applySignsAfter_signLinks (fun _ => rfl), map_bind]
  refine congrArg _ (funext fun z => ?_)
  rw [applySignsAfter_tailLinks, map_map, map_bind]
  rfl

/-! ## Readings come true -/

namespace Sentence

/-- Applying signs to the operands of two tails is applying them to each. -/
theorem rowTail_append {t u : List (Separator × Operand K)} {r : List (Gap × Operand K)} :
    rowTail maxDepth (t ++ u) = .ok r →
      ∃ rt ru, rowTail maxDepth t = .ok rt ∧ rowTail maxDepth u = .ok ru ∧ r = rt ++ ru := by
  induction t generalizing r with
  | nil =>
      intro h
      exact ⟨[], r, rfl, h, rfl⟩
  | cons p t ih =>
      intro h
      rw [List.cons_append, rowTail] at h
      obtain ⟨z, hz, h⟩ := bind_eq_ok_iff.1 h
      obtain ⟨r', hr', h⟩ := bind_eq_ok_iff.1 h
      cases h
      obtain ⟨rt, ru, ht, hu, rfl⟩ := ih hr'
      rw [rowTail, hz, ht]
      exact ⟨_, ru, rfl, hu, rfl⟩

/-- The row of two sentences with a separator between them consists of their rows. -/
theorem row_join {a b : Sentence K} {sep : Separator} (hsign : b.sign = sep.sign) {r : Row K}
    (h : (a.join sep b).row maxDepth = .ok r) :
    ∃ ra rb, a.row maxDepth = .ok ra ∧ b.row maxDepth = .ok rb ∧ r = ra.append sep.gap rb := by
  obtain ⟨x, hx, h⟩ := bind_eq_ok_iff.1 h
  obtain ⟨tail, htail, h⟩ := bind_eq_ok_iff.1 h
  cases h
  obtain ⟨ta, tb', hta, htb', rfl⟩ := rowTail_append htail
  obtain ⟨y, hy, h⟩ := bind_eq_ok_iff.1 htb'
  obtain ⟨tb, htb, h⟩ := bind_eq_ok_iff.1 h
  cases h
  refine ⟨⟨x, ta⟩, ⟨y, tb⟩, ?_, ?_, rfl⟩
  · exact bind_eq_ok_iff.2 ⟨x, hx, bind_eq_ok_iff.2 ⟨ta, hta, rfl⟩⟩
  · exact bind_eq_ok_iff.2 ⟨y, hsign ▸ hy, bind_eq_ok_iff.2 ⟨tb, htb, rfl⟩⟩

/-- If no tree gets too deep, applying the operators up to the level leaves one operand, whose
expression is the given one up to normalization. -/
def FoldsTo (maxDepth n : Nat) (s : Sentence K) (e : Expr K) : Prop :=
  ∀ r, s.row maxDepth >>= Row.applyLevels maxDepth n = .ok r →
    r.tail = [] ∧ r.head.expr.normalize = e.normalize

/-- Two phrases with an operator of the next level between them fold to the node of that operator.
-/
theorem FoldsTo.join {n : Nat} {a b : Sentence K} {sep : Separator} {e f : Expr K}
    (hlevel : sep.gap.level = n + 1) (hsign : b.sign = sep.sign)
    (ha : a.FoldsTo maxDepth (n + 1) e) (hb : b.FoldsTo maxDepth n f) :
    (a.join sep b).FoldsTo maxDepth (n + 1) (sep.gap.op.node e f) := by
  intro r h
  obtain ⟨_, hrow, hr⟩ := bind_eq_ok_iff.1 h
  obtain ⟨ra, rb, hra, hrb, rfl⟩ := row_join hsign hrow
  have ha' := fun a' (h : ra.applyLevels maxDepth (n + 1) = .ok a') =>
    ha a' (bind_eq_ok_iff.2 ⟨ra, hra, h⟩)
  have hb' := fun b' (h : rb.applyLevels maxDepth n = .ok b') =>
    hb b' (bind_eq_ok_iff.2 ⟨rb, hrb, h⟩)
  -- folding up to this level first folds both phrases, and each leaves one operand
  obtain ⟨x, y, hx, hy, rfl⟩ := Row.applyLevels_append_of_level hlevel
    (fun a' h => (ha' a' h).1) (fun b' h => (hb' b' h).1) hr
  refine ⟨rfl, ?_⟩
  rw [Operand.normalize_apply]
  exact Expr.normalize_node _ (ha' _ hx).2 (hb' _ hy).2

/-- What has been folded at one level stays as it is at the next one. -/
theorem FoldsTo.loosen {n : Nat} {s : Sentence K} {e : Expr K} (h : s.FoldsTo maxDepth n e) :
    s.FoldsTo maxDepth (n + 1) e := by
  intro r hr
  obtain ⟨r₀, hr₀, hr⟩ := bind_eq_ok_iff.1 hr
  obtain ⟨r₁, hr₁, hr⟩ := bind_eq_ok_iff.1 hr
  obtain ⟨htail, he⟩ := h r₁ (bind_eq_ok_iff.2 ⟨r₀, hr₀, hr₁⟩)
  -- nothing is left to fold in a row of one operand
  obtain ⟨x, tail⟩ := r₁
  cases htail
  cases hr
  exact ⟨rfl, he⟩

end Sentence

end Chain

open Chain

/-- What the grammar reads is a sentence, and folding it gives the tree that was read. -/
theorem Reads.exists_foldsTo [Scalar K] {signed : Bool} {n : Nat} {c : Chain K} {e : Expr K}
    (h : Reads signed n c e) (maxDepth : Nat) :
    ∃ s : Sentence K, s.chain = c ∧ (s.sign.isSome → signed = true) ∧ s.FoldsTo maxDepth n e := by
  -- induction on the reading: one case for each rule of the grammar
  induction h with
  | operand x =>
      refine ⟨⟨none, x, []⟩, rfl, by simp, ?_⟩
      intro r hr
      cases hr
      exact ⟨rfl, rfl⟩
  | sign sign x =>
      refine ⟨⟨some sign, x, []⟩, rfl, by simp, ?_⟩
      intro r hr
      obtain ⟨_, hrow, hr⟩ := bind_eq_ok_iff.1 hr
      obtain ⟨z, hz, hrow⟩ := bind_eq_ok_iff.1 hrow
      obtain ⟨-, rfl⟩ := Operand.limit_eq_ok_iff.1 hz
      cases hrow
      cases hr
      exact ⟨rfl, rfl⟩
  | @operator signed n op c d a b span hop _ _ iha ihb =>
      obtain ⟨s, rfl, hs, ha⟩ := iha
      obtain ⟨t, rfl, ht, hb⟩ := ihb
      -- the sign that the second phrase may begin with belongs to the separator
      obtain ⟨sep, hgap, hsign⟩ : ∃ sep : Separator, sep.gap = some (op, span) ∧
          t.sign = sep.sign := by
        cases h : t.sign with
        | none => exact ⟨.plain (some (op, span)), rfl, rfl⟩
        | some sign =>
            have hpow : op = .pow := by simpa [h] using ht
            exact ⟨.signedPower span sign, by rw [hpow]; rfl, rfl⟩
      have hlevel : sep.gap.level = n + 1 := by rw [hgap]; exact hop
      have hjoin := Sentence.FoldsTo.join hlevel hsign ha hb
      rw [hgap] at hjoin
      refine ⟨s.join sep t, ?_, hs, hjoin⟩
      rw [Sentence.chain_join hsign, hgap]
      rfl
  | juxtaposed _ _ iha ihb =>
      obtain ⟨s, rfl, hs, ha⟩ := iha
      obtain ⟨t, rfl, ht, hb⟩ := ihb
      have hsign : t.sign = none := by simpa using ht
      exact ⟨s.join (.plain none) t, Sentence.chain_join hsign, hs,
        Sentence.FoldsTo.join rfl hsign ha hb⟩
  | loosen _ ih =>
      obtain ⟨s, hc, hs, h⟩ := ih
      exact ⟨s, hc, hs, h.loosen⟩

namespace Chain

section

variable [Scalar K] {maxDepth : Nat}

/-! ## What passes the sign step and the check -/

/-- After an operator that is let pass comes an operand, which may have a sign if the operator is
`^`. -/
theorem exists_operand_of_checkAfter {op : Operator} {span : Span} {c c' : Chain K}
    (hsigns : applySignsAfter maxDepth (some (.operator op span)) c = .ok c')
    (hcheck : checkAfter (some (.operator op span)) c' = .ok ()) (hne : c' ≠ []) :
    ∃ sign y rest z rest', (sign.isSome → op = .pow) ∧
      c = signLinks sign ++ .operand y :: rest ∧
      applySignsAfter maxDepth (some (.operand z)) rest = .ok rest' ∧
      checkAfter (some (.operand z)) rest' = .ok () := by
  match c with
  | [] =>
    cases hsigns
    exact absurd rfl hne
  | .operand y :: rest =>
    rw [applySignsAfter_operand] at hsigns
    obtain ⟨rest', hrest, rfl⟩ := map_eq_ok_iff.1 hsigns
    exact ⟨none, y, rest, y, rest', by simp, rfl, hrest, hcheck⟩
  | .operator op' span' :: rest =>
    -- only a minus after `^` is a sign; any other operator stays and is refused by the check
    by_cases hsign : op' = .sub ∧ op = .pow
    · obtain ⟨rfl, rfl⟩ := hsign
      match rest with
      | .operand y :: rest =>
        replace hsigns : applySignsAfter maxDepth (some (.operator .pow span))
            (signLinks (some span') ++ .operand y :: rest) = .ok c' := hsigns
        rw [applySignsAfter_signLinks (fun _ => rfl)] at hsigns
        obtain ⟨z, -, hsigns⟩ := bind_eq_ok_iff.1 hsigns
        obtain ⟨rest', hrest, rfl⟩ := map_eq_ok_iff.1 hsigns
        exact ⟨some span', y, rest, z, rest', fun _ => rfl, rfl, hrest, hcheck⟩
      | .operator op' span' :: rest => cases hsigns
      | [] => cases hsigns
    · have hno : op' = .sub → isSign (some (.operator op span)) rest = false :=
        fun hsub => beq_eq_false_iff_ne.2 fun hpow => hsign ⟨hsub, hpow⟩
      rw [applySignsAfter_operator hno] at hsigns
      obtain ⟨rest', -, rfl⟩ := map_eq_ok_iff.1 hsigns
      exact absurd hcheck checkAfter_operator_operator

/-- After an operand, the sign step and the check let pass only separators with operands after
them. -/
theorem exists_tailLinks_of_checkAfter {x : Operand K} {c c' : Chain K}
    (hsigns : applySignsAfter maxDepth (some (.operand x)) c = .ok c')
    (hcheck : checkAfter (some (.operand x)) c' = .ok ()) : ∃ t, c = tailLinks t := by
  -- a separator and the operand after it are up to three links, so the induction is on the length
  induction hlength : c.length using Nat.strongRecOn generalizing x c c' with
  | _ _ ih =>
      subst hlength
      match c with
      | [] => exact ⟨[], rfl⟩
      | .operand y :: rest =>
        rw [applySignsAfter_operand] at hsigns
        obtain ⟨rest', hrest, rfl⟩ := map_eq_ok_iff.1 hsigns
        obtain ⟨t, rfl⟩ := ih _ (by simp) hrest hcheck rfl
        exact ⟨(.plain none, y) :: t, rfl⟩
      | .operator op span :: rest =>
        rw [applySignsAfter_operator (fun _ => rfl)] at hsigns
        obtain ⟨rest', hrest, rfl⟩ := map_eq_ok_iff.1 hsigns
        -- an operator at the end of a chain is refused
        have hne : rest' ≠ [] := by
          rintro rfl
          cases hcheck
        have hcheck' : checkAfter (some (.operator op span)) rest' = .ok () := by
          rwa [checkAfter, if_neg (by simpa using hne)] at hcheck
        obtain ⟨sign, y, rest, z, rest', hpow, rfl, hrest, hcheck⟩ :=
          exists_operand_of_checkAfter hrest hcheck' hne
        obtain ⟨t, rfl⟩ := ih _ (by simp; omega) hrest hcheck rfl
        cases sign with
        | none => exact ⟨(.plain (some (op, span)), y) :: t, rfl⟩
        | some sign =>
            cases hpow rfl
            exact ⟨(.signedPower span sign, y) :: t, rfl⟩

/-- A chain that the sign step and the check let pass is a sentence. -/
theorem exists_sentence_of_check {c c' : Chain K} (hne : c ≠ [])
    (hsigns : applySigns maxDepth c = .ok c') (hcheck : check c' = .ok ()) :
    ∃ s : Sentence K, s.chain = c := by
  unfold applySigns at hsigns
  match c with
  | [] => exact absurd rfl hne
  | .operand x :: rest =>
    rw [applySignsAfter_operand] at hsigns
    obtain ⟨rest', hrest, rfl⟩ := map_eq_ok_iff.1 hsigns
    obtain ⟨t, rfl⟩ := exists_tailLinks_of_checkAfter hrest hcheck
    exact ⟨⟨none, x, t⟩, rfl⟩
  | .operator op span :: rest =>
    -- the first link is a minus in the place of a sign, or an operator that stays
    by_cases hsign : op = .sub ∧ isSign none rest = true
    · obtain ⟨rfl, hsign⟩ := hsign
      match rest with
      | .operand x :: rest =>
        replace hsigns : applySignsAfter maxDepth none
            (signLinks (some span) ++ .operand x :: rest) = .ok c' := hsigns
        rw [applySignsAfter_signLinks (fun _ => rfl)] at hsigns
        obtain ⟨z, -, hsigns⟩ := bind_eq_ok_iff.1 hsigns
        obtain ⟨rest', hrest, rfl⟩ := map_eq_ok_iff.1 hsigns
        obtain ⟨t, rfl⟩ := exists_tailLinks_of_checkAfter hrest hcheck
        exact ⟨⟨some span, x, t⟩, rfl⟩
      | .operator op span :: rest => cases hsign
      | [] => cases hsign
    · rw [applySignsAfter_operator fun hsub => by simpa [hsub] using hsign] at hsigns
      obtain ⟨rest', hrest, rfl⟩ := map_eq_ok_iff.1 hsigns
      rw [check, checkAfter] at hcheck
      split at hcheck
      · cases hcheck
      · next h =>
          -- the minus at the start was left alone, so no operand comes after it
          simp only [Bool.or_eq_true, List.isEmpty_iff, bne_iff_ne, not_or,
            Decidable.not_not] at h
          obtain ⟨hne', rfl⟩ := h
          obtain ⟨sign, y, rest, z, rest', hpow, rfl, -⟩ :=
            exists_operand_of_checkAfter hrest hcheck hne'
          cases sign with
          | none => exact absurd ⟨rfl, rfl⟩ hsign
          | some sign => cases hpow rfl

end

/-! ## Resolution -/

section

variable [Scalar K] {maxDepth : Nat} {span : Span}

namespace Sentence

/-- Applying a sign fails only when the tree gets too deep. -/
theorem failsOnly_applySign (sign : Option Span) (x : Operand K) :
    FailsOnly (· = .expressionTooDeep maxDepth) (applySign maxDepth sign x) := by
  cases sign with
  | none => exact .ok x
  | some sign => exact .limit maxDepth _

/-- Applying the signs after a sentence's first operand fails only when a tree gets too deep. -/
theorem failsOnly_rowTail (tail : List (Separator × Operand K)) :
    FailsOnly (· = .expressionTooDeep maxDepth) (rowTail maxDepth tail) := by
  induction tail with
  | nil => exact .ok _
  | cons p tail ih => exact (failsOnly_applySign p.1.sign p.2).bind fun _ => ih.bind fun _ => .ok _

/-- Applying the signs of a sentence fails only when a tree gets too deep. -/
theorem failsOnly_row (s : Sentence K) :
    FailsOnly (· = .expressionTooDeep maxDepth) (s.row maxDepth) :=
  (failsOnly_applySign s.sign s.head).bind fun _ => (failsOnly_rowTail s.tail).bind fun _ => .ok _

end Sentence

/-- A sentence is resolved by folding its row. -/
theorem toOperand_chain (s : Sentence K) :
    toOperand maxDepth span s.chain =
      (s.row maxDepth >>= Row.applyLevels maxDepth 4) >>= fun r =>
        if r.tail.isEmpty then .ok r.head else .error (.atSpan .invalidSyntax span) := by
  unfold toOperand
  rw [applySigns_chain]
  cases s.row maxDepth with
  | error err => rfl
  | ok r =>
      show check r.chain >>= (fun _ => applyOperators maxDepth r.chain >>= _) = _
      rw [check_chain, applyOperators_chain]
      show _ = r.applyLevels maxDepth 4 >>= _
      cases r.applyLevels maxDepth 4 with
      | error err => rfl
      | ok r => obtain ⟨x, _ | ⟨⟨_ | ⟨op, opSpan⟩, y⟩, tail⟩⟩ := r <;> rfl

/-- What folds to a tree is resolved to it, unless a tree gets too deep. -/
theorem toOperand_of_foldsTo {s : Sentence K} {e : Expr K} (h : s.FoldsTo maxDepth 4 e) :
    (∃ x, toOperand maxDepth span s.chain = .ok x ∧ x.expr.normalize = e.normalize) ∨
      ∃ spans, toOperand maxDepth span s.chain = .error ⟨.expressionTooDeep maxDepth, spans⟩ := by
  rw [toOperand_chain]
  -- either a tree got too deep on the way, or one operand is left
  cases hfold : s.row maxDepth >>= Row.applyLevels maxDepth 4 with
  | error err =>
      have hdeep := s.failsOnly_row.bind fun r => r.failsOnly_applyLevels maxDepth 4
      have herr : err.cause = .expressionTooDeep maxDepth := hdeep err hfold
      refine Or.inr ⟨err.spans, ?_⟩
      rw [← herr]
      rfl
  | ok r =>
      obtain ⟨htail, he⟩ := h r hfold
      obtain ⟨x, tail⟩ := r
      cases htail
      exact Or.inl ⟨x, rfl, he⟩

/-- A chain that is no sentence is refused. -/
theorem toOperand_of_not_sentence {c : Chain K} (hne : c ≠ [])
    (h : ¬∃ s : Sentence K, s.chain = c) :
    ∃ err, toOperand maxDepth span c = .error err ∧
      (err.cause = .expressionTooDeep maxDepth ∨ err.cause.IsMisplaced) := by
  unfold toOperand
  -- the sign step or the check refuses the chain, since otherwise it would be a sentence
  cases hsigns : applySigns maxDepth c with
  | error err => exact ⟨err, rfl, failsOnly_applySignsAfter maxDepth none c err hsigns⟩
  | ok c' =>
      show ∃ err, check c' >>= _ = _ ∧ _
      cases hcheck : check c' with
      | error err => exact ⟨err, rfl, Or.inr (failsOnly_checkAfter none c' err hcheck)⟩
      | ok _ => exact absurd (exists_sentence_of_check hne hsigns hcheck) h

/-- A chain that is resolved is a sentence. -/
theorem exists_sentence_of_toOperand {c : Chain K} {x : Operand K}
    (h : toOperand maxDepth span c = .ok x) : ∃ s : Sentence K, s.chain = c := by
  have hne : c ≠ [] := by
    rintro rfl
    cases h
  refine Classical.byContradiction fun hno => ?_
  obtain ⟨err, herr, -⟩ := toOperand_of_not_sentence hne hno
  cases h.symm.trans herr

end

/-- **Chains are read by one grammar.** Unless a tree gets too deep, a chain that is not empty is
resolved exactly if it has the form `[-] A (S A)*`. The result is then the tree that the grammar
reads, up to normalization, and every other chain is refused for a misplaced operator. -/
theorem toOperand_reads [Scalar K] (maxDepth : Nat) (span : Span) (c : Chain K) (hne : c ≠ [])
    (hdepth : ∀ spans, toOperand maxDepth span c ≠ .error ⟨.expressionTooDeep maxDepth, spans⟩) :
    ((∃ x, toOperand maxDepth span c = .ok x) ↔ ∃ s : Sentence K, s.chain = c) ∧
    (∀ x, toOperand maxDepth span c = .ok x →
      (∃ e, Reads true 4 c e) ∧ ∀ e, Reads true 4 c e → x.expr.normalize = e.normalize) ∧
    ((¬∃ s : Sentence K, s.chain = c) →
      ∃ err, toOperand maxDepth span c = .error err ∧ err.cause.IsMisplaced) := by
  have hreads (e : Expr K) (he : Reads true 4 c e) :
      ∃ x, toOperand maxDepth span c = .ok x ∧ x.expr.normalize = e.normalize := by
    obtain ⟨s, rfl, -, hs⟩ := he.exists_foldsTo maxDepth
    rcases toOperand_of_foldsTo hs with hok | ⟨spans, herr⟩
    · exact hok
    · exact absurd herr (hdepth spans)
  have hno (h : ¬∃ s : Sentence K, s.chain = c) :
      ∃ err, toOperand maxDepth span c = .error err ∧ err.cause.IsMisplaced := by
    obtain ⟨err, herr, hcause | hcause⟩ := toOperand_of_not_sentence hne h
    · exact absurd (by rw [herr, ← hcause]) (hdepth err.spans)
    · exact ⟨err, herr, hcause⟩
  have hsentence {x : Operand K} (hx : toOperand maxDepth span c = .ok x) :
      ∃ s : Sentence K, s.chain = c := by
    refine Classical.byContradiction fun h => ?_
    obtain ⟨err, herr, -⟩ := hno h
    rw [hx] at herr
    cases herr
  refine ⟨⟨fun ⟨x, hx⟩ => hsentence hx, ?_⟩, fun x hx => ⟨?_, fun e he => ?_⟩, hno⟩
  · rintro ⟨s, rfl⟩
    obtain ⟨e, he⟩ := s.exists_reads
    obtain ⟨x, hx, -⟩ := hreads e he
    exact ⟨x, hx⟩
  · obtain ⟨s, rfl⟩ := hsentence hx
    exact s.exists_reads
  · obtain ⟨y, hy, hnormal⟩ := hreads e he
    rw [hx] at hy
    cases hy
    exact hnormal

/-- The chain of `-x^-n y` is a sentence, and that of `n*-x` is refused. -/
theorem toOperand_reads_signs :
    let x (name : String) : Link Float := .operand (.atom (.var name) ⟨0, 0⟩)
    let op (op : Operator) : Link Float := .operator op ⟨0, 0⟩
    let c := [op .sub, x "x", op .pow, op .sub, x "n", x "y"]
    let d := [x "n", op .mul, op .sub, x "x"]
    (c ≠ [] ∧ (∀ spans, toOperand 256 ⟨0, 6⟩ c ≠ .error ⟨.expressionTooDeep 256, spans⟩) ∧
      ∃ x, toOperand 256 ⟨0, 6⟩ c = .ok x ∧
        ∀ e, Reads true 4 c e → x.expr.normalize = e.normalize) ∧
    (d ≠ [] ∧ (∀ spans, toOperand 256 ⟨0, 4⟩ d ≠ .error ⟨.expressionTooDeep 256, spans⟩) ∧
      ¬∃ s : Sentence Float, s.chain = d) := by
  intro x op c d
  have hc : ∀ spans, toOperand 256 ⟨0, 6⟩ c ≠ .error ⟨.expressionTooDeep 256, spans⟩ := by
    intro spans h
    cases h
  have hd : ∀ spans, toOperand 256 ⟨0, 4⟩ d ≠ .error ⟨.expressionTooDeep 256, spans⟩ := by
    intro spans h
    cases h
  refine ⟨⟨by simp [c], hc, _, rfl, ?_⟩, by simp [d], hd, ?_⟩
  · exact ((toOperand_reads 256 ⟨0, 6⟩ c (by simp [c]) hc).2.1 _ rfl).2
  · intro hs
    obtain ⟨x, hx⟩ := (toOperand_reads 256 ⟨0, 4⟩ d (by simp [d]) hd).1.2 hs
    cases hx

end Chain

end SymbolicCalculus
