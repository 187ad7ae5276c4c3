import SymbolicCalculus.Grammar.Chain

/-!
# The grammar of chains

A chain is a sentence if it has the form `[-] A (S A)*`. Every `A` is an operand, and every
separator `S` is empty, an operator, or `^` with the sign `-` after it. A `Sentence` holds the parts
of such a chain.

`Reads` is the grammar that gives a sentence its tree. Its levels are those of precedence, from
tight to loose:

* `0` is one operand, which may have a sign at the start of the chain and after `^`;
* `1` are powers, which associate to the left;
* `2` are products and quotients with an operator, from left to right;
* `3` are products of operands with nothing between them, from left to right;
* `4` are sums and differences, from left to right.

Every sentence has a reading (`exists_reads`). That only sentences have one, and that the steps on
chains follow the readings, is shown where signs are applied (`Reads.exists_foldsTo`).
-/

namespace SymbolicCalculus

/-- The level of the phrases that an operator builds. Level `3` is that of operands with nothing
between them. -/
def Operator.level : Operator → Nat
  | .pow => 1
  | .mul => 2
  | .div => 2
  | .add => 4
  | .sub => 4

/-! ## Sentences -/

/-- What stands between two operands once signs are part of the operands: an operator or nothing. -/
abbrev Gap := Option (Operator × Span)

namespace Gap

/-- The operator that a gap stands for. Operands with nothing between them are multiplied. -/
def op : Gap → Operator
  | none => .mul
  | some (op, _) => op

/-- The level of the phrases that a gap builds. -/
def level : Gap → Nat
  | none => 3
  | some (op, _) => op.level

/-- The links of a gap. -/
def links {K : Type} : Gap → Chain K
  | none => []
  | some (op, span) => [.operator op span]

end Gap

/-- What stands between two operands. -/
inductive Separator where
  | plain (gap : Gap)
  /-- `^` with a sign after it. -/
  | signedPower (span sign : Span)

namespace Separator

/-- The separator without the sign. -/
def gap : Separator → Gap
  | plain gap => gap
  | signedPower span _ => some (.pow, span)

/-- The sign of the operand after the separator. -/
def sign : Separator → Option Span
  | plain _ => none
  | signedPower _ sign => some sign

end Separator

namespace Chain

variable {K : Type}

/-- The links of a sign. -/
def signLinks : Option Span → Chain K
  | none => []
  | some sign => [.operator .sub sign]

/-- The links of separators and the operands after them. -/
def tailLinks : List (Separator × Operand K) → Chain K
  | [] => []
  | (s, x) :: tail => s.gap.links ++ signLinks s.sign ++ .operand x :: tailLinks tail

/-- The links of two tails are those of each. -/
theorem tailLinks_append (t u : List (Separator × Operand K)) :
    tailLinks (t ++ u) = tailLinks t ++ tailLinks u := by
  induction t with
  | nil => rfl
  | cons p t ih => simp [tailLinks, ih]

/-- The parts of a chain of the form `[-] A (S A)*`. -/
structure Sentence (K : Type) where
  sign : Option Span
  head : Operand K
  tail : List (Separator × Operand K)

namespace Sentence

/-- The chain with these parts. -/
def chain (s : Sentence K) : Chain K := signLinks s.sign ++ .operand s.head :: tailLinks s.tail

/-- Two sentences with a separator between them. The sign of the second sentence is that of the
separator. -/
def join (a : Sentence K) (sep : Separator) (b : Sentence K) : Sentence K :=
  ⟨a.sign, a.head, a.tail ++ (sep, b.head) :: b.tail⟩

/-- The chain of two joined sentences has the gap between them, with the sign as part of the second
sentence. -/
theorem chain_join {a b : Sentence K} {sep : Separator} (h : b.sign = sep.sign) :
    (a.join sep b).chain = a.chain ++ (sep.gap.links ++ b.chain) := by
  simp [join, chain, tailLinks_append, tailLinks, h]

/-- No separator builds phrases of a looser level. -/
def Within (n : Nat) (tail : List (Separator × Operand K)) : Prop :=
  ∀ p ∈ tail, p.1.gap.level ≤ n

end Sentence

end Chain

/-! ## Readings -/

open Chain

/-- The chain is a phrase of the given level, and the expression is its tree. If `signed` holds, the
phrase may begin with a sign, which multiplies the single operand after it by minus one. -/
inductive Reads {K : Type} [Scalar K] : (signed : Bool) → (level : Nat) → Chain K → Expr K → Prop
  | operand {signed} (x : Operand K) : Reads signed 0 [.operand x] x.expr
  | sign (sign : Span) (x : Operand K) :
      Reads true 0 [.operator .sub sign, .operand x] (.product [.number Scalar.minusOne, x.expr])
  | operator {signed n op c d a b} (span : Span) : op.level = n + 1 →
      Reads signed (n + 1) c a → Reads (op == .pow) n d b →
      Reads signed (n + 1) (c ++ .operator op span :: d) (op.node a b)
  | juxtaposed {signed c d a b} : Reads signed 3 c a → Reads false 2 d b →
      Reads signed 3 (c ++ d) (.product [a, b])
  | loosen {signed n c e} : Reads signed n c e → Reads signed (n + 1) c e

variable {K : Type}

/-- No gap binds as tightly as a sign. -/
theorem Gap.level_pos (g : Gap) : 0 < g.level := by
  rcases g with _ | ⟨op, span⟩
  · decide
  · cases op <;> exact of_decide_eq_true rfl

/-- No gap is looser than sums. -/
theorem Gap.level_le (g : Gap) : g.level ≤ 4 := by
  rcases g with _ | ⟨op, span⟩
  · decide
  · cases op <;> exact of_decide_eq_true rfl

namespace Chain.Sentence

/-- A tail falls apart at its last separator of a level if it has one. -/
theorem within_or_split {n : Nat} {tail : List (Separator × Operand K)}
    (h : Within (n + 1) tail) : Within n tail ∨ ∃ before sep x after,
      tail = before ++ (sep, x) :: after ∧ sep.gap.level = n + 1 ∧ Within n after := by
  -- induction on the tail, so that the last separator of the level is found first
  induction tail with
  | nil => exact Or.inl (by simp [Within])
  | cons p tail ih =>
      obtain ⟨hp, ht⟩ := List.forall_mem_cons.1 h
      rcases ih ht with hin | ⟨before, sep, x, after, rfl, hsep, hafter⟩
      · rcases Nat.lt_or_eq_of_le hp with hlt | heq
        · exact Or.inl (List.forall_mem_cons.2 ⟨Nat.le_of_lt_succ hlt, hin⟩)
        · exact Or.inr ⟨[], p.1, p.2, tail, rfl, heq, hin⟩
      · exact Or.inr ⟨p :: before, sep, x, after, rfl, hsep, hafter⟩

variable [Scalar K]

/-- Two readings with a separator between them are one reading. -/
theorem reads_join {signed : Bool} {n : Nat} {a b : Sentence K} {sep : Separator} {e f : Expr K}
    (hlevel : sep.gap.level = n + 1) (hsign : b.sign = sep.sign)
    (ha : Reads signed (n + 1) a.chain e) (hb : Reads (sep.gap.op == .pow) n b.chain f) :
    ∃ e', Reads signed (n + 1) (a.join sep b).chain e' := by
  rw [chain_join hsign]
  generalize sep.gap = g at hlevel hb
  match g with
  | none =>
    cases hlevel
    exact ⟨_, .juxtaposed ha hb⟩
  | some (op, span) => exact ⟨_, .operator span hlevel ha hb⟩

/-- A sentence in which no separator is looser than a level has a reading of that level. -/
theorem exists_reads_of_within {signed : Bool} {n : Nat} {sign : Option Span} {head : Operand K}
    {tail : List (Separator × Operand K)} (hs : sign.isSome → signed = true)
    (h : Within n tail) : ∃ e, Reads signed n (Sentence.mk sign head tail).chain e := by
  -- at each level the induction on the length of the tail splits off what follows the last
  -- separator of the level, which is the right operand of the outermost node
  induction n generalizing signed sign head tail with
  | zero =>
      have ht : tail = [] := by
        rw [List.eq_nil_iff_forall_not_mem]
        intro p hp
        exact absurd (h p hp) (Nat.not_le_of_lt p.1.gap.level_pos)
      subst ht
      match sign with
      | none => exact ⟨_, .operand head⟩
      | some sign =>
        rw [hs rfl]
        exact ⟨_, .sign sign head⟩
  | succ n ih =>
      induction hlength : tail.length using Nat.strongRecOn generalizing tail with
      | _ _ ihtail =>
          subst hlength
          rcases within_or_split h with hin | ⟨before, sep, x, after, rfl, hsep, hafter⟩
          · obtain ⟨e, he⟩ := ih hs hin
            exact ⟨e, .loosen he⟩
          · have hlt : before.length < (before ++ (sep, x) :: after).length := by simp
            -- a sign stands only after a power, where the grammar allows it
            have hpow : sep.sign.isSome → (sep.gap.op == .pow) = true := by
              cases sep <;> simp [Separator.sign, Separator.gap, Gap.op]
            obtain ⟨a, ha⟩ :=
              ihtail _ hlt (fun p hp => h p (List.mem_append_left _ hp)) rfl
            obtain ⟨b, hb⟩ := ih hpow hafter
            exact reads_join hsep rfl ha hb

/-- Every sentence has a reading. -/
theorem exists_reads (s : Sentence K) : ∃ e, Reads true 4 s.chain e :=
  exists_reads_of_within (fun _ => rfl) fun p _ => p.1.gap.level_le

end Chain.Sentence

end SymbolicCalculus
