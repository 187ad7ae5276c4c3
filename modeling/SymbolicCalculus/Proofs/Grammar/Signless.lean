import SymbolicCalculus.Grammar.Parse
import SymbolicCalculus.Proofs.Expr.Unsigned
import SymbolicCalculus.Proofs.Grammar.Links

/-!
# Sources without signs

A minus that does not come right after an operand is a sign. A source without signs is followed
here through the stages of reading it: every stage keeps each minus right after an operand, and what
it reads already is `Unsigned`. So is what the whole source is read as (`unsigned_of_parse`).
-/

namespace SymbolicCalculus

variable {K : Type}

/-! ## Operators right after operands -/

/-- No minus in the text is a sign: white space aside, each comes right after raw text or a closing
parenthesis. `operand` says whether one of these comes before the text. -/
def signlessText : (operand : Bool) → List Char → Bool
  | _, [] => true
  | operand, c :: cs =>
    match TokenKind.ofChar c with
    | .whiteSpace => signlessText operand cs
    | .operator op => (op != .sub || operand) && signlessText false cs
    | .openParen => signlessText false cs
    | .closeParen => signlessText true cs
    | .raw => signlessText true cs

/-- No minus in a list of operators and operands, which are the entries without an operator, is a
sign. `operand` says whether the list comes after an operand. -/
def signless : (operand : Bool) → List (Option Operator) → Bool
  | _, [] => true
  | _, none :: ops => signless true ops
  | operand, some op :: ops => (op != .sub || operand) && signless false ops

/-- Whether a minus is a sign depends on the entry right before it only, so a common first entry can
be left out of a comparison. -/
theorem signless_cons_congr {ops ops' : List (Option Operator)}
    (h : ∀ b, signless b ops = signless b ops') (op? : Option Operator) (b : Bool) :
    signless b (op? :: ops) = signless b (op? :: ops') := by
  cases op? with
  | none => exact h true
  | some op => rw [signless, signless, h false]

/-! ## Segments -/

namespace Segment

/-- The operator that the segment is. -/
def op? : Segment → Option Operator
  | operator op _ => some op
  | _ => none

/-- There is text in the segment, and no minus in its groups is a sign. -/
inductive Signless : Segment → Prop
  | raw {text : List Glyph} : text ≠ [] → Signless (raw text)
  | operator (op : Operator) (span : Span) : Signless (operator op span)
  | group {segments : List Segment} {span : Span} : signless false (segments.map op?) = true →
      (∀ s ∈ segments, Signless s) → Signless (group segments span)

/-- No minus in the segments, the nearest one first, is a sign. `operand` says whether the nearest
one is an operand. -/
inductive SignlessBefore : (operand : Bool) → List Segment → Prop
  | nil : SignlessBefore false []
  | operand {b : Bool} {s : Segment} {before : List Segment} : SignlessBefore b before →
      s.op? = none → s.Signless → SignlessBefore true (s :: before)
  | operator {b : Bool} {op : Operator} {before : List Segment} (span : Span) :
      SignlessBefore b before → (op != .sub || b) = true →
      SignlessBefore false (.operator op span :: before)

namespace SignlessBefore

variable {b : Bool} {before : List Segment}

/-- Whether there are signs in a whole list is decided by the entries that follow the segments read
so far, and by whether an operand comes right before them. -/
theorem append (h : SignlessBefore b before) (ops : List (Option Operator)) :
    signless false (before.reverse.map op? ++ ops) = signless b ops := by
  -- each segment moves from the list before to the list after it
  induction h generalizing ops with
  | nil => rfl
  | operand _ hop _ ih =>
      rw [List.reverse_cons, List.map_append, List.append_assoc, ih, List.map_singleton, hop]
      rfl
  | @operator b op _ span _ hsub ih =>
      rw [List.reverse_cons, List.map_append, List.append_assoc, ih]
      show ((op != .sub || b) && signless false ops) = _
      rw [hsub, Bool.true_and]

/-- No minus is a sign inside one of the segments either. -/
theorem entries (h : SignlessBefore b before) : ∀ s ∈ before, s.Signless := by
  induction h with
  | nil => simp
  | operand _ _ hs ih => exact List.forall_mem_cons.2 ⟨hs, ih⟩
  | operator span _ _ ih => exact List.forall_mem_cons.2 ⟨.operator _ span, ih⟩

/-- The same of the segments in the order of the source. -/
theorem reverse (h : SignlessBefore b before) :
    signless false (before.reverse.map op?) = true ∧ ∀ s ∈ before.reverse, s.Signless := by
  refine ⟨?_, fun s hs => h.entries s (List.mem_reverse.1 hs)⟩
  have happend := h.append []
  rw [List.append_nil] at happend
  rw [happend]
  cases b <;> rfl

/-- Raw text is an operand, whether it starts a new segment or joins the one before. -/
theorem pushRaw {text : List Glyph} (h : SignlessBefore b before) (htext : text ≠ []) :
    SignlessBefore true (pushRaw text before) := by
  cases h with
  | nil => exact .operand .nil rfl (.raw htext)
  | operator span h hsub => exact .operand (.operator span h hsub) rfl (.raw htext)
  | @operand _ s _ h hop hs =>
      cases s with
      | raw previous => exact .operand h rfl (.raw (by simp [htext]))
      | group segments span => exact .operand (.operand h hop hs) rfl (.raw htext)
      | operator op span => cases hop

/-- What is collected from a text without signs has no signs, in any of the groups that are open. -/
theorem collect {n : Nat} {gs : List Glyph} {groups : List OpenGroup} {ss : List Segment}
    (htext : signlessText b (gs.map Glyph.char) = true) (h : SignlessBefore b before)
    (hgroups : ∀ g ∈ groups, ∃ b, SignlessBefore b g.before)
    (hss : Segment.collect n groups before (gs.map Token.single) = .ok ss) :
    signless false (ss.map op?) = true ∧ ∀ s ∈ ss, s.Signless := by
  -- a parenthesis opens with nothing before it, and what it closes is an operand for what follows
  induction gs generalizing b before groups with
  | nil =>
      cases groups with
      | nil =>
          cases hss
          exact h.reverse
      | cons unclosed groups => cases hss
  | cons g gs ih =>
      have hkind : (Token.single g).kind = TokenKind.ofChar g.char := rfl
      rw [List.map_cons, signlessText] at htext
      rw [List.map_cons, collect_cons, hkind] at hss
      generalize TokenKind.ofChar g.char = kind at htext hss
      cases kind with
      | whiteSpace => exact ih htext h hgroups hss
      | raw => exact ih htext (h.pushRaw (List.cons_ne_nil _ _)) hgroups hss
      | operator op =>
          obtain ⟨hsub, htext⟩ := Bool.and_eq_true_iff.1 htext
          exact ih htext (.operator _ h hsub) hgroups hss
      -- the new group begins with nothing before it, and the outer segments wait among the groups
      | openParen =>
          dsimp only at hss
          split at hss
          · cases hss
          · exact ih htext .nil (List.forall_mem_cons.2 ⟨⟨b, h⟩, hgroups⟩) hss
      -- the segments of the group are turned round, and the group is an operand of the outer list
      | closeParen =>
          cases groups with
          | nil => cases hss
          | cons closed groups =>
              obtain ⟨⟨b', hclosed⟩, hgroups⟩ := List.forall_mem_cons.1 hgroups
              dsimp only at hss
              split at hss
              · cases hss
              · exact ih htext (.operand hclosed rfl (.group h.reverse.1 h.reverse.2)) hgroups hss

end SignlessBefore

end Segment

/-! ## Fragments -/

namespace Fragment

/-- The operator that the fragment is. -/
def op? : Fragment K → Option Operator
  | operator op _ => some op
  | _ => none

/-- There is text in the fragment, or no signs in what it was read as. -/
def Unsigned [Literal K] : Fragment K → Prop
  | raw text => text ≠ []
  | operator _ _ => True
  | group x => x.expr.Unsigned
  | operand x => x.expr.Unsigned

variable [Literal K] {fs fs' : List (Fragment K)} {b : Bool}

/-- A numeral is read as a number, which is an operand without signs. -/
theorem unsigned_ofNumeral {numeral : List Glyph} {f : Fragment K}
    (h : ofNumeral numeral = .ok f) : f.Unsigned ∧ f.op? = none := by
  unfold ofNumeral at h
  dsimp only at h
  split at h
  · cases h
    exact ⟨.number _ _, rfl⟩
  · cases h

/-- What a text is split into begins and ends with an operand, and what is put in between are
multiplications. -/
theorem unsigned_ofText {text : List Glyph} (hne : text ≠ []) (h : ofText text = .ok fs) :
    (∀ f ∈ fs, f.Unsigned) ∧
      ∀ b ops, signless b (fs.map op? ++ ops) = signless true ops := by
  induction text using ofText.induct generalizing fs with
  | case1 => exact absurd rfl hne
  | case2 g gs hlength =>
      rw [ofText, hlength] at h
      cases h
      exact ⟨List.forall_mem_singleton.2 hne, fun _ _ => rfl⟩
  | case3 g gs n hlength ih =>
      rw [ofText, hlength] at h
      obtain ⟨number, hnumber, h⟩ := bind_eq_ok_iff.1 h
      obtain ⟨rest, hrest, h⟩ := bind_eq_ok_iff.1 h
      obtain ⟨hunsigned, hop⟩ := unsigned_ofNumeral hnumber
      split at h
      · next hempty =>
        simp only [List.isEmpty_iff.1 hempty, ofText] at hrest
        cases hrest
        cases h
        refine ⟨List.forall_mem_singleton.2 hunsigned, fun b ops => ?_⟩
        rw [List.map_singleton, hop]
        rfl
      · next hempty =>
        cases h
        obtain ⟨hentries, hops⟩ := ih (by simpa using hempty) hrest
        refine ⟨?_, fun b ops => ?_⟩
        · exact List.forall_mem_cons.2 ⟨hunsigned, List.forall_mem_cons.2 ⟨trivial, hentries⟩⟩
        · rw [List.map_cons, List.map_cons, hop]
          exact hops false ops

/-- Splitting numerals off makes operands of operands, and the multiplications that are put in come
right after operands. -/
theorem unsigned_readNumerals (hfs : ∀ f ∈ fs, f.Unsigned) (h : readNumerals fs = .ok fs') :
    (∀ f ∈ fs', f.Unsigned) ∧ ∀ b, signless b (fs'.map op?) = signless b (fs.map op?) := by
  fun_induction readNumerals fs generalizing fs' with
  | case1 =>
      cases h
      exact ⟨hfs, fun _ => rfl⟩
  | case2 text fs ih =>
      obtain ⟨htext, hfs⟩ := List.forall_mem_cons.1 hfs
      obtain ⟨split, hsplit, h⟩ := bind_eq_ok_iff.1 h
      obtain ⟨rest, hrest, h⟩ := bind_eq_ok_iff.1 h
      cases h
      obtain ⟨hown, hops⟩ := unsigned_ofText htext hsplit
      obtain ⟨hentries, hrest⟩ := ih hfs hrest
      refine ⟨fun f hf => ?_, fun b => ?_⟩
      · rcases List.mem_append.1 hf with hf | hf
        · exact hown f hf
        · exact hentries f hf
      · rw [List.map_append, hops, hrest]
        rfl
  | case3 f fs hraw ih =>
      obtain ⟨hf, hfs⟩ := List.forall_mem_cons.1 hfs
      obtain ⟨rest, hrest, h⟩ := bind_eq_ok_iff.1 h
      cases h
      obtain ⟨hentries, hrest⟩ := ih hfs hrest
      exact ⟨List.forall_mem_cons.2 ⟨hf, hentries⟩, signless_cons_congr hrest f.op?⟩

/-- A name and the group after it become one operand, so what comes after them still comes after an
operand. -/
theorem unsigned_readCalls {maxDepth : Nat} (hfs : ∀ f ∈ fs, f.Unsigned)
    (h : readCalls maxDepth fs = .ok fs') :
    (∀ f ∈ fs', f.Unsigned) ∧ ∀ b, signless b (fs'.map op?) = signless b (fs.map op?) := by
  fun_induction readCalls maxDepth fs generalizing fs' with
  | case1 =>
      cases h
      exact ⟨hfs, fun _ => rfl⟩
  | case2 text x fs f hname ih =>
      obtain ⟨-, hfs⟩ := List.forall_mem_cons.1 hfs
      obtain ⟨hx, hfs⟩ := List.forall_mem_cons.1 hfs
      obtain ⟨call, hcall, h⟩ := bind_eq_ok_iff.1 h
      obtain ⟨rest, hrest, h⟩ := bind_eq_ok_iff.1 h
      cases h
      obtain ⟨-, rfl⟩ := Operand.limit_eq_ok_iff.1 hcall
      obtain ⟨hentries, hrest⟩ := ih hfs hrest
      -- a name and a group become one operand, and what comes after them still comes after one
      exact ⟨List.forall_mem_cons.2 ⟨.call hx, hentries⟩, fun b => hrest true⟩
  | case3 text x fs hname ih =>
      obtain ⟨htext, hfs⟩ := List.forall_mem_cons.1 hfs
      obtain ⟨hx, hfs⟩ := List.forall_mem_cons.1 hfs
      obtain ⟨rest, hrest, h⟩ := bind_eq_ok_iff.1 h
      cases h
      obtain ⟨hentries, hrest⟩ := ih hfs hrest
      refine ⟨List.forall_mem_cons.2 ⟨htext, List.forall_mem_cons.2 ⟨hx, hentries⟩⟩, ?_⟩
      exact fun b => hrest true
  | case4 f fs hno ih =>
      obtain ⟨hf, hfs⟩ := List.forall_mem_cons.1 hfs
      obtain ⟨rest, hrest, h⟩ := bind_eq_ok_iff.1 h
      cases h
      obtain ⟨hentries, hrest⟩ := ih hfs hrest
      exact ⟨List.forall_mem_cons.2 ⟨hf, hentries⟩, signless_cons_congr hrest f.op?⟩

end Fragment

/-! ## Chains -/

namespace Link

/-- The operator that the link is. -/
def op? : Link K → Option Operator
  | operator op _ => some op
  | operand _ => none

end Link

/-- An operator stays what it is. The rest becomes an operand without signs, or is refused. -/
theorem Fragment.unsigned_toLink [Literal K] {f : Fragment K} {link : Link K} (hf : f.Unsigned)
    (h : f.toLink = .ok link) :
    link.op? = f.op? ∧ ∀ x, link = .operand x → x.expr.Unsigned := by
  cases f with
  | operator op span =>
      cases h
      exact ⟨rfl, fun x hx => by cases hx⟩
  | group x | operand x =>
      cases h
      refine ⟨rfl, fun x hx => ?_⟩
      cases hx
      exact hf
  -- raw text that is left is the name of a constant or of a variable
  | raw text =>
      rw [toLink] at h
      split at h
      · next e he =>
        cases h
        refine ⟨rfl, fun x hx => ?_⟩
        cases hx
        unfold nameExpr? at he
        split at he
        · cases he
          exact .constant _
        · next hconstant =>
          split at he
          · next hname =>
            cases he
            exact .var hname hconstant
          · cases he
      · cases h

/-- The chain of fragments without signs has its operators where they stood in the list. -/
theorem Fragment.unsigned_toLinks [Literal K] {fs : List (Fragment K)} {c : Chain K}
    (hfs : ∀ f ∈ fs, f.Unsigned) (h : fs.mapM toLink = .ok c) :
    c.map Link.op? = fs.map op? ∧ ∀ x, .operand x ∈ c → x.expr.Unsigned := by
  induction fs generalizing c with
  | nil =>
      cases h
      exact ⟨rfl, fun x hx => by cases hx⟩
  | cons f fs ih =>
      obtain ⟨hf, hfs⟩ := List.forall_mem_cons.1 hfs
      rw [List.mapM_cons] at h
      obtain ⟨link, hlink, h⟩ := bind_eq_ok_iff.1 h
      obtain ⟨rest, hrest, h⟩ := bind_eq_ok_iff.1 h
      cases h
      obtain ⟨hop, hlink⟩ := unsigned_toLink hf hlink
      obtain ⟨hops, hrest⟩ := ih hfs hrest
      refine ⟨by rw [List.map_cons, List.map_cons, hop, hops], fun x hx => ?_⟩
      rcases List.mem_cons.1 hx with hx | hx
      · exact hlink x hx.symm
      · exact hrest x hx

namespace Chain

variable {maxDepth : Nat} {c : Chain K}

/-- Each operand of a tail is among its links. -/
theorem mem_tailLinks {tail : List (Separator × Operand K)} {p : Separator × Operand K}
    (h : p ∈ tail) : Link.operand p.2 ∈ tailLinks tail := by
  induction tail with
  | nil => cases h
  | cons q tail ih =>
      rw [tailLinks]
      rcases List.mem_cons.1 h with rfl | h
      · simp
      · simp [ih h]

/-- A separator with a sign has two operators next to each other, the second of which is a minus. -/
theorem signless_tailLinks {tail : List (Separator × Operand K)}
    (h : signless true ((tailLinks tail).map Link.op?) = true) : ∀ p ∈ tail, p.1.sign = none := by
  induction tail with
  | nil => simp
  | cons p tail ih =>
      obtain ⟨sep, x⟩ := p
      match sep with
      | .plain none => exact List.forall_mem_cons.2 ⟨rfl, ih h⟩
      | .plain (some (op, span)) =>
        replace h : ((op != .sub || true) &&
          signless true ((tailLinks tail).map Link.op?)) = true := h
        exact List.forall_mem_cons.2 ⟨rfl, ih (Bool.and_eq_true_iff.1 h).2⟩
      | .signedPower span sign => cases h

/-- The sentence of a chain without signs has no signs. -/
theorem Sentence.signless_chain {s : Sentence K}
    (h : signless false (s.chain.map Link.op?) = true) :
    s.sign = none ∧ ∀ p ∈ s.tail, p.1.sign = none := by
  obtain ⟨_ | sign, x, tail⟩ := s
  · exact ⟨rfl, signless_tailLinks h⟩
  · cases h

end Chain

/-! ## Operands -/

namespace Operand

variable [Literal K]

/-- The node of an operator has two entries, and its first addend is added. -/
theorem unsigned_node {a b : Expr K} (op : Operator) (ha : a.Unsigned) (hb : b.Unsigned) :
    (op.node a b).Unsigned := by
  cases op with
  | add | sub => exact .sum (Nat.le_refl 2) (by simp [Addend.plus]) (by simpa using ⟨ha, hb⟩)
  | mul => exact .product (Nat.le_refl 2) (by simpa using ⟨ha, hb⟩)
  | div => exact .quotient ha hb
  | pow => exact .power ha hb

/-- What an operator makes of operands without signs has no signs. -/
theorem unsigned_apply (op : Operator) {x y : Operand K} (hx : x.expr.Unsigned)
    (hy : y.expr.Unsigned) : (x.apply op y).expr.Unsigned := by
  unfold apply
  split
  · next h =>
    rw [h] at hx
    exact hx.sum_concat hy
  · next h =>
    rw [h] at hx
    exact hx.sum_concat hy
  · next h =>
    rw [h] at hx
    exact hx.product_concat hy
  · exact unsigned_node _ hx hy

end Operand

/-! ## Rows -/

namespace Row

variable [Literal K] {maxDepth : Nat}

/-- There are no signs in the operands of the row. -/
def Unsigned (r : Row K) : Prop := r.head.expr.Unsigned ∧ ∀ p ∈ r.tail, p.2.expr.Unsigned

/-- Folding the operators of a tier makes operands without signs of such operands. -/
theorem unsigned_foldFrom {tier : Gap → Bool} {x : Operand K} {tail : List (Gap × Operand K)}
    {r : Row K} (hx : x.expr.Unsigned) (htail : ∀ p ∈ tail, p.2.expr.Unsigned)
    (h : foldFrom tier maxDepth x tail = .ok r) : r.Unsigned := by
  induction tail generalizing x r with
  | nil =>
      cases h
      exact ⟨hx, htail⟩
  | cons p tail ih =>
      obtain ⟨g, y⟩ := p
      obtain ⟨hy, htail⟩ := List.forall_mem_cons.1 htail
      -- the operator is applied, or its left operand is final
      rcases foldFrom_cons_eq_ok_iff.1 h with ⟨-, z, hz, h⟩ | ⟨-, r, hr, rfl⟩
      · obtain ⟨-, rfl⟩ := Operand.limit_eq_ok_iff.1 hz
        exact ih (Operand.unsigned_apply g.op hx hy) htail h
      · obtain ⟨hhead, htail⟩ := ih hy htail hr
        exact ⟨hx, List.forall_mem_cons.2 ⟨hhead, htail⟩⟩

/-- All tiers together make rows without signs of rows without signs. -/
theorem unsigned_applyLevels {n : Nat} {r r' : Row K} (hr : r.Unsigned)
    (h : r.applyLevels maxDepth n = .ok r') : r'.Unsigned := by
  induction n generalizing r' with
  | zero =>
      cases h
      exact hr
  | succ n ih =>
      obtain ⟨r₁, hr₁, h⟩ := bind_eq_ok_iff.1 h
      obtain ⟨hhead, htail⟩ := ih hr₁
      exact unsigned_foldFrom hhead htail h

end Row

namespace Chain

variable [Scalar K] [Literal K] {maxDepth : Nat}

/-- Without signs in the separators, the operands of the row are those of the sentence. -/
theorem Sentence.unsigned_rowTail {tail : List (Separator × Operand K)}
    {tail' : List (Gap × Operand K)} (hsigns : ∀ p ∈ tail, p.1.sign = none)
    (htail : ∀ p ∈ tail, p.2.expr.Unsigned) (h : rowTail maxDepth tail = .ok tail') :
    ∀ p ∈ tail', p.2.expr.Unsigned := by
  induction tail generalizing tail' with
  | nil =>
      cases h
      simp
  | cons p tail ih =>
      obtain ⟨sep, x⟩ := p
      obtain ⟨hsign, hsigns⟩ := List.forall_mem_cons.1 hsigns
      obtain ⟨hx, htail⟩ := List.forall_mem_cons.1 htail
      obtain ⟨y, hy, h⟩ := bind_eq_ok_iff.1 h
      obtain ⟨rest, hrest, h⟩ := bind_eq_ok_iff.1 h
      cases h
      replace hsign : sep.sign = none := hsign
      rw [hsign] at hy
      cases hy
      exact List.forall_mem_cons.2 ⟨hx, ih hsigns htail hrest⟩

/-- What a chain without signs comes down to has no signs. -/
theorem unsigned_toOperand {span : Span} {c : Chain K} {x : Operand K}
    (hsigns : signless false (c.map Link.op?) = true)
    (hentries : ∀ x, .operand x ∈ c → x.expr.Unsigned)
    (h : toOperand maxDepth span c = .ok x) : x.expr.Unsigned := by
  obtain ⟨s, rfl⟩ := exists_sentence_of_toOperand h
  obtain ⟨hsign, htail⟩ := Sentence.signless_chain hsigns
  rw [toOperand_chain] at h
  obtain ⟨r, hr, h⟩ := bind_eq_ok_iff.1 h
  obtain ⟨r₀, hr₀, hr⟩ := bind_eq_ok_iff.1 hr
  -- without a sign nothing is negated, so the row holds the operands of the chain as they are
  have hrow : r₀.Unsigned := by
    obtain ⟨y, hy, hr₀⟩ := bind_eq_ok_iff.1 hr₀
    obtain ⟨tail, htail', hr₀⟩ := bind_eq_ok_iff.1 hr₀
    cases hr₀
    rw [hsign] at hy
    cases hy
    refine ⟨hentries _ (by simp [Sentence.chain]), ?_⟩
    refine Sentence.unsigned_rowTail htail (fun p hp => hentries _ ?_) htail'
    simp [Sentence.chain, mem_tailLinks hp]
  split at h
  · cases h
    exact (Row.unsigned_applyLevels hrow hr).1
  · cases h

end Chain

/-! ## Groups and whole sources -/

variable [Scalar K] [Literal K] {maxDepth : Nat}

/-- A list of fragments without signs is read as an operand without signs. The steps before the
chain keep each operator where it stands. -/
theorem Fragment.unsigned_toOperand {span : Span} {fs : List (Fragment K)} {x : Operand K}
    (hsigns : signless false (fs.map op?) = true) (hfs : ∀ f ∈ fs, f.Unsigned)
    (h : toOperand maxDepth span fs = .ok x) : x.expr.Unsigned := by
  obtain ⟨fs₁, hfs₁, h⟩ := bind_eq_ok_iff.1 h
  obtain ⟨fs₂, hfs₂, h⟩ := bind_eq_ok_iff.1 h
  obtain ⟨c, hc, h⟩ := bind_eq_ok_iff.1 h
  obtain ⟨hentries₁, hsigns₁⟩ := unsigned_readNumerals hfs hfs₁
  obtain ⟨hentries₂, hsigns₂⟩ := unsigned_readCalls hentries₁ hfs₂
  obtain ⟨hops, hentries⟩ := unsigned_toLinks hentries₂ hc
  refine Chain.unsigned_toOperand ?_ hentries h
  rw [hops, hsigns₂, hsigns₁, hsigns]

namespace Segment

/-- If each segment keeps its operator and its lack of signs, so does the list. -/
theorem unsigned_toFragments {ss : List Segment} {fs : List (Fragment K)}
    (hss : ∀ s ∈ ss, ∀ f : Fragment K, toFragment maxDepth s = .ok f →
      f.op? = s.op? ∧ f.Unsigned)
    (h : toFragments maxDepth ss = .ok fs) : fs.map Fragment.op? = ss.map op? ∧
      ∀ f ∈ fs, f.Unsigned := by
  induction ss generalizing fs with
  | nil =>
      rw [toFragments] at h
      cases h
      exact ⟨rfl, by simp⟩
  | cons s ss ih =>
      obtain ⟨hs, hss⟩ := List.forall_mem_cons.1 hss
      rw [toFragments] at h
      obtain ⟨f, hf, h⟩ := bind_eq_ok_iff.1 h
      obtain ⟨rest, hrest, h⟩ := bind_eq_ok_iff.1 h
      cases h
      obtain ⟨hop, hf⟩ := hs f hf
      obtain ⟨hops, hrest⟩ := ih hss hrest
      exact ⟨by rw [List.map_cons, List.map_cons, hop, hops], List.forall_mem_cons.2 ⟨hf, hrest⟩⟩

/-- A segment without signs becomes a fragment without signs, which is an operator if and only if
the segment is. -/
theorem Signless.toFragment {s : Segment} (hs : s.Signless) {f : Fragment K}
    (h : toFragment maxDepth s = .ok f) : f.op? = s.op? ∧ f.Unsigned := by
  induction hs generalizing f with
  | raw htext =>
      rw [Segment.toFragment] at h
      cases h
      exact ⟨rfl, htext⟩
  | operator op span =>
      rw [Segment.toFragment] at h
      cases h
      exact ⟨rfl, trivial⟩
  | group hsigns _ ih =>
      rw [Segment.toFragment] at h
      obtain ⟨fs, hfs, h⟩ := bind_eq_ok_iff.1 h
      obtain ⟨x, hx, h⟩ := bind_eq_ok_iff.1 h
      cases h
      obtain ⟨hops, hentries⟩ := unsigned_toFragments (fun s hs f => ih s hs) hfs
      have hx : x.expr.Unsigned := Fragment.unsigned_toOperand (hops ▸ hsigns) hentries hx
      exact ⟨rfl, hx⟩

end Segment

/-- **A source without signs is read as an expression without signs.** -/
theorem unsigned_of_parse {limits : ParseLimits} {source : String} {e : Expr K}
    (hsigns : signlessText false source.toList = true) (h : parse limits source = .ok e) :
    e.Unsigned ∧ e.normalize = e := by
  obtain ⟨x, hx, h⟩ := bind_eq_ok_iff.1 h
  cases h
  refine ⟨Expr.Unsigned.normalize ?_, Expr.normalize_normalize x.expr⟩
  obtain ⟨segments, hsegments, hx⟩ := bind_eq_ok_iff.1 hx
  rw [Segment.ofTokens_significant] at hsegments
  have hchars : (Glyph.ofSource source).map Glyph.char = source.toList :=
    Glyph.map_char_ofChars 0 source.toList
  -- grouping starts with nothing before it and no open group
  obtain ⟨hops, hentries⟩ := Segment.SignlessBefore.collect (hchars ▸ hsigns) .nil (by simp)
    hsegments
  split at hx
  · obtain ⟨fs, hfs, hx⟩ := bind_eq_ok_iff.1 hx
    obtain ⟨hmap, hfragments⟩ :=
      Segment.unsigned_toFragments (fun s hs f => (hentries s hs).toFragment) hfs
    exact Fragment.unsigned_toOperand (hmap ▸ hops) hfragments hx
  · cases hx

end SymbolicCalculus
