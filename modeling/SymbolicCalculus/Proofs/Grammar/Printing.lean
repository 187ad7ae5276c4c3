import SymbolicCalculus.Proofs.Expr.Depth
import SymbolicCalculus.Proofs.Expr.Written
import SymbolicCalculus.Proofs.Grammar.Phrases
import SymbolicCalculus.Proofs.Scalar.Literals

/-!
# The texts of expressions are phrases

The text of every expression is an item, and what it is read as is the expression as it is written
(`item_toText`). The parentheses that are open at a time are no more than the tree has levels, and
five levels for each node are enough for all trees that are built while the text is read.
-/

namespace SymbolicCalculus

namespace Expr

variable {K : Type} [Scalar K] [Literal K] {maxDepth k w : Nat}

/-- What the text of an expression can show: numbers whose magnitudes are read back, and variables
that are not taken for constants. -/
structure Printable (e : Expr K) : Prop where
  numbers : ∀ v, number v ∈ e.postOrder → Literal.ReadsBack (Scalar.magnitude v)
  names : ∀ name, var name ∈ e.postOrder →
    isVariableName name = true ∧ Constant.ofName? name = none

theorem Printable.child {e child : Expr K} (h : e.Printable) (hchild : child ∈ e.children) :
    child.Printable where
  numbers v hv := h.numbers v (mem_postOrder_of_mem_children hchild hv)
  names name hname := h.names name (mem_postOrder_of_mem_children hchild hname)

/-! ## Leaves -/

/-- The text of a number is a numeral, with a sign and parentheses around it if the number is
negative. -/
theorem item_number [Literal.Laws K] {v : K} (h : Literal.ReadsBack (Scalar.magnitude v))
    (hdepth : 5 ≤ maxDepth) :
    Item maxDepth 1 5 (numberText v).toList (number v).written := by
  obtain ⟨digits, places, hread, hvalue⟩ := h
  unfold Scalar.magnitude at hread hvalue
  rw [written, numberText]
  split
  -- the magnitude is the opposite number, and the sign before it is read as a factor minus one
  · next hneg =>
    rw [if_pos hneg] at hread hvalue
    have hnumeral : Item maxDepth 0 3 _ (number _ : Expr K) := Item.numeral hread
    rw [hvalue] at hnumeral
    have hsign := (Phrase.sign hnumeral).group (show 3 ≤ maxDepth by omega)
    rw [Literal.Laws.toText_of_isNeg hneg]
    simpa using hsign
  · next hpos =>
    rw [if_neg hpos] at hread hvalue
    have hnumeral : Item maxDepth 0 3 _ (number _ : Expr K) := Item.numeral hread
    rw [hvalue] at hnumeral
    exact hnumeral.mono (by omega) (by omega)

theorem item_constant (c : Constant) :
    Item maxDepth 0 3 c.name.toList (constant c : Expr K) :=
  Item.name c.isVariableName_name (by rw [Fragment.nameExpr?, Constant.ofName?_name])

theorem item_var {name : String} (hname : isVariableName name = true)
    (hconstant : Constant.ofName? name = none) :
    Item maxDepth 0 3 name.toList (var name : Expr K) :=
  Item.name hname (by rw [Fragment.nameExpr?, hconstant]; simp [hname])

/-! ## Sums -/

/-- The operator before an addend that is not the first. -/
def addendOperator (subtract : Bool) : Operator := if subtract then .sub else .add

/-- The text of an addend that is not the first, with the operator before it. -/
def signedText (a : Addend String) : String := (if a.subtract then " - " else " + ") ++ a.expr

omit [Scalar K] [Literal K] in
/-- Adding a term to a sum extends the sum, up to normalization. -/
theorem normalize_node_sum (as : List (Addend (Expr K))) (b : Expr K) (s : Bool) :
    ((addendOperator s).node (sum as) b).normalize = (sum (as ++ [⟨b, s⟩])).normalize := by
  cases s <;>
    simp [addendOperator, Operator.node, normalize, normalizeAddends, normalizeAddends_append,
      Addend.plus, Addend.minus, asAddends_false_sum]

omit [Scalar K] [Literal K] in
theorem node_addend (e b : Expr K) (s : Bool) :
    (addendOperator s).node e b = sum [.plus e, ⟨b, s⟩] := by
  cases s <;> rfl

/-- A phrase may go on with one more term. -/
theorem phrase_addend {cs : List Char} {e : Expr K} {text : String} {b : Expr K} {w' : Nat}
    (s : Bool) (h : Phrase maxDepth k w 4 cs e) (hb : Item maxDepth k w' text.toList b) :
    Phrase maxDepth k (w + w') 4 (cs ++ (signedText ⟨text, s⟩).toList)
      ((addendOperator s).node e b) := by
  have hblank : ∀ c ∈ [' '], c = ' ' := by simp
  have hminus : TokenKind.ofChar '-' = .operator .sub := rfl
  have hplus : TokenKind.ofChar '+' = .operator .add := rfl
  cases s with
  | true => simpa [signedText, addendOperator] using h.operator rfl hminus hblank hblank hb
  | false => simpa [signedText, addendOperator] using h.operator rfl hplus hblank hblank hb

/-- The addends after the first ones extend the sum of these. -/
theorem phrase_addends {cs : List Char} {as bs : List (Addend (Expr K))}
    (h : Phrase maxDepth k w 4 cs (sum as))
    (hbs : ∀ b ∈ bs, Item maxDepth k (5 * b.expr.nodeCount) b.expr.toText.toList b.expr.written) :
    Phrase maxDepth k (w + 5 * addendsNodeCount bs) 4
      (cs ++ ((addendTexts bs).map signedText).flatMap String.toList)
      (sum (as ++ writtenAddends bs)) := by
  -- induction on the terms that are left, over all sums they may extend
  induction bs generalizing cs w as with
  | nil => simpa [addendTexts, writtenAddends, addendsNodeCount] using h
  | cons b bs ih =>
      obtain ⟨e, s⟩ := b
      have hfirst := (phrase_addend s h (hbs ⟨e, s⟩ List.mem_cons_self)).congr
        (normalize_node_sum as e.written s)
      have hrest := ih hfirst fun b hb => hbs b (List.mem_cons_of_mem _ hb)
      rw [addendsNodeCount, Nat.mul_add, ← Nat.add_assoc]
      simpa [addendTexts, writtenAddends] using hrest

/-- The first addend, with its sign. -/
theorem phrase_first {e : Expr K} (s : Bool) (h : Item maxDepth k w e.toText.toList e.written)
    (as : List (Addend (Expr K))) :
    ∃ f, addFirst (⟨e.written, s⟩ :: as) = .plus f :: as ∧
      Phrase maxDepth k w 4 ((if s then "-" else "").toList ++ e.toText.toList) f := by
  cases s with
  | true => exact ⟨_, rfl, .sign h⟩
  | false => exact ⟨_, rfl, h.phrase 4⟩

/-- What is between the parentheses of a sum. -/
theorem phrase_sum {e : Expr K} {s : Bool} {as : List (Addend (Expr K))}
    (has : ∀ a ∈ (⟨e, s⟩ :: as : List (Addend (Expr K))),
      Item maxDepth k (5 * a.expr.nodeCount) a.expr.toText.toList a.expr.written) :
    Phrase maxDepth k (5 * addendsNodeCount (⟨e, s⟩ :: as)) 4
      ((if s then "-" else "").toList ++ e.toText.toList ++
        ((addendTexts as).map signedText).flatMap String.toList)
      (sum (⟨e, s⟩ :: as)).written := by
  obtain ⟨f, hf, hfirst⟩ := phrase_first s (has _ List.mem_cons_self) (writtenAddends as)
  rw [written, writtenAddends, hf, addendsNodeCount, Nat.mul_add]
  -- a single addend is no sum as it is written, and two are the first sum that the others extend
  cases as with
  | nil => simpa [addendTexts, writtenAddends, addendsNodeCount, Addend.plus, collapse] using hfirst
  | cons a as =>
      obtain ⟨e', s'⟩ := a
      have htwo := phrase_addend s' hfirst (has ⟨e', s'⟩ (by simp))
      rw [node_addend] at htwo
      have hall := phrase_addends htwo fun b hb =>
        has b (List.mem_cons_of_mem _ (List.mem_cons_of_mem _ hb))
      rw [addendsNodeCount, Nat.mul_add, ← Nat.add_assoc]
      simpa [addendTexts, writtenAddends, Addend.plus, collapse] using hall

/-- The text of a sum is an item if those of its terms are. -/
theorem item_sum [Literal.Laws K] {as : List (Addend (Expr K))}
    (has : ∀ a ∈ as, Item maxDepth k (5 * a.expr.nodeCount) a.expr.toText.toList a.expr.written)
    (hdepth : 5 * (sum as).nodeCount ≤ maxDepth) :
    Item maxDepth (k + 1) (5 * (sum as).nodeCount) (sum as).toText.toList (sum as).written := by
  rw [nodeCount] at hdepth ⊢
  cases as with
  | nil =>
      -- a sum of no terms is written as a zero
      have hzero : Item maxDepth 0 3 "0".toList (number (Literal.ofDecimal 0 0) : Expr K) :=
        Item.numeral rfl
      rw [Literal.Laws.ofDecimal_zero] at hzero
      exact hzero.mono (Nat.zero_le _) (by omega)
  | cons a as =>
      obtain ⟨e, s⟩ := a
      have hgroup := ((phrase_sum has).group (by omega)).mono (Nat.le_refl _)
        (show 5 * addendsNodeCount (⟨e, s⟩ :: as) + 2 ≤ 5 * (addendsNodeCount (⟨e, s⟩ :: as) + 1)
          by omega)
      have htext : (sum (⟨e, s⟩ :: as)).toText.toList =
          '(' :: ((if s then "-" else "").toList ++ e.toText.toList ++
            ((addendTexts as).map signedText).flatMap String.toList) ++ [')'] := by
        simp [toText, addendTexts, sumText, String.toList_join]
        rfl
      rw [htext]
      exact hgroup

/-! ## Products, quotients and powers -/

omit [Scalar K] [Literal K] in
theorem normalize_node_product (es : List (Expr K)) (f : Expr K) :
    (Operator.mul.node (product es) f).normalize = (product (es ++ [f])).normalize := by
  simp [Operator.node, normalize, normalizeFactors, normalizeFactors_append, asFactors]

/-- A phrase may go on with one more factor. -/
theorem phrase_factor {cs : List Char} {e : Expr K} {text : String} {f : Expr K} {w' : Nat}
    (h : Phrase maxDepth k w 2 cs e) (hf : Item maxDepth k w' text.toList f) :
    Phrase maxDepth k (w + w') 2 (cs ++ (" * " ++ text).toList) (product [e, f]) := by
  have hblank : ∀ c ∈ [' '], c = ' ' := by simp
  have htimes : TokenKind.ofChar '*' = .operator .mul := rfl
  simpa [Operator.node] using h.operator rfl htimes hblank hblank hf

/-- The factors after the first ones extend the product of these. -/
theorem phrase_factors {cs : List Char} {es fs : List (Expr K)}
    (h : Phrase maxDepth k w 2 cs (product es))
    (hfs : ∀ f ∈ fs, Item maxDepth k (5 * f.nodeCount) f.toText.toList f.written) :
    Phrase maxDepth k (w + 5 * factorsNodeCount fs) 2
      (cs ++ ((factorTexts fs).map (" * " ++ ·)).flatMap String.toList)
      (product (es ++ writtenFactors fs)) := by
  -- induction on the factors that are left, over all products they may extend
  induction fs generalizing cs w es with
  | nil => simpa [factorTexts, writtenFactors, factorsNodeCount] using h
  | cons f fs ih =>
      have hfirst := (phrase_factor h (hfs f List.mem_cons_self)).congr
        (normalize_node_product es f.written)
      have hrest := ih hfirst fun f hf => hfs f (List.mem_cons_of_mem _ hf)
      rw [factorsNodeCount, Nat.mul_add, ← Nat.add_assoc]
      simpa [factorTexts, writtenFactors] using hrest

/-- What is between the parentheses of a product. -/
theorem phrase_product {e : Expr K} {es : List (Expr K)}
    (hes : ∀ f ∈ e :: es, Item maxDepth k (5 * f.nodeCount) f.toText.toList f.written) :
    Phrase maxDepth k (5 * factorsNodeCount (e :: es)) 2
      (e.toText.toList ++ ((factorTexts es).map (" * " ++ ·)).flatMap String.toList)
      (product (e :: es)).written := by
  have hfirst := (hes e List.mem_cons_self).phrase 2
  rw [written, writtenFactors, factorsNodeCount, Nat.mul_add]
  -- a single factor is no product as it is written
  cases es with
  | nil => simpa [factorTexts, writtenFactors, factorsNodeCount, collapse] using hfirst
  | cons f es =>
      have htwo := phrase_factor hfirst (hes f (by simp))
      have hall := phrase_factors htwo fun g hg =>
        hes g (List.mem_cons_of_mem _ (List.mem_cons_of_mem _ hg))
      rw [factorsNodeCount, Nat.mul_add, ← Nat.add_assoc]
      simpa [factorTexts, writtenFactors, collapse] using hall

/-- The text of a product is an item if those of its factors are. -/
theorem item_product [Literal.Laws K] {es : List (Expr K)}
    (hes : ∀ e ∈ es, Item maxDepth k (5 * e.nodeCount) e.toText.toList e.written)
    (hdepth : 5 * (product es).nodeCount ≤ maxDepth) :
    Item maxDepth (k + 1) (5 * (product es).nodeCount) (product es).toText.toList
      (product es).written := by
  rw [nodeCount] at hdepth ⊢
  cases es with
  | nil =>
      -- a product of no factors is written as a one
      have hone : Item maxDepth 0 3 "1".toList (number (Literal.ofDecimal 1 0) : Expr K) :=
        Item.numeral rfl
      rw [Literal.Laws.ofDecimal_one] at hone
      exact hone.mono (Nat.zero_le _) (by omega)
  | cons e es =>
      have hphrase := (phrase_product hes).mono (Nat.le_refl _) (Nat.le_refl _)
        (show 2 ≤ 4 by omega)
      have hgroup := (hphrase.group (by omega)).mono (Nat.le_refl _)
        (show 5 * factorsNodeCount (e :: es) + 2 ≤ 5 * (factorsNodeCount (e :: es) + 1) by omega)
      have htext : (product (e :: es)).toText.toList =
          '(' :: (e.toText.toList ++
            ((factorTexts es).map (" * " ++ ·)).flatMap String.toList) ++ [')'] := by
        simp [toText, factorTexts, productText, String.toList_join]
      rw [htext]
      exact hgroup

/-- An operator with two operands in parentheses. -/
theorem item_binary {op : Operator} {o : Char} {n : Nat} {blanks : List Char} {a b : Expr K}
    {m : Nat} (hlevel : op.level = n + 1) (hn : n < 4) (ho : TokenKind.ofChar o = .operator op)
    (hblanks : ∀ c ∈ blanks, c = ' ')
    (ha : Item maxDepth k (5 * a.nodeCount) a.toText.toList a.written)
    (hb : Item maxDepth k (5 * b.nodeCount) b.toText.toList b.written)
    (hm : m = a.nodeCount + b.nodeCount + 1) (hdepth : 5 * m ≤ maxDepth) :
    Item maxDepth (k + 1) (5 * m)
      ('(' :: (a.toText.toList ++ (blanks ++ o :: blanks) ++ b.toText.toList) ++ [')'])
      (op.node a.written b.written) := by
  have hphrase := (ha.phrase (n + 1)).operator hlevel ho hblanks hblanks hb
  have hgroup := (hphrase.mono (Nat.le_refl _) (Nat.le_refl _) (show n + 1 ≤ 4 by omega)).group
    (by omega)
  exact hgroup.mono (Nat.le_refl _) (by omega)

/-! ## All expressions -/

omit [Scalar K] [Literal K] in
/-- A term has no more nodes than all terms together. -/
theorem le_addendsNodeCount {as : List (Addend (Expr K))} {a : Addend (Expr K)} (h : a ∈ as) :
    a.expr.nodeCount ≤ addendsNodeCount as := by
  induction as with
  | nil => cases h
  | cons b as ih =>
      rw [addendsNodeCount]
      rcases List.mem_cons.mp h with rfl | h
      · exact Nat.le_add_right _ _
      · exact Nat.le_trans (ih h) (Nat.le_add_left _ _)

omit [Scalar K] [Literal K] in
/-- A factor has no more nodes than all factors together. -/
theorem le_factorsNodeCount {es : List (Expr K)} {e : Expr K} (h : e ∈ es) :
    e.nodeCount ≤ factorsNodeCount es := by
  induction es with
  | nil => cases h
  | cons f es ih =>
      rw [factorsNodeCount]
      rcases List.mem_cons.mp h with rfl | h
      · exact Nat.le_add_right _ _
      · exact Nat.le_trans (ih h) (Nat.le_add_left _ _)

omit [Scalar K] [Literal K] in
/-- A child has fewer levels and fewer nodes than the tree. -/
theorem size_of_mem_children {e child : Expr K} (h : child ∈ e.children) :
    child.depth + 1 ≤ e.depth ∧ child.nodeCount + 1 ≤ e.nodeCount := by
  cases e with
  | number | constant | var => cases h
  | sum as =>
      obtain ⟨a, ha, rfl⟩ := List.mem_map.mp h
      exact ⟨Nat.succ_le_succ (le_addendsDepth ha), Nat.succ_le_succ (le_addendsNodeCount ha)⟩
  | product es =>
      exact ⟨Nat.succ_le_succ (le_factorsDepth h), Nat.succ_le_succ (le_factorsNodeCount h)⟩
  | quotient a b | power a b =>
      simp only [children, List.mem_cons, List.not_mem_nil, or_false] at h
      simp only [depth, nodeCount]
      rcases h with rfl | rfl <;> omega
  | call f a =>
      obtain rfl := List.mem_singleton.mp h
      exact ⟨Nat.le_refl _, Nat.le_refl _⟩

/-- **The text of an expression is an item.** It is read as the expression as it is written. -/
theorem item_toText [Literal.Laws K] (e : Expr K) (h : e.Printable)
    (hdepth : 5 * e.nodeCount ≤ maxDepth) :
    Item maxDepth e.depth (5 * e.nodeCount) e.toText.toList e.written := by
  -- induction over the tree, with its depth for the parentheses and its nodes for the levels
  induction e using children_induction with
  | _ e ih =>
    -- a child may open one parenthesis less, and its five levels a node are among those of the tree
    have hchild : ∀ c ∈ e.children,
        Item maxDepth (e.depth - 1) (5 * c.nodeCount) c.toText.toList c.written := by
      intro c hc
      obtain ⟨hlevels, hnodes⟩ := size_of_mem_children hc
      exact (ih c hc (h.child hc) (by omega)).mono (by omega) (Nat.le_refl _)
    cases e with
    | number v => exact item_number (h.numbers v (self_mem_postOrder _)) hdepth
    | constant c => exact (item_constant c).mono (Nat.zero_le _) (show 3 ≤ 5 * 1 by omega)
    | var name =>
        obtain ⟨hname, hconstant⟩ := h.names name (self_mem_postOrder _)
        exact (item_var hname hconstant).mono (Nat.zero_le _) (show 3 ≤ 5 * 1 by omega)
    | sum as => exact item_sum (fun a ha => hchild a.expr (List.mem_map_of_mem ha)) hdepth
    | product es => exact item_product hchild hdepth
    | quotient a b =>
        have hblanks : ∀ c ∈ [' '], c = ' ' := by simp
        have hslash : TokenKind.ofChar '/' = .operator .div := rfl
        have hitem := item_binary rfl (by omega) hslash hblanks (hchild a (by simp [children]))
          (hchild b (by simp [children])) rfl hdepth
        simpa [toText, depth, nodeCount, written, Operator.node] using hitem
    | power a b =>
        have hblanks : ∀ c ∈ ([] : List Char), c = ' ' := by simp
        have hcaret : TokenKind.ofChar '^' = .operator .pow := rfl
        have hitem := item_binary rfl (by omega) hcaret hblanks (hchild a (by simp [children]))
          (hchild b (by simp [children])) rfl hdepth
        simpa [toText, depth, nodeCount, written, Operator.node] using hitem
    | call f a =>
        rw [nodeCount] at hdepth
        have ha := (hchild a (by simp [children])).phrase 4
        have hcall := (ha.call f (by omega)).mono (Nat.le_refl _)
          (show 5 * a.nodeCount + 3 ≤ 5 * (a.nodeCount + 1) by omega)
        simpa [toText, depth, written, nodeCount] using hcall

end Expr

end SymbolicCalculus
