import SymbolicCalculus.Proofs.Expr.Scope
import SymbolicCalculus.Proofs.Simplify.Merging
import SymbolicCalculus.Proofs.Simplify.Rewriting

/-!
# Simplification brings in no variables

Whatever holds of every variable of an expression holds of every variable of what a rule puts in its
place, since rules put only parts of a tree and numbers in its place. So it holds of the variables
of the simplification, under any limits (`Expr.AllVars.simplify`).
-/

namespace SymbolicCalculus

variable {K : Type} {P : String → Prop}

open SymbolicCalculus.Expr

/-! ## Rewriting -/

/-- What holds of every variable of `e` holds of every variable of `e'`. -/
def KeepsVars (P : String → Prop) (e e' : Expr K) : Prop := e.AllVars P → e'.AllVars P

/-- The variables of a node are those of its children, so the property passes through every kind of
node. -/
theorem KeepsVars.isRewriting : IsRewriting (KeepsVars (K := K) P) where
  refl _ := id
  trans hab hbc := hbc ∘ hab
  sum := by
    intro as bs h
    simp only [KeepsVars, allVars_sum]
    induction h with
    | nil => exact id
    | cons hab _ ih =>
        simp only [List.forall_mem_cons]
        exact And.imp hab.1 ih
  product := by
    intro as bs h
    simp only [KeepsVars, allVars_product]
    induction h with
    | nil => exact id
    | cons hab _ ih =>
        simp only [List.forall_mem_cons]
        exact And.imp hab ih
  quotient hac hbd h := allVars_quotient.mpr ((allVars_quotient.mp h).imp hac hbd)
  power hac hbd h := allVars_power.mpr ((allVars_power.mp h).imp hac hbd)
  call hab h := allVars_call.mpr (hab (allVars_call.mp h))

variable [Scalar K]

/-! ## Gathering -/

namespace Expr

theorem allVars_neg {e : Expr K} : (-e).AllVars P ↔ e.AllVars P := by
  show (product ([number Scalar.minusOne] ++ e.asFactors)).AllVars P ↔ _
  simp [forall_mem_asFactors]

/-- Rebuilding terms adds nothing but a factor of minus one. -/
theorem AllVars.sumOfTerms {terms : List (Addend (Expr K))}
    (h : ∀ a ∈ terms, a.expr.AllVars P) : (sumOfTerms terms).AllVars P := by
  unfold Expr.sumOfTerms
  split
  · simpa [allVars_neg] using h
  · simpa using h

/-- Gathering the numbers of a sum leaves the terms as they are and adds a number at most. -/
theorem AllVars.gatherSum {as : List (Addend (Expr K))} (h : ∀ a ∈ as, a.expr.AllVars P) :
    (gatherSum as).AllVars P := by
  have hterms : ∀ a ∈ as.filter fun a => !a.expr.isNumber, a.expr.AllVars P :=
    fun a ha => h a (List.mem_of_mem_filter ha)
  have hnumber (v : K) : (signedAddend v).expr.AllVars P := by
    unfold signedAddend
    split <;> exact allVars_number
  unfold Expr.gatherSum
  dsimp only
  split
  · exact allVars_number
  -- some terms are left, with or without a number after them
  · refine AllVars.sumOfTerms ?_
    split
    · exact hterms
    · exact List.forall_mem_append.mpr ⟨hterms, List.forall_mem_singleton.mpr (hnumber _)⟩

/-- Gathering the numbers of a product leaves the other factors as they are and adds a number at
most. -/
theorem AllVars.gatherProduct {es : List (Expr K)} (h : ∀ e ∈ es, e.AllVars P) :
    (gatherProduct es).AllVars P := by
  have hrest : ∀ e ∈ es.filter fun e => !e.isNumber, e.AllVars P :=
    fun e he => h e (List.mem_of_mem_filter he)
  unfold Expr.gatherProduct
  dsimp only
  split
  · exact allVars_number
  · split
    · exact allVars_number
    · rw [allVars_collapse, allVars_product]
      split
      · exact hrest
      · exact List.forall_mem_append.mpr ⟨hrest, List.forall_mem_singleton.mpr allVars_number⟩

/-! ## Powers -/

omit [Scalar K] in
/-- The argument of a logarithm and the factors beside it are parts of the product. -/
theorem AllVars.extractLn {es rest : List (Expr K)} {u : Expr K}
    (h : extractLn? es = some (u, rest)) (hes : ∀ e ∈ es, e.AllVars P) :
    u.AllVars P ∧ ∀ e ∈ rest, e.AllVars P := by
  induction es generalizing rest with
  | nil => cases h
  | cons e es ih =>
      obtain ⟨he, htail⟩ := List.forall_mem_cons.mp hes
      rw [extractLn?] at h
      split at h
      -- the first factor is a logarithm, or else one of the others is
      · next w hw =>
        obtain ⟨rfl, rfl⟩ := Prod.mk.inj (Option.some.inj h)
        unfold lnArg? at hw
        split at hw
        · cases hw
          exact ⟨allVars_call.mp he, htail⟩
        · cases hw
      · obtain ⟨⟨v, others⟩, hothers, heq⟩ := Option.map_eq_some_iff.mp h
        obtain ⟨rfl, rfl⟩ := Prod.mk.inj heq
        obtain ⟨hu, hothers⟩ := ih hothers htail
        exact ⟨hu, List.forall_mem_cons.mpr ⟨he, hothers⟩⟩

/-- The power that replaces `e ^ (u * ln x)` is made of the argument and the other factors. -/
theorem AllVars.powerOfLn {b e' : Expr K} (h : b.powerOfLn? = some e') (hb : b.AllVars P) :
    e'.AllVars P := by
  unfold powerOfLn? at h
  split at h
  · cases h
    exact allVars_call.mp hb
  · next es =>
    obtain ⟨⟨u, rest⟩, hextract, heq⟩ := Option.map_eq_some_iff.mp h
    obtain ⟨hu, hrest⟩ := AllVars.extractLn hextract (allVars_product.mp hb)
    dsimp only at heq
    split at heq
    · exact heq ▸ hu
    · rw [← heq, allVars_power, allVars_collapse, allVars_product]
      exact ⟨hu, hrest⟩
  · cases h

end Expr

/-! ## Fractions -/

namespace Fraction

/-- The property holds of every variable above and below the bar. -/
structure AllVars (P : String → Prop) (a : Fraction K) : Prop where
  num : ∀ e ∈ a.num, e.AllVars P
  den : ∀ e ∈ a.den, e.AllVars P

omit [Scalar K] in
theorem AllVars.mul {a b : Fraction K} (ha : a.AllVars P) (hb : b.AllVars P) :
    (a.mul b).AllVars P :=
  ⟨List.forall_mem_append.mpr ⟨ha.num, hb.num⟩, List.forall_mem_append.mpr ⟨ha.den, hb.den⟩⟩

omit [Scalar K] in
mutual

/-- Reading a fraction off only moves factors. -/
theorem AllVars.ofExpr {e : Expr K} (h : e.AllVars P) : (ofExpr e).AllVars P := by
  match e with
  | .product es => exact AllVars.ofFactors (allVars_product.mp h)
  | .quotient a b =>
    obtain ⟨ha, hb⟩ := allVars_quotient.mp h
    have hb' := AllVars.ofExpr hb
    exact (AllVars.ofExpr ha).mul ⟨hb'.den, hb'.num⟩
  | .number _ | .constant _ | .var _ | .sum _ | .power _ _ | .call _ _ =>
    exact ⟨List.forall_mem_singleton.mpr h, List.forall_mem_nil _⟩

theorem AllVars.ofFactors {es : List (Expr K)} (h : ∀ e ∈ es, e.AllVars P) :
    (ofFactors es).AllVars P := by
  match es with
  | [] => exact ⟨List.forall_mem_nil _, List.forall_mem_nil _⟩
  | e :: es =>
    obtain ⟨he, hes⟩ := List.forall_mem_cons.mp h
    exact (AllVars.ofExpr he).mul (AllVars.ofFactors hes)

end

omit [Scalar K] in
theorem AllVars.ofExpr? {e : Expr K} {a : Fraction K} (h : ofExpr? e = some a)
    (he : e.AllVars P) : a.AllVars P :=
  ofExpr?_eq_some h ▸ AllVars.ofExpr he

/-- Writing a fraction down adds nothing to its factors. -/
theorem AllVars.toExpr {a : Fraction K} (h : a.AllVars P) : a.toExpr.AllVars P := by
  unfold Fraction.toExpr productOf
  split
  · rw [allVars_collapse, allVars_product]
    exact h.num
  · rw [allVars_quotient, allVars_collapse, allVars_collapse, allVars_product, allVars_product]
    exact ⟨h.num, h.den⟩

theorem AllVars.cancel {a : Fraction K} (h : a.AllVars P) : a.cancel.AllVars P := by
  obtain ⟨hnum, hden, -⟩ := cancelFrom_sublist a.num a.den
  exact ⟨fun e he => h.num e (hnum.subset he), fun e he => h.den e (hden.subset he)⟩

/-- Gathering leaves numbers out on both sides, and adds one above the bar at most. -/
theorem AllVars.gather {a : Fraction K} (h : a.AllVars P) : a.gather.AllVars P := by
  have hnum : ∀ e ∈ a.num.filter fun e => !e.isNumber, e.AllVars P :=
    fun e he => h.num e (List.mem_of_mem_filter he)
  refine ⟨?_, fun e he => h.den e (List.mem_of_mem_filter he)⟩
  unfold Fraction.gather
  dsimp only
  split
  · exact hnum
  · exact List.forall_mem_append.mpr ⟨hnum, List.forall_mem_singleton.mpr allVars_number⟩

end Fraction

namespace Powers

/-- The property holds of every variable of the bases and the exponents. -/
def AllVars (P : String → Prop) (powers : Powers K) : Prop :=
  ∀ p ∈ powers, p.1.AllVars P ∧ p.2.AllVars P

/-- A factor that is not a power gets an exponent of one, which is a number. -/
theorem allVars_ofFactor {e : Expr K} (h : e.AllVars P) :
    (ofFactor e).1.AllVars P ∧ (ofFactor e).2.AllVars P := by
  cases e with
  | power b x => exact allVars_power.mp h
  | _ => exact ⟨h, allVars_number⟩

theorem allVars_toFactor {b x : Expr K} (hb : b.AllVars P) (hx : x.AllVars P) :
    (toFactor b x).AllVars P := by
  unfold toFactor
  split
  · exact allVars_number
  · split
    · exact hb
    · exact allVars_power.mpr ⟨hb, hx⟩

/-- The sum of exponents is normalized and gathered, neither of which brings in a variable. -/
theorem allVars_addExponents {x y : Expr K} (hx : x.AllVars P) (hy : y.AllVars P)
    (subtract : Bool) : (addExponents x y subtract).AllVars P := by
  have hsum : (sum [.plus x, ⟨y, subtract⟩]).normalize.AllVars P := by
    rw [allVars_normalize]
    simpa [Addend.plus] using ⟨hx, hy⟩
  unfold addExponents
  split
  · next as h => exact AllVars.gatherSum (allVars_sum.mp (h ▸ hsum))
  · exact hsum

variable {powers num den : Powers K}

/-- Only the exponent of one power changes. -/
theorem AllVars.raise {powers' : Powers K} {b x : Expr K} {subtract : Bool}
    (h : raise? b x subtract powers = some powers') (hpowers : powers.AllVars P)
    (hx : x.AllVars P) : powers'.AllVars P := by
  -- the powers before and after the one with the base stay what they are
  obtain ⟨before, c, y, after, rfl, -, rfl⟩ := raise?_eq_some h
  obtain ⟨hbefore, hrest⟩ := List.forall_mem_append.mp hpowers
  obtain ⟨⟨hc, hy⟩, hafter⟩ := List.forall_mem_cons.mp hrest
  have hraised := allVars_addExponents hy hx subtract
  exact List.forall_mem_append.mpr ⟨hbefore, List.forall_mem_cons.mpr ⟨⟨hc, hraised⟩, hafter⟩⟩

/-- A power is merged into another one or added at the end. -/
theorem AllVars.insert {p : Expr K × Expr K} (hpowers : powers.AllVars P)
    (hp : p.1.AllVars P ∧ p.2.AllVars P) : (powers.insert p).AllVars P := by
  unfold Powers.insert
  cases hraise : raise? p.1 p.2 false powers with
  | none => exact List.forall_mem_append.mpr ⟨hpowers, List.forall_mem_singleton.mpr hp⟩
  | some powers' => exact AllVars.raise hraise hpowers hp.2

/-- Inserting one power after the other keeps the property. -/
theorem AllVars.ofFactors {es : List (Expr K)} (h : ∀ e ∈ es, e.AllVars P) :
    (ofFactors es).AllVars P := by
  -- stated for any list to start from, as the induction on the powers needs it
  have hfold (ps qs : Powers K) (hps : ps.AllVars P) (hqs : qs.AllVars P) :
      (qs.foldl Powers.insert ps).AllVars P := by
    induction qs generalizing ps with
    | nil => exact hps
    | cons q qs ih =>
        obtain ⟨hq, hqs⟩ := List.forall_mem_cons.mp hqs
        exact ih _ (hps.insert hq) hqs
  refine hfold [] _ (List.forall_mem_nil _) fun p hp => ?_
  obtain ⟨e, he, rfl⟩ := List.mem_map.mp hp
  exact allVars_ofFactor (h e he)

/-- Dividing takes exponents from one list to the other. -/
theorem AllVars.divide (hnum : num.AllVars P) (hden : den.AllVars P) :
    (divide num den).1.AllVars P ∧ (divide num den).2.AllVars P := by
  induction den generalizing num with
  | nil => exact ⟨hnum, hden⟩
  | cons p den ih =>
      obtain ⟨hp, hden⟩ := List.forall_mem_cons.mp hden
      rw [Powers.divide]
      split
      · next num' hraise => exact ih (AllVars.raise hraise hnum hp.2) hden
      · obtain ⟨hrest, hleft⟩ := ih hnum hden
        exact ⟨hrest, List.forall_mem_cons.mpr ⟨hp, hleft⟩⟩

theorem AllVars.toFactors (h : powers.AllVars P) : ∀ e ∈ toFactors powers, e.AllVars P := by
  intro e he
  obtain ⟨p, hp, rfl⟩ := List.mem_map.mp he
  exact allVars_toFactor (h p hp).1 (h p hp).2

theorem allVars_mergedFraction {a : Fraction K} (h : a.AllVars P) :
    (mergedFraction a).AllVars P := by
  obtain ⟨hnum, hden⟩ := AllVars.divide (AllVars.ofFactors h.num) (AllVars.ofFactors h.den)
  exact ⟨fun e he => hnum.toFactors e (List.mem_of_mem_filter he), hden.toFactors⟩

end Powers

/-! ## The rules -/

namespace Rule

/-- The rule brings in no variables. -/
def KeepsVars (r : Rule K) : Prop :=
  ∀ P : String → Prop, r.Respects (SymbolicCalculus.KeepsVars P)

omit [Scalar K] in
/-- The first rule that applies is one of the rules. -/
theorem KeepsVars.firstOf {step : Step} {rules : List (Rule K)}
    (h : ∀ r ∈ rules, r.KeepsVars) : (firstOf step rules).KeepsVars :=
  fun P => Respects.firstOf fun r hr => h r hr P

omit [Scalar K] in
theorem keepsVars_flatten : (flatten (K := K)).KeepsVars := by
  intro P e e' h he
  rw [eq_normalize_of_flatten h, allVars_normalize]
  exact he

/-- The rules for neutral elements regroup the entries of a list, or take the dividend by itself. -/
theorem keepsVars_identity : (identity (K := K)).KeepsVars := by
  refine KeepsVars.firstOf fun r hr P e e' h he => ?_
  simp only [List.mem_cons, List.not_mem_nil, or_false] at hr
  rcases hr with rfl | rfl | rfl
  · cases e with
    | sum as => exact eq_of_ifChanged h ▸ AllVars.gatherSum (allVars_sum.mp he)
    | _ => cases h
  · cases e with
    | product es => exact eq_of_ifChanged h ▸ AllVars.gatherProduct (allVars_product.mp he)
    | _ => cases h
  · cases e with
    | quotient a b =>
        exact eq_of_guarded h ▸ (allVars_quotient.mp he).1
    | _ => cases h

/-- What is absorbed by zero leaves no variable at all. -/
theorem keepsVars_absorb : (absorb (K := K)).KeepsVars := by
  refine KeepsVars.firstOf fun r hr P e e' h he => ?_
  simp only [List.mem_cons, List.not_mem_nil, or_false] at hr
  rcases hr with rfl | rfl
  · cases e with
    | product es => exact eq_of_guarded h ▸ allVars_number
    | _ => cases h
  · cases e with
    | quotient a b => exact eq_of_guarded h ▸ allVars_number
    | _ => cases h

/-- A rule for powers puts a number, the base, or a power of the same parts in the place of a power.
-/
theorem keepsVars_power : (power (K := K)).KeepsVars := by
  refine KeepsVars.firstOf fun r hr P e e' h he => ?_
  simp only [List.mem_cons, List.not_mem_nil, or_false] at hr
  cases e with
  | power b u =>
    obtain ⟨hb, hu⟩ := allVars_power.mp he
    rcases hr with rfl | rfl | rfl | rfl | rfl
    · exact eq_of_guarded h ▸ allVars_number
    · exact eq_of_guarded h ▸ hb
    · exact eq_of_guarded h ▸ allVars_number
    · exact eq_of_guarded h ▸ allVars_number
    · simp only [expOfLn] at h
      split at h
      · next heq =>
        cases heq
        exact AllVars.powerOfLn h hu
      · cases h
  -- the rules apply to powers only
  | _ => rcases hr with rfl | rfl | rfl | rfl | rfl <;> cases h

theorem keepsVars_cancelFactors : (cancelFactors (K := K)).KeepsVars := by
  intro P e e' h he
  obtain ⟨fraction, hfraction, hchanged⟩ := Option.bind_eq_some_iff.mp h
  exact eq_of_ifChanged hchanged ▸ (Fraction.AllVars.ofExpr? hfraction he).cancel.gather.toExpr

omit [Scalar K] in
/-- A product without quotients is taken with its factors as they are. -/
theorem allVars_of_fractionToMerge? {e : Expr K} {fraction : Fraction K}
    (h : fractionToMerge? e = some fraction) (he : e.AllVars P) : fraction.AllVars P := by
  unfold fractionToMerge? at h
  split at h
  · split at h
    · exact Fraction.AllVars.ofExpr? h he
    · exact Option.some.inj h ▸ ⟨allVars_product.mp he, List.forall_mem_nil _⟩
  · exact Fraction.AllVars.ofExpr? h he

theorem keepsVars_mergePowers : (mergePowers (K := K)).KeepsVars := by
  intro P e e' h he
  obtain ⟨fraction, hfraction, hchanged⟩ := Option.bind_eq_some_iff.mp h
  have hmerged := Powers.allVars_mergedFraction (allVars_of_fractionToMerge? hfraction he)
  exact eq_of_ifChanged hchanged ▸ hmerged.toExpr

/-- Folding puts a number in the place of anything. -/
theorem keepsVars_fold : (fold (K := K)).KeepsVars := by
  intro P e e' h _
  obtain ⟨value, -, rfl⟩ := Option.map_eq_some_iff.mp h
  exact allVars_number

/-- No stage of a pass brings in a variable. -/
theorem keepsVars_of_mem_stages {r : Rule K} (hr : r ∈ (stages : List (Rule K))) :
    r.KeepsVars := by
  simp only [stages, List.mem_cons, List.not_mem_nil, or_false] at hr
  rcases hr with rfl | rfl | rfl | rfl | rfl | rfl | rfl
  · exact keepsVars_flatten
  · exact keepsVars_identity
  · exact keepsVars_absorb
  · exact keepsVars_power
  · exact keepsVars_cancelFactors
  · exact keepsVars_mergePowers
  · exact keepsVars_fold

end Rule

/-- What holds of every variable of a tree holds of every variable of its simplification, however
that ended. -/
theorem Expr.AllVars.simplify {e : Expr K} (he : e.AllVars P) (limits : SimplifyLimits) :
    (simplify limits e).AllVars P :=
  rel_simplify KeepsVars.isRewriting (fun _ hr => Rule.keepsVars_of_mem_stages hr P) limits e he

end SymbolicCalculus
