import SymbolicCalculus.Proofs.Reals.Fractions

/-!
# Simplification is sound

Every stage of a pass keeps real values and definedness, and both pass through every kind of node.
So a simplification has, wherever the expression it was made of is defined, the same value as that
expression, no matter whether it ended at a fixed point or by a limit.
-/

namespace SymbolicCalculus

open SymbolicCalculus.Expr

variable {σ : String → ℝ}

/-! ## Preservation passes through nodes -/

namespace Preserves

/-- If each addend may take the place of another, so may the list. It counts that signs are kept. -/
theorem addends {as bs : List (Addend (Expr ℝ))}
    (h : List.Forall₂ (AddendRel (Preserves σ)) as bs) (has : AddendsDefined σ as) :
    AddendsDefined σ bs ∧ addendsValue σ bs = addendsValue σ as := by
  induction h with
  | nil => exact ⟨trivial, rfl⟩
  | @cons a b as bs hab _ ih =>
      obtain ⟨hd, hv⟩ := hab.1 has.1
      obtain ⟨hds, hvs⟩ := ih has.2
      refine ⟨⟨hd, hds⟩, ?_⟩
      rw [addendsValue, addendsValue, hv, hvs, hab.2]

/-- If each factor may take the place of another, so may the list. -/
theorem factors {es fs : List (Expr ℝ)} (h : List.Forall₂ (Preserves σ) es fs)
    (hes : FactorsDefined σ es) :
    FactorsDefined σ fs ∧ factorsValue σ fs = factorsValue σ es := by
  induction h with
  | nil => exact ⟨trivial, rfl⟩
  | cons hef _ ih =>
      obtain ⟨hd, hv⟩ := hef hes.1
      obtain ⟨hds, hvs⟩ := ih hes.2
      exact ⟨⟨hd, hds⟩, by rw [factorsValue, factorsValue, hv, hvs]⟩

/-- Trees may be replaced anywhere inside a tree. The conditions of a quotient, a power or a call
are about values, which are kept. -/
theorem isRewriting : IsRewriting (Preserves σ) where
  refl := refl
  trans := trans
  sum := addends
  product := factors
  quotient := by
    rintro a b c d hac hbd ⟨ha, hb, hzero⟩
    obtain ⟨hc, hvc⟩ := hac ha
    obtain ⟨hd, hvd⟩ := hbd hb
    exact ⟨⟨hc, hd, hvd ▸ hzero⟩, by rw [value, value, hvc, hvd]⟩
  power := by
    rintro a b c d hac hbd ⟨ha, hb, hpow⟩
    obtain ⟨hc, hvc⟩ := hac ha
    obtain ⟨hd, hvd⟩ := hbd hb
    exact ⟨⟨hc, hd, by rw [hvc, hvd]; exact hpow⟩, by rw [value, value, hvc, hvd]⟩
  call := by
    rintro f a b hab ⟨ha, hdom⟩
    obtain ⟨hb, hvb⟩ := hab ha
    exact ⟨⟨hb, hvb ▸ hdom⟩, by rw [value, value, hvb]⟩

end Preserves

/-- All seven stages of a pass are sound. -/
theorem Rule.sound_of_mem_stages {r : Rule ℝ} (hr : r ∈ (stages : List (Rule ℝ))) : r.Sound := by
  simp only [stages, List.mem_cons, List.not_mem_nil, or_false] at hr
  rcases hr with rfl | rfl | rfl | rfl | rfl | rfl | rfl
  · exact sound_flatten
  · exact sound_identity
  · exact sound_absorb
  · exact sound_power
  · exact sound_cancelFactors
  · exact sound_mergePowers
  · exact sound_fold

/-- **Simplification is sound.** Where an expression is defined, its simplification under any limits
is defined, and the two evaluate to the same real number. -/
theorem simplify_sound (limits : SimplifyLimits) (e : Expr ℝ) (σ : String → ℝ)
    (h : e.Defined σ) :
    (simplify limits e).Defined σ ∧
      (simplify limits e).valueWith (fun name => .ok (σ name)) =
        e.valueWith (fun name => .ok (σ name)) := by
  have hstages : ∀ r ∈ (stages : List (Rule ℝ)), r.Respects (Preserves σ) :=
    fun r hr => Rule.sound_of_mem_stages hr σ
  obtain ⟨hd, hv⟩ := rel_simplify Preserves.isRewriting hstages limits e h
  exact ⟨hd, by rw [valueWith_eq_value, valueWith_eq_value, hv]⟩

/-- At `x = -2` the quotient `x * x ^ 3 / x`, whose powers are of a negative base, keeps its value
`-8`. -/
theorem simplify_sound_negative_base :
    let e : Expr ℝ := .quotient (.product [.var "x", .power (.var "x") (.number 3)]) (.var "x")
    e.Defined (fun _ => -2) ∧ (simplify {} e).Defined (fun _ => -2) ∧
      (simplify {} e).valueWith (fun _ => .ok (-2)) = .ok (-8) := by
  intro e
  have he : e.Defined (fun _ => -2) := by
    refine ⟨⟨trivial, ⟨trivial, trivial, ?_⟩, trivial⟩, trivial, by norm_num⟩
    exact Or.inr (Or.inr ⟨by norm_num, 3, by norm_num⟩)
  obtain ⟨hd, hv⟩ := simplify_sound {} e (fun _ => -2) he
  refine ⟨he, hd, hv.trans ?_⟩
  rw [valueWith_eq_value]
  norm_num [e]

end SymbolicCalculus
