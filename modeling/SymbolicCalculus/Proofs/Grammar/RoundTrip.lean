import SymbolicCalculus.Proofs.Reals.Exact
import SymbolicCalculus.Proofs.Grammar.Printing
import SymbolicCalculus.Proofs.Grammar.Signless
import SymbolicCalculus.Proofs.Scalar.Numerals

/-!
# Printing and reading

The text of an expression is read as the normal form of the expression as it is written, which has
the exact value of the expression. What a source without signs is read as is printed as a text that
is read as the same expression.

That the notation of a double is a numeral that is read as the double is not shown but assumed, of
the numbers of the expression and with their signs taken off.
-/

namespace SymbolicCalculus

variable {K : Type}

namespace Expr

variable [Scalar K] [Literal K]

/-- The numbers of the expression are finite and not minus zero, and its variables have names that
are not those of constants. -/
structure Legible (e : Expr K) : Prop where
  numbers : ∀ v, number v ∈ e.postOrder → Scalar.isFinite v = true ∧ ¬Scalar.IsNegativeZero v
  names : ∀ name, var name ∈ e.postOrder →
    isVariableName name = true ∧ Constant.ofName? name = none

/-- The magnitudes of the numbers of the expression have numerals for notations, which are read as
the magnitudes, if the numbers are finite and not minus zero. -/
def ReadsBack (e : Expr K) : Prop :=
  ∀ v, number v ∈ e.postOrder → Scalar.isFinite v = true → ¬Scalar.IsNegativeZero v →
    Literal.ReadsBack (Scalar.magnitude v)

theorem Legible.printable {e : Expr K} (h : e.Legible) (hread : e.ReadsBack) : e.Printable where
  numbers v hv := hread v hv (h.numbers v hv).1 (h.numbers v hv).2
  names := h.names

/-- The text of an expression is read as the normal form of the expression as it is written. -/
theorem Printable.parse [Literal.Laws K] {e : Expr K} (h : e.Printable) {limits : ParseLimits}
    (hnesting : e.depth ≤ limits.nesting) (hdepth : 5 * e.nodeCount ≤ limits.depth) :
    parse limits e.toText = .ok e.written.normalize :=
  ((item_toText e h hdepth).phrase 4).parse hnesting hdepth

/-- An expression without signs is legible if its numbers are finite. -/
theorem Unsigned.legible [Literal.Laws K] {e : Expr K} (h : e.Unsigned)
    (hfinite : ∀ v, .number v ∈ e.postOrder → Scalar.isFinite v = true) : e.Legible where
  numbers v hv := by
    refine ⟨hfinite v hv, ?_⟩
    cases h.node _ hv
    exact Literal.Laws.not_isNegativeZero_ofDecimal _ _
  names name hname := by
    cases h.node _ hname
    exact ⟨‹_›, ‹_›⟩

end Expr

open Binary64

/-- **What is printed is read back.** With limits that are large enough, the text of an expression
is read as the normal form of the expression as it is written, which is defined where the expression
is and has the same exact value. If the expression was read from a source without signs, it is read
again. -/
theorem parse_toText :
    (∀ e : Expr Float, e.Legible → e.ReadsBack → ∀ limits : ParseLimits,
      e.depth ≤ limits.nesting → 5 * e.nodeCount ≤ limits.depth →
      ∃ r, parse limits e.toText = .ok r ∧ r = e.written.normalize ∧
        ∀ σ, (exact.Defined σ r ↔ exact.Defined σ e) ∧ exact.value σ r = exact.value σ e) ∧
    (∀ (limits₀ : ParseLimits) (source : String) (e : Expr Float),
      signlessText false source.toList = true → parse limits₀ source = .ok e →
      (∀ v, .number v ∈ e.postOrder → Scalar.isFinite v = true) → e.ReadsBack →
      ∀ limits : ParseLimits, e.depth ≤ limits.nesting → 5 * e.nodeCount ≤ limits.depth →
      parse limits e.toText = .ok e) := by
  refine ⟨fun e he hread limits hnesting hdepth => ?_, ?_⟩
  · refine ⟨_, (he.printable hread).parse hnesting hdepth, rfl, fun σ => ⟨?_, ?_⟩⟩
    -- neither the normal form nor the written form changes what the expression stands for
    · rw [ExactValues.defined_normalize, ExactValues.defined_written]
    · rw [ExactValues.value_normalize, ExactValues.value_written]
  · intro limits₀ source e hsigns hparse hfinite hread limits hnesting hdepth
    -- without signs the expression is as it is written, and it is its own normal form
    obtain ⟨hunsigned, hnormal⟩ := unsigned_of_parse hsigns hparse
    have hprintable := (hunsigned.legible hfinite).printable hread
    rw [hprintable.parse hnesting hdepth, hunsigned.written_eq, hnormal]

/-- The text of `-(-2.5) + x - 0`, in which the second addend is a product of one factor and the
third an empty sum, and the source `2x - sin(x)^1.5` are read back. -/
theorem parse_toText_difference :
    let e : Expr Float :=
      .sum [.minus (.number (-2.5)), .plus (.product [.var "x"]), .minus (.sum [])]
    let f : Expr Float := .sum [.plus (.product [.number 2, .var "x"]),
      .minus (.power (.call .sin (.var "x")) (.number 1.5))]
    (e.Legible ∧ e.ReadsBack ∧ ∃ r, parse {} e.toText = .ok r ∧ r = e.written.normalize ∧
      ∀ σ, (exact.Defined σ r ↔ exact.Defined σ e) ∧ exact.value σ r = exact.value σ e) ∧
    (signlessText false "2x - sin(x)^1.5".toList = true ∧
      parse {} "2x - sin(x)^1.5" = .ok f ∧ f.ReadsBack ∧ parse {} f.toText = .ok f) := by
  intro e f
  have hnumber {v : Float} (hv : .number v ∈ e.postOrder) : v = -2.5 := by
    simpa [e, Expr.postOrder, Expr.postOrderAddends, Expr.postOrderFactors, Addend.plus,
      Addend.minus] using hv
  have hnumbers {v : Float} (hv : .number v ∈ f.postOrder) : v = 2 ∨ v = 1.5 := by
    simpa [f, Expr.postOrder, Expr.postOrderAddends, Expr.postOrderFactors, Addend.plus,
      Addend.minus] using hv
  have he : e.Legible := by
    refine ⟨fun v hv => ?_, fun name hname => ?_⟩
    · rw [hnumber hv]
      decide +kernel
    · have hx : name = "x" := by
        simpa [e, Expr.postOrder, Expr.postOrderAddends, Expr.postOrderFactors, Addend.plus,
          Addend.minus] using hname
      rw [hx]
      decide
  have hread : e.ReadsBack := by
    intro v hv _ _
    rw [hnumber hv]
    exact ⟨25, 1, by decide +kernel, by decide +kernel⟩
  have hfinite (v : Float) (hv : .number v ∈ f.postOrder) : Scalar.isFinite v = true := by
    rcases hnumbers hv with rfl | rfl <;> decide +kernel
  have hread' : f.ReadsBack := by
    intro v hv _ _
    rcases hnumbers hv with rfl | rfl
    · exact ⟨2, 0, by decide +kernel, by decide +kernel⟩
    · exact ⟨15, 1, by decide +kernel, by decide +kernel⟩
  -- the source is read alike with any numbers, so the doubles need not be computed here
  have hsource (L : Type) [Scalar L] [Literal L] : parse (K := L) {} "2x - sin(x)^1.5" =
      .ok (.sum [.plus (.product [.number (Literal.ofDecimal 2 0), .var "x"]),
        .minus (.power (.call .sin (.var "x")) (.number (Literal.ofDecimal 15 1)))]) := by
    cbv
  have hparse : parse {} "2x - sin(x)^1.5" = .ok f := by
    have htwo : (Literal.ofDecimal 2 0 : Float) = 2 := by decide +kernel
    have hhalves : (Literal.ofDecimal 15 1 : Float) = 1.5 := by decide +kernel
    rw [hsource, htwo, hhalves]
  have hsigns : signlessText false "2x - sin(x)^1.5".toList = true := by decide +kernel
  exact ⟨⟨he, hread, parse_toText.1 e he hread {} (by decide) (by decide)⟩, hsigns, hparse,
    hread', parse_toText.2 {} _ f hsigns hparse hfinite hread' {} (by decide) (by decide)⟩

end SymbolicCalculus
