import Mathlib
import SymbolicCalculus.Proofs.Expr.WellFormed
import SymbolicCalculus.Proofs.Grammar.Tracing
import SymbolicCalculus.Proofs.Scalar.Plain

/-!
# What is read is well formed

An operand is made of numerals and names by groups, calls, signs and operators. By induction on how
it was read from the source, its normal form is well formed.
-/

namespace SymbolicCalculus

variable {K : Type} [Scalar K]

/-- A name is that of a constant or, failing that, of a variable. -/
theorem Fragment.wellFormed_of_nameExpr? {name : String} {e : Expr K}
    (h : nameExpr? name = some e) : e.normalize.WellFormed := by
  unfold nameExpr? at h
  split at h
  · cases h
    exact .constant _
  · next hconstant =>
    split at h
    · next hname =>
      cases h
      exact .var hname hconstant
    · cases h

variable [Literal K]

/-- If numerals are read as plain numbers, operands have well-formed normal forms. -/
theorem Operand.ReadFrom.wellFormed
    (hplain : ∀ digits places, Scalar.IsPlain (Literal.ofDecimal digits places : K))
    {x : Operand K} {gs : List Glyph} (h : x.ReadFrom gs) : x.expr.normalize.WellFormed := by
  -- on how the operand was read
  induction h with
  | number _ _ => exact .number (hplain _ _)
  | name _ he => exact Fragment.wellFormed_of_nameExpr? he
  | group _ _ _ ih => exact ih
  | call _ _ _ ih => exact .call ih
  | negated _ _ ih => exact .negated ih
  | apply _ _ _ ihx ihy =>
      rw [Operand.normalize_apply]
      exact .node _ ihx ihy

/-- If numerals are read as plain numbers, what is parsed is well formed. -/
theorem wellFormed_of_parse
    (hplain : ∀ digits places, Scalar.IsPlain (Literal.ofDecimal digits places : K))
    {limits : ParseLimits} {source : String} {e : Expr K} (h : parse limits source = .ok e) :
    e.WellFormed := by
  obtain ⟨x, hx, he⟩ := bind_eq_ok_iff.mp h
  cases he
  rcases traced_parseOperand (K := K) limits source with ⟨-, hempty⟩ | htraced
  · cases hx.symm.trans hempty
  · exact (htraced.post_of_ok hx).wellFormed hplain

/-- **What is parsed is well formed.** Whatever the source and the limits are, the expression has no
sum directly inside a sum and no product directly inside a product, its sums and products have at
least two entries, and no sum begins with a subtracted addend. Its numbers are not negative, not
minus zero and not undefined, but for minus one as a factor, and its variables have names that are
not those of constants. -/
theorem parse_wellFormed {limits : ParseLimits} {source : String} {e : Expr Float}
    (h : parse limits source = .ok e) : e.WellFormed :=
  wellFormed_of_parse Binary64.isPlain_ofDecimal h

/-- The sum that is subtracted in `-a - (b - 2(3c))` enters the outer sum with its signs flipped. -/
theorem parse_wellFormed_difference :
    let two : Expr Float := .number (Literal.ofDecimal 2 0)
    let three : Expr Float := .number (Literal.ofDecimal 3 0)
    let e : Expr Float := .sum [.plus (.product [.number Scalar.minusOne, .var "a"]),
      .minus (.var "b"), .plus (.product [two, three, .var "c"])]
    parse {} "-a - (b - 2(3c))" = .ok e ∧ e.WellFormed := by
  intro two three e
  -- the source is read alike with any numbers, so the doubles need not be computed here
  have hsource (L : Type) [Scalar L] [Literal L] : parse (K := L) {} "-a - (b - 2(3c))" =
      .ok (.sum [.plus (.product [.number Scalar.minusOne, .var "a"]), .minus (.var "b"),
        .plus (.product [.number (Literal.ofDecimal 2 0), .number (Literal.ofDecimal 3 0),
          .var "c"])]) := by
    cbv
  exact ⟨hsource Float, parse_wellFormed (hsource Float)⟩

end SymbolicCalculus
