/-!
# White space

The characters with the Unicode property `White_Space`: the blanks of ASCII, the no-break space,
the spaces of various widths and the line and paragraph separators.
-/

namespace SymbolicCalculus.Text

/-- The code points with the property `White_Space`, as ranges with both ends included. -/
def whiteSpaceRanges : List (Nat × Nat) :=
  [(0x0009, 0x000D), (0x0020, 0x0020), (0x0085, 0x0085), (0x00A0, 0x00A0), (0x1680, 0x1680),
    (0x2000, 0x200A), (0x2028, 0x2029), (0x202F, 0x202F), (0x205F, 0x205F), (0x3000, 0x3000)]

/-- The character has the property `White_Space`. -/
def isWhiteSpace (c : Char) : Bool :=
  whiteSpaceRanges.any fun (first, last) => first ≤ c.toNat && c.toNat ≤ last

/-- The table holds 25 characters. -/
theorem length_whiteSpaceRanges :
    whiteSpaceRanges.foldl (fun count (first, last) => count + (last + 1 - first)) 0 = 25 := rfl

/-- What core takes for white space is in the table. -/
theorem isWhiteSpace_of_isWhitespace {c : Char} (h : c.isWhitespace = true) :
    isWhiteSpace c = true := by
  simp only [Char.isWhitespace, Bool.or_eq_true, decide_eq_true_eq] at h
  rcases h with ((h | h) | h) | h <;> subst h <;> decide

end SymbolicCalculus.Text
