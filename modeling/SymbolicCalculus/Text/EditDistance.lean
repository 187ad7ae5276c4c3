/-!
# Edit distance

How many characters have to be inserted, deleted or replaced to turn one text into another.
`distance` is computed a row at a time: the row of a prefix `as` of the first text lists the
distance from `as` to every prefix of the second text, and `nextRow` derives the row of `as ++ [a]`
from it.
-/

namespace SymbolicCalculus.Text

/-- The rest of the row after an entry `left`. Each entry is the least of: the entry above it with
the new character deleted, the entry to its left with a character inserted, and the entry
diagonally above with one character kept or replaced. -/
def rowFrom (a : Char) (left : Nat) : List Char → List Nat → List Nat
  | b :: bs, diagonal :: above :: row =>
    let entry := min (min (above + 1) (left + 1)) (diagonal + if a == b then 0 else 1)
    entry :: rowFrom a entry bs (above :: row)
  | _, _ => []

/-- The row of a text with the character `a` added at its end. -/
def nextRow (bs : List Char) (row : List Nat) (a : Char) : List Nat :=
  match row with
  | [] => []
  | first :: _ => (first + 1) :: rowFrom a (first + 1) bs row

/-- The least number of insertions, deletions and replacements of one character that turn the
first text into the second. -/
def distance (as bs : List Char) : Nat :=
  (as.foldl (nextRow bs) (List.range (bs.length + 1))).getLastD 0

theorem distance_nil (bs : List Char) : distance [] bs = bs.length := by
  simp [distance, List.getLastD_eq_getLast?, List.getLast?_range]

end SymbolicCalculus.Text
