import Mathlib.Data.List.Induction
import Mathlib.Data.List.Infix
import SymbolicCalculus.Text.EditDistance

/-!
# The rows hold edit distances

`editDistance` is the edit distance by recursion from the front of both texts, and `Edits n as bs`
says that `n` insertions, deletions and replacements of one character lead from `as` to `bs`. The
distance is the least such number (`edits_editDistance`, `Edits.editDistance_le`). Edits can be read
from behind, so the recursion may as well take the last characters off (`editDistance_concat`),
which is what a row does to the row before it (`distance_eq_editDistance`).

Texts are less than two edits apart if and only if they are equal or one edit apart.
-/

namespace SymbolicCalculus.Text

/-! ## Edits -/

/-- The edit distance by recursion: the first character of the first text is deleted, that of the
second one is inserted, or the one is kept or replaced by the other. -/
def editDistance : List Char → List Char → Nat
  | [], bs => bs.length
  | a :: as, [] => (a :: as).length
  | a :: as, b :: bs =>
    min (min (editDistance as (b :: bs) + 1) (editDistance (a :: as) bs + 1))
      (editDistance as bs + if a = b then 0 else 1)
termination_by as bs => as.length + bs.length

/-- So many insertions, deletions and replacements of one character turn the first text into the
second. -/
inductive Edits : Nat → List Char → List Char → Prop
  | nil : Edits 0 [] []
  | keep {n as bs} (c : Char) : Edits n as bs → Edits n (c :: as) (c :: bs)
  | replace {n as bs} {a b : Char} : a ≠ b → Edits n as bs → Edits (n + 1) (a :: as) (b :: bs)
  | delete {n as bs} (a : Char) : Edits n as bs → Edits (n + 1) (a :: as) bs
  | insert {n as bs} (b : Char) : Edits n as bs → Edits (n + 1) as (b :: bs)

variable {n m : Nat} {as bs as' bs' : List Char}

namespace Edits

theorem refl (cs : List Char) : Edits 0 cs cs := by
  induction cs with
  | nil => exact .nil
  | cons c cs ih => exact .keep c ih

/-- Edits of two parts of a text are edits of the whole. -/
theorem append (h : Edits n as bs) (h' : Edits m as' bs') :
    Edits (n + m) (as ++ as') (bs ++ bs') := by
  induction h with
  | nil => simpa using h'
  | keep c _ ih => exact .keep c ih
  | replace hne _ ih =>
      rw [Nat.add_right_comm]
      exact .replace hne ih
  | delete a _ ih =>
      rw [Nat.add_right_comm]
      exact .delete a ih
  | insert b _ ih =>
      rw [Nat.add_right_comm]
      exact .insert b ih

/-- Of two numbers of edits between texts, the smaller one is such a number too. -/
theorem min (h : Edits n as bs) (h' : Edits m as bs) : Edits (min n m) as bs := by
  rw [Nat.min_def]
  split
  · exact h
  · exact h'

/-- Edits may be read from behind. -/
theorem reverse (h : Edits n as bs) : Edits n as.reverse bs.reverse := by
  induction h with
  | nil => exact .nil
  | keep c _ ih =>
      rw [List.reverse_cons, List.reverse_cons]
      exact ih.append (.keep c .nil)
  | replace hne _ ih =>
      rw [List.reverse_cons, List.reverse_cons]
      exact ih.append (.replace hne .nil)
  | delete a _ ih =>
      rw [List.reverse_cons]
      simpa using ih.append (.delete a .nil)
  | insert b _ ih =>
      rw [List.reverse_cons]
      simpa using ih.append (.insert b .nil)

end Edits

/-! ## The distance is the least number of edits -/

/-- One character more in the first text adds one to the distance at most. -/
theorem editDistance_delete_le (a : Char) (as bs : List Char) :
    editDistance (a :: as) bs ≤ editDistance as bs + 1 := by
  cases bs with
  | nil => cases as <;> simp [editDistance]
  | cons b bs =>
      rw [editDistance]
      omega

/-- One character more in the second text adds one to the distance at most. -/
theorem editDistance_insert_le (b : Char) (as bs : List Char) :
    editDistance as (b :: bs) ≤ editDistance as bs + 1 := by
  cases as with
  | nil => simp [editDistance]
  | cons a as =>
      rw [editDistance]
      omega

/-- No fewer edits than their distance lead from one text to another. -/
theorem Edits.editDistance_le (h : Edits n as bs) : editDistance as bs ≤ n := by
  -- induction on the edits: each of them is one of the three ways in which the distance is a
  -- minimum
  induction h with
  | nil => simp [editDistance]
  | keep c _ ih =>
      rw [editDistance, if_pos rfl]
      omega
  | replace hne _ ih =>
      rw [editDistance, if_neg hne]
      omega
  | @delete n as bs a _ ih =>
      have := editDistance_delete_le a as bs
      omega
  | @insert n as bs b _ ih =>
      have := editDistance_insert_le b as bs
      omega

/-- As many edits as their distance lead from one text to another. -/
theorem edits_editDistance (as bs : List Char) : Edits (editDistance as bs) as bs := by
  fun_induction editDistance as bs with
  | case1 bs =>
      induction bs with
      | nil => exact .nil
      | cons b bs ih => exact .insert b ih
  | case2 a as =>
      have hdelete (cs : List Char) : Edits cs.length cs [] := by
        induction cs with
        | nil => exact .nil
        | cons c cs ih => exact .delete c ih
      exact hdelete (a :: as)
  | case3 a as b bs hdelete hinsert hkeep =>
      -- keeping a character is free, and replacing it costs one edit
      have hdiagonal : Edits (editDistance as bs + if a = b then 0 else 1) (a :: as) (b :: bs) := by
        split
        · next heq =>
          subst heq
          exact .keep a hkeep
        · next hne => exact .replace hne hkeep
      exact ((Edits.delete a hdelete).min (.insert b hinsert)).min hdiagonal

/-- The distance is the same when both texts are read from behind. -/
theorem editDistance_reverse (as bs : List Char) :
    editDistance as.reverse bs.reverse = editDistance as bs := by
  refine Nat.le_antisymm (edits_editDistance as bs).reverse.editDistance_le ?_
  have h := (edits_editDistance as.reverse bs.reverse).reverse
  rw [List.reverse_reverse, List.reverse_reverse] at h
  exact h.editDistance_le

/-- The recursion may take the last characters off instead of the first. -/
theorem editDistance_concat (as bs : List Char) (a b : Char) :
    editDistance (as ++ [a]) (bs ++ [b]) =
      min (min (editDistance as (bs ++ [b]) + 1) (editDistance (as ++ [a]) bs + 1))
        (editDistance as bs + if a = b then 0 else 1) := by
  rw [← editDistance_reverse (as ++ [a]) (bs ++ [b]), ← editDistance_reverse as (bs ++ [b]),
    ← editDistance_reverse (as ++ [a]) bs, ← editDistance_reverse as bs]
  simp only [List.reverse_append, List.reverse_singleton, List.singleton_append]
  rw [editDistance]

/-! ## Rows -/

theorem exists_inits_eq_cons (cs : List Char) : ∃ rest, cs.inits = [] :: rest := by
  cases cs <;> exact ⟨_, rfl⟩

/-- The rest of a row after the entry of the prefix `front`. -/
theorem rowFrom_eq (as front : List Char) (a : Char) (bs : List Char) :
    rowFrom a (editDistance (as ++ [a]) front) bs
        (bs.inits.map fun cs => editDistance as (front ++ cs)) =
      bs.inits.tail.map fun cs => editDistance (as ++ [a]) (front ++ cs) := by
  -- induction along the row, with the characters passed so far in `front`
  induction bs generalizing front with
  | nil => rfl
  | cons b bs ih =>
      have hentry := editDistance_concat as front a b
      have hrest := ih (front ++ [b])
      obtain ⟨rest, hinits⟩ := exists_inits_eq_cons bs
      simp only [List.inits_cons, hinits, List.map_cons, List.map_map, List.tail_cons, rowFrom,
        List.append_nil, List.append_assoc, List.singleton_append, beq_iff_eq, Function.comp_def]
        at hrest hentry ⊢
      rw [← hentry, hrest]

/-- A character more turns the row of a text into the row of the longer text. -/
theorem nextRow_eq (as bs : List Char) (a : Char) :
    nextRow bs (bs.inits.map (editDistance as)) a = bs.inits.map (editDistance (as ++ [a])) := by
  have hrest := rowFrom_eq as [] a bs
  obtain ⟨rest, hinits⟩ := exists_inits_eq_cons bs
  have hnil (cs : List Char) : editDistance cs [] = cs.length := by
    cases cs <;> simp [editDistance]
  simp only [hinits, List.map_cons, List.nil_append, List.tail_cons, hnil, List.length_append,
    List.length_singleton, nextRow] at hrest ⊢
  rw [hrest]

/-- The row of a text lists its distances to the prefixes of the other text. -/
theorem row_eq (as bs : List Char) :
    as.foldl (nextRow bs) (List.range (bs.length + 1)) = bs.inits.map (editDistance as) := by
  -- induction on the first text from behind, since each of its characters makes a new row at the
  -- end
  induction as using List.reverseRecOn with
  | nil =>
      have hlength : editDistance [] = List.length := by
        funext cs
        rw [editDistance]
      rw [List.foldl_nil, hlength]
      refine List.ext_getElem (by simp) fun i hi hi' => ?_
      rw [List.length_range] at hi
      simp only [List.getElem_range, List.getElem_map, List.getElem_inits, List.length_take]
      omega
  | append_singleton as a ih =>
      rw [List.foldl_append, ih]
      exact nextRow_eq as bs a

/-- **The rows compute the edit distance.** -/
theorem distance_eq_editDistance (as bs : List Char) : distance as bs = editDistance as bs := by
  have hlast : bs.inits.getLast? = some bs := by
    simp [List.getLast?_eq_getElem?]
  rw [distance, row_eq, List.getLastD_eq_getLast?, List.getLast?_map, hlast]
  rfl

/-! ## One edit -/

/-- The second text is the first one with one character inserted, deleted, or replaced by
another. -/
inductive OneEdit : List Char → List Char → Prop
  | insert (front back : List Char) (c : Char) : OneEdit (front ++ back) (front ++ c :: back)
  | delete (front back : List Char) (c : Char) : OneEdit (front ++ c :: back) (front ++ back)
  | replace (front back : List Char) {c d : Char} : c ≠ d →
      OneEdit (front ++ c :: back) (front ++ d :: back)

theorem OneEdit.ne (h : OneEdit as bs) : as ≠ bs := by
  cases h with
  | insert | delete => simp
  | replace front back hne => simpa using hne

/-- No edit leads only from a text to itself. -/
theorem edits_zero_iff : Edits 0 as bs ↔ as = bs := by
  refine ⟨fun h => ?_, fun h => h ▸ .refl as⟩
  generalize hn : 0 = n at h
  induction h with
  | nil => rfl
  | keep c _ ih => rw [ih hn]
  | replace | delete | insert => cases hn

/-- A single edit has the texts before and after it in common. -/
theorem edits_one_iff : Edits 1 as bs ↔ OneEdit as bs := by
  constructor
  · intro h
    generalize hn : 1 = n at h
    induction h with
    | nil => cases hn
    -- characters that are kept lie before the edit, and none is edited after it
    | keep c _ ih =>
        cases ih hn with
        | insert front back d => exact .insert (c :: front) back d
        | delete front back d => exact .delete (c :: front) back d
        | replace front back hne => exact .replace (c :: front) back hne
    | replace hne h =>
        cases hn
        rw [edits_zero_iff.mp h]
        exact .replace [] _ hne
    | delete a h =>
        cases hn
        rw [edits_zero_iff.mp h]
        exact .delete [] _ a
    | insert b h =>
        cases hn
        rw [edits_zero_iff.mp h]
        exact .insert [] _ b
  · intro h
    cases h with
    | insert front back c => exact (Edits.refl front).append (.insert c (.refl back))
    | delete front back c => exact (Edits.refl front).append (.delete c (.refl back))
    | replace front back hne => exact (Edits.refl front).append (.replace hne (.refl back))

/-- Only equal texts have distance zero. -/
theorem editDistance_eq_zero_iff : editDistance as bs = 0 ↔ as = bs := by
  refine ⟨fun h => edits_zero_iff.mp (h ▸ edits_editDistance as bs), fun h => ?_⟩
  have := (edits_zero_iff.mpr h).editDistance_le
  omega

/-- Texts are one edit apart if and only if one edit leads from the one to the other. -/
theorem editDistance_eq_one_iff : editDistance as bs = 1 ↔ OneEdit as bs := by
  refine ⟨fun h => edits_one_iff.mp (h ▸ edits_editDistance as bs), fun h => ?_⟩
  have hle := (edits_one_iff.mpr h).editDistance_le
  have hne : editDistance as bs ≠ 0 := by
    rw [Ne, editDistance_eq_zero_iff]
    exact h.ne
  omega

end SymbolicCalculus.Text
