import SymbolicCalculus.Proofs.Expr.Alike
import SymbolicCalculus.Proofs.Expr.Mapping
import SymbolicCalculus.Proofs.Scalar.Codes

/-!
# Marks tell trees apart

The hash of a tree is taken of its marks. Structurally equal trees have the same marks, and no other
trees do. The marks need not even be kept apart: a hasher is fed with numbers (`Mark.words`), among
which nothing says whether a number is a kind, a length, a flag or a byte of a name. But no sequence
of numbers begins with the words of two trees that differ (`alike_of_words_append`), since the kind
of a node says what follows it, the length of a list how many entries follow, and a name goes on up
to a byte that no text contains.

So structural equality is an equivalence, as having the same marks is one. This is stated of trees
whose numbers keep the bits of undefined values (`Pattern`). Reading the bits as doubles changes
neither the marks of a tree nor what it is equal to (`beq_mapNumbers_toFloat`).
-/

namespace SymbolicCalculus

namespace Expr

/-! ## Words -/

/-- The numbers that a mark is written as. A function or constant is its place in the table, and a
name the bytes of its UTF-8 encoding, closed by the byte 255. -/
def Mark.words : Mark → List Nat
  | kind index => [index]
  | length n => [n]
  | code bits => [bits.toNat]
  | name text => (text.toList.flatMap String.utf8EncodeChar).map UInt8.toNat ++ [255]
  | constant c => [Constant.all.idxOf c]
  | fn f => [Fn.all.idxOf f]
  | sign subtract => [subtract.toNat]

variable {K : Type}

section Words

variable [Scalar K] [Encoding K]

/-- The numbers that a hasher is fed with for an expression. -/
def words (e : Expr K) : List Nat := e.marks.flatMap Mark.words

/-- The words of the entries of a sum. -/
def addendWords (as : List (Addend (Expr K))) : List Nat := (addendMarks as).flatMap Mark.words

/-- The words of the entries of a product. -/
def factorWords (es : List (Expr K)) : List Nat := (factorMarks es).flatMap Mark.words

theorem words_number (v : K) : (number v).words = [0, (Scalar.code v).toNat] := rfl

theorem words_constant (c : Constant) :
    (constant c : Expr K).words = [1, Constant.all.idxOf c] := rfl

theorem words_var (name : String) :
    (var name : Expr K).words = 2 :: (Mark.name name).words := by
  simp [words, marks, Mark.words]

theorem words_sum (as : List (Addend (Expr K))) :
    (sum as).words = 3 :: as.length :: addendWords as := rfl

theorem words_product (es : List (Expr K)) :
    (product es).words = 4 :: es.length :: factorWords es := rfl

theorem words_quotient (a b : Expr K) : (quotient a b).words = 5 :: (a.words ++ b.words) := by
  rw [words, marks, List.flatMap_cons, List.flatMap_append]
  rfl

theorem words_power (a b : Expr K) : (power a b).words = 6 :: (a.words ++ b.words) := by
  rw [words, marks, List.flatMap_cons, List.flatMap_append]
  rfl

theorem words_call (f : Fn) (a : Expr K) :
    (call f a).words = 7 :: Fn.all.idxOf f :: a.words := rfl

theorem addendWords_cons (a : Addend (Expr K)) (as : List (Addend (Expr K))) :
    addendWords (a :: as) = a.expr.words ++ a.subtract.toNat :: addendWords as := by
  rw [addendWords, addendMarks, List.flatMap_append, List.flatMap_cons]
  rfl

theorem factorWords_cons (e : Expr K) (es : List (Expr K)) :
    factorWords (e :: es) = e.words ++ factorWords es := by
  rw [factorWords, factorMarks, List.flatMap_append]
  rfl

end Words

/-! ## What a word is -/

theorem idxOf_constant_inj {c d : Constant} (h : Constant.all.idxOf c = Constant.all.idxOf d) :
    c = d :=
  (List.idxOf_inj (Constant.mem_all c)).mp h

theorem idxOf_fn_inj {f g : Fn} (h : Fn.all.idxOf f = Fn.all.idxOf g) : f = g :=
  (List.idxOf_inj (Fn.mem_all f)).mp h

/-- No byte of an encoded character has all its bits set. -/
theorem not_mem_utf8EncodeChar (c : Char) : 255 ∉ String.utf8EncodeChar c := by
  have hbyte : UInt8.toNat 255 = 255 := rfl
  intro h
  unfold String.utf8EncodeChar at h
  dsimp only at h
  -- a character takes one byte, two, three or four, and the leading bits of each byte are set
  -- accordingly
  split at h <;> [skip; split at h <;> [skip; split at h]]
  all_goals
    simp only [List.mem_cons, List.not_mem_nil, or_false, ← UInt8.toNat_inj, UInt8.toNat_ofNat',
      hbyte] at h
    omega

/-- Different texts have different bytes. -/
theorem flatMap_utf8EncodeChar_inj {s t : String}
    (h : s.toList.flatMap String.utf8EncodeChar = t.toList.flatMap String.utf8EncodeChar) :
    s = t := by
  apply String.toByteArray_inj.mp
  rw [← String.utf8Encode_toList, ← String.utf8Encode_toList, List.utf8Encode, List.utf8Encode, h]

/-- Where a list ends is seen by an entry that it does not contain. -/
theorem eq_of_append_cons {α : Type} {x : α} {as bs r s : List α} (ha : x ∉ as) (hb : x ∉ bs)
    (h : as ++ x :: r = bs ++ x :: s) : as = bs ∧ r = s := by
  -- induction on the first list: the closing entry is met in both lists at once or in neither of
  -- them
  induction as generalizing bs with
  | nil =>
      cases bs with
      | nil => exact ⟨rfl, List.tail_eq_of_cons_eq h⟩
      | cons b bs =>
          obtain rfl : x = b := List.head_eq_of_cons_eq h
          exact absurd List.mem_cons_self hb
  | cons a as ih =>
      cases bs with
      | nil =>
          obtain rfl : a = x := List.head_eq_of_cons_eq h
          exact absurd List.mem_cons_self ha
      | cons b bs =>
          obtain ⟨hhead, htail⟩ := List.cons.inj h
          obtain ⟨hrest, hend⟩ :=
            ih (mt (List.mem_cons_of_mem a) ha) (mt (List.mem_cons_of_mem b) hb) htail
          exact ⟨hhead ▸ hrest ▸ rfl, hend⟩

/-- No sequence of numbers begins with the words of two names. -/
theorem eq_of_name_words_append {s t : String} {q r : List Nat}
    (h : (Mark.name s).words ++ q = (Mark.name t).words ++ r) : s = t ∧ q = r := by
  -- the byte that closes a name is no byte of any name
  have hlast : ∀ text : String,
      255 ∉ (text.toList.flatMap String.utf8EncodeChar).map UInt8.toNat := by
    intro text hmem
    obtain ⟨b, hb, hb255⟩ := List.mem_map.mp hmem
    obtain ⟨c, -, hc⟩ := List.mem_flatMap.mp hb
    obtain rfl : b = 255 := UInt8.toNat_inj.mp hb255
    exact not_mem_utf8EncodeChar c hc
  rw [Mark.words, Mark.words, List.append_assoc, List.append_assoc] at h
  obtain ⟨hbytes, hrest⟩ := eq_of_append_cons (hlast s) (hlast t) h
  have hinj : Function.Injective UInt8.toNat := fun _ _ => UInt8.toNat_inj.mp
  exact ⟨flatMap_utf8EncodeChar_inj (List.map_injective_iff.mpr hinj hbytes), hrest⟩

/-! ## Trees and their words -/

variable [Scalar K] [Encoding K]

section Words

attribute [local simp] words_number words_constant words_var words_sum words_product words_quotient
  words_power words_call

mutual

/-- No sequence of numbers begins with the words of two trees that differ. -/
theorem alike_of_words_append [Encoding.Lawful K] {a b : Expr K} {r s : List Nat}
    (h : a.words ++ r = b.words ++ s) : Alike a b ∧ r = s := by
  -- the first number is the kind of both, and what follows is read in the order of that kind
  match a with
  | number v =>
    cases b with
    | number w =>
        simp only [words_number, List.cons_append, List.nil_append, List.cons.injEq] at h
        obtain ⟨-, hcode, hrest⟩ := h
        have hsame := Scalar.code_eq_code_iff.mp (UInt64.toNat_inj.mp hcode)
        exact ⟨alike_number_iff.mpr ⟨w, rfl, hsame⟩, hrest⟩
    | _ => simp at h
  | constant c =>
    cases b with
    | constant d =>
        simp only [words_constant, List.cons_append, List.nil_append, List.cons.injEq] at h
        obtain ⟨-, hplace, hrest⟩ := h
        exact ⟨alike_constant_iff.mpr (congrArg _ (idxOf_constant_inj hplace.symm)), hrest⟩
    | _ => simp at h
  | var name =>
    cases b with
    | var name' =>
        simp only [words_var, List.cons_append, List.cons.injEq] at h
        obtain ⟨hname, hrest⟩ := eq_of_name_words_append h.2
        exact ⟨alike_var_iff.mpr (congrArg _ hname.symm), hrest⟩
    | _ => simp at h
  | sum as =>
    cases b with
    | sum bs =>
        simp only [words_sum, List.cons_append, List.cons.injEq] at h
        obtain ⟨-, hlength, h⟩ := h
        obtain ⟨hsame, hrest⟩ := alike_of_addendWords_append hlength h
        exact ⟨alike_sum_iff.mpr ⟨bs, rfl, hsame⟩, hrest⟩
    | _ => simp at h
  | product es =>
    cases b with
    | product fs =>
        simp only [words_product, List.cons_append, List.cons.injEq] at h
        obtain ⟨-, hlength, h⟩ := h
        obtain ⟨hsame, hrest⟩ := alike_of_factorWords_append hlength h
        exact ⟨alike_product_iff.mpr ⟨fs, rfl, hsame⟩, hrest⟩
    | _ => simp at h
  | quotient c d =>
    cases b with
    | quotient c' d' =>
        simp only [words_quotient, List.cons_append, List.append_assoc, List.cons.injEq] at h
        obtain ⟨hc, h⟩ := alike_of_words_append h.2
        obtain ⟨hd, hrest⟩ := alike_of_words_append h
        exact ⟨alike_quotient_iff.mpr ⟨c', d', rfl, hc, hd⟩, hrest⟩
    | _ => simp at h
  | power c d =>
    cases b with
    | power c' d' =>
        simp only [words_power, List.cons_append, List.append_assoc, List.cons.injEq] at h
        obtain ⟨hc, h⟩ := alike_of_words_append h.2
        obtain ⟨hd, hrest⟩ := alike_of_words_append h
        exact ⟨alike_power_iff.mpr ⟨c', d', rfl, hc, hd⟩, hrest⟩
    | _ => simp at h
  | call f c =>
    cases b with
    | call g c' =>
        simp only [words_call, List.cons_append, List.cons.injEq] at h
        obtain ⟨-, hplace, h⟩ := h
        obtain ⟨hc, hrest⟩ := alike_of_words_append h
        obtain rfl := idxOf_fn_inj hplace
        exact ⟨alike_call_iff.mpr ⟨c', rfl, hc⟩, hrest⟩
    | _ => simp at h

/-- No sequence of numbers begins with the words of two lists of addends that are equally long and
differ. -/
theorem alike_of_addendWords_append [Encoding.Lawful K] {as bs : List (Addend (Expr K))}
    {r s : List Nat} (hlength : as.length = bs.length)
    (h : addendWords as ++ r = addendWords bs ++ s) :
    AlikeAddends as bs ∧ r = s := by
  -- the lengths were read before, so both lists end at the same entry
  match as, bs, hlength with
  | [], [], _ => exact ⟨.nil, h⟩
  | ⟨a, t⟩ :: as, ⟨b, u⟩ :: bs, hlength =>
    simp only [addendWords_cons, List.cons_append, List.append_assoc] at h
    obtain ⟨hab, h⟩ := alike_of_words_append h
    obtain ⟨hsign, h⟩ := List.cons.inj h
    have htu : t = u := by
      revert hsign
      cases t <;> cases u <;> decide
    obtain ⟨hall, hrest⟩ := alike_of_addendWords_append (Nat.succ.inj hlength) h
    exact ⟨.cons ⟨hab, htu⟩ hall, hrest⟩

/-- No sequence of numbers begins with the words of two lists of factors that are equally long and
differ. -/
theorem alike_of_factorWords_append [Encoding.Lawful K] {es fs : List (Expr K)}
    {r s : List Nat} (hlength : es.length = fs.length)
    (h : factorWords es ++ r = factorWords fs ++ s) :
    List.Forall₂ Alike es fs ∧ r = s := by
  match es, fs, hlength with
  | [], [], _ => exact ⟨.nil, h⟩
  | e :: es, f :: fs, hlength =>
    simp only [factorWords_cons, List.append_assoc] at h
    obtain ⟨hef, h⟩ := alike_of_words_append h
    obtain ⟨hall, hrest⟩ := alike_of_factorWords_append (Nat.succ.inj hlength) h
    exact ⟨.cons hef hall, hrest⟩

end

end Words

/-! ## Equality and marks -/

section Marks

attribute [local simp] marks addendMarks factorMarks

mutual

/-- Structurally equal trees have the same marks. -/
theorem marks_eq_of_alike [Encoding.Lawful K] {a b : Expr K} (h : Alike a b) :
    a.marks = b.marks := by
  match a with
  | number v =>
    -- the numbers are the same, so the class of their bits is
    obtain ⟨w, rfl, hvw⟩ := alike_number_iff.mp h
    simp [Scalar.code_eq_code_iff.mpr hvw]
  | constant c => rw [alike_constant_iff.mp h]
  | var name => rw [alike_var_iff.mp h]
  | sum as =>
    obtain ⟨bs, rfl, hab⟩ := alike_sum_iff.mp h
    simp [hab.length_eq, addendMarks_eq_of_alike hab]
  | product es =>
    obtain ⟨fs, rfl, hef⟩ := alike_product_iff.mp h
    simp [hef.length_eq, factorMarks_eq_of_alike hef]
  | quotient c d =>
    obtain ⟨c', d', rfl, hc, hd⟩ := alike_quotient_iff.mp h
    simp [marks_eq_of_alike hc, marks_eq_of_alike hd]
  | power c d =>
    obtain ⟨c', d', rfl, hc, hd⟩ := alike_power_iff.mp h
    simp [marks_eq_of_alike hc, marks_eq_of_alike hd]
  | call f c =>
    obtain ⟨c', rfl, hc⟩ := alike_call_iff.mp h
    simp [marks_eq_of_alike hc]

/-- Structurally equal lists of addends have the same marks. -/
theorem addendMarks_eq_of_alike [Encoding.Lawful K] {as bs : List (Addend (Expr K))}
    (h : AlikeAddends as bs) : addendMarks as = addendMarks bs := by
  match as, bs, h with
  | [], [], .nil => rfl
  | ⟨_, s⟩ :: _, ⟨_, _⟩ :: _, .cons ⟨hab, (hst : s = _)⟩ h =>
    simp [marks_eq_of_alike hab, hst, addendMarks_eq_of_alike h]

/-- Structurally equal lists of factors have the same marks. -/
theorem factorMarks_eq_of_alike [Encoding.Lawful K] {es fs : List (Expr K)}
    (h : List.Forall₂ Alike es fs) : factorMarks es = factorMarks fs := by
  match es, fs, h with
  | [], [], .nil => rfl
  | _ :: _, _ :: _, .cons hef h =>
    simp [marks_eq_of_alike hef, factorMarks_eq_of_alike h]

end

end Marks

variable [Encoding.Lawful K]

/-- Trees are structurally equal exactly if they are hashed by the same numbers. -/
theorem alike_iff_words {a b : Expr K} : Alike a b ↔ a.words = b.words := by
  constructor
  · intro h
    rw [words, words, marks_eq_of_alike h]
  · intro h
    have happend : a.words ++ [] = b.words ++ [] := by rw [h]
    exact (alike_of_words_append happend).1

/-- Trees are structurally equal exactly if they have the same marks. -/
theorem alike_iff_marks {a b : Expr K} : Alike a b ↔ a.marks = b.marks := by
  constructor
  · exact marks_eq_of_alike
  · intro h
    apply alike_iff_words.mpr
    rw [words, words, h]

/-- Structurally equal trees fall into one bucket of a hash table. -/
instance : LawfulHashable (Expr K) where
  hash_eq a b h := by
    show a.marks.foldl _ 7 = b.marks.foldl _ 7
    rw [alike_iff_marks.mp h]

/-- **Structural equality and hashing agree.** Structural equality of trees over doubles, which are
told apart by their bits, is an equivalence relation. Two trees are structurally equal exactly if a
hasher is fed with the same marks for them, or with the same numbers that the marks are written as.
Of a double only its class is used: those that stand for no number are one class, the zeros are
another, and every other double is a class of its own. -/
theorem beq_iff_marks :
    Equivalence (fun a b : Expr Pattern => (a == b) = true) ∧
      (∀ a b : Expr Pattern,
        ((a == b) = true ↔ a.marks = b.marks) ∧ ((a == b) = true ↔ a.words = b.words)) ∧
      ∀ p q : Pattern,
        (number p == number q) = true ↔
          (p.isNaN = true ∧ q.isNaN = true) ∨ (p.isZero = true ∧ q.isZero = true) ∨ p = q := by
  have hmarks : ∀ a b : Expr Pattern, (a == b) = true ↔ a.marks = b.marks := by
    intro a b
    exact alike_iff_marks
  refine ⟨?_, fun a b => ⟨hmarks a b, alike_iff_words⟩, fun p q => Pattern.same_iff⟩
  constructor
  · intro a
    exact (hmarks a a).mpr rfl
  · intro a b hab
    exact (hmarks b a).mpr ((hmarks a b).mp hab).symm
  · intro a b c hab hbc
    exact (hmarks a c).mpr (((hmarks a b).mp hab).trans ((hmarks b c).mp hbc))

/-- Undefined values are alike whatever their bits are, and so are the zeros; a sign or a name is
not overlooked. -/
example :
    (number (⟨0x7FF8000000000000⟩ : Pattern) == number ⟨0xFFF0000000000001⟩) = true ∧
      (number (⟨0x8000000000000000⟩ : Pattern) == number 0) = true ∧
      (sum [.plus (var "x")] == (sum [.minus (var "x")] : Expr Pattern)) = false :=
  ⟨rfl, rfl, rfl⟩

/-! ## Patterns and doubles -/

mutual

/-- Trees have the marks that they have when each pattern is replaced by its double. -/
theorem marks_mapNumbers_toFloat (e : Expr Pattern) :
    (e.mapNumbers Pattern.toFloat).marks = e.marks := by
  match e with
  | number p => rw [mapNumbers, marks, marks, Pattern.code_toFloat]
  | constant _ | var _ => rfl
  | sum as =>
    rw [mapNumbers, marks, marks, length_mapAddends, addendMarks_mapAddends_toFloat as]
  | product es =>
    rw [mapNumbers, marks, marks, length_mapFactors, factorMarks_mapFactors_toFloat es]
  | quotient a b | power a b =>
    rw [mapNumbers, marks, marks, marks_mapNumbers_toFloat a, marks_mapNumbers_toFloat b]
  | call f a => rw [mapNumbers, marks, marks, marks_mapNumbers_toFloat a]

/-- The same for the terms of a sum. -/
theorem addendMarks_mapAddends_toFloat (as : List (Addend (Expr Pattern))) :
    addendMarks (mapAddends Pattern.toFloat as) = addendMarks as := by
  match as with
  | [] => rfl
  | ⟨e, s⟩ :: as =>
    rw [mapAddends, addendMarks, addendMarks, marks_mapNumbers_toFloat e,
      addendMarks_mapAddends_toFloat as]

/-- The same for the factors of a product. -/
theorem factorMarks_mapFactors_toFloat (es : List (Expr Pattern)) :
    factorMarks (mapFactors Pattern.toFloat es) = factorMarks es := by
  match es with
  | [] => rfl
  | e :: es =>
    rw [mapFactors, factorMarks, factorMarks, marks_mapNumbers_toFloat e,
      factorMarks_mapFactors_toFloat es]

end

/-- Trees over patterns are structurally equal exactly if the trees over the doubles are that the
patterns stand for. -/
theorem beq_mapNumbers_toFloat (a b : Expr Pattern) :
    (a.mapNumbers Pattern.toFloat == b.mapNumbers Pattern.toFloat) = (a == b) := by
  rw [Bool.eq_iff_iff]
  calc (a.mapNumbers Pattern.toFloat == b.mapNumbers Pattern.toFloat) = true
      ↔ (a.mapNumbers Pattern.toFloat).marks = (b.mapNumbers Pattern.toFloat).marks :=
        alike_iff_marks
    _ ↔ a.marks = b.marks := by rw [marks_mapNumbers_toFloat, marks_mapNumbers_toFloat]
    _ ↔ (a == b) = true := alike_iff_marks.symm

end Expr

end SymbolicCalculus
