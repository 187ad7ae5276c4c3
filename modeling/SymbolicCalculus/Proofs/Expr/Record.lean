import SymbolicCalculus.Expr.Record
import SymbolicCalculus.Expr.Traversal

/-!
# The stored form loses nothing

An expression can be stored if all its numbers are finite, and it is then read back as it was. A
number that is not finite leaves a hole in the record, so that nothing is read back at all: reading
goes through every part of the record, and a part that cannot be read makes the whole unreadable.

The numbers of an expression are found in the record in their order (`Record.scalars`), with a hole
for each that is not finite.
-/

namespace SymbolicCalculus

/-! ## Numbers of a record -/

namespace Record

variable {K : Type}

mutual

/-- The numbers and the holes in a record, in the order in which they are written. -/
def scalars : Record K → List (Record K)
  | null => [null]
  | number value => [number value]
  | bool _ => []
  | text _ => []
  | list values => entryScalars values
  | object fields => fieldScalars fields

/-- The numbers and the holes in the entries of a list. -/
def entryScalars : List (Record K) → List (Record K)
  | [] => []
  | r :: rs => scalars r ++ entryScalars rs

/-- The numbers and the holes in the fields of an object. -/
def fieldScalars : List (String × Record K) → List (Record K)
  | [] => []
  | (_, r) :: fields => scalars r ++ fieldScalars fields

end

end Record

namespace Expr

variable {K : Type}

/-! ## Numbers of an expression -/

/-- The numbers of an expression in the order in which they occur, from left to right. -/
def scalars (e : Expr K) : List K := e.postOrder.filterMap asNumber?

/-- The numbers that occur in a list of addends. -/
def addendScalars (as : List (Addend (Expr K))) : List K :=
  (postOrderAddends as).filterMap asNumber?

/-- The numbers that occur in a list of factors. -/
def factorScalars (es : List (Expr K)) : List K := (postOrderFactors es).filterMap asNumber?

@[simp] theorem scalars_number (v : K) : (number v).scalars = [v] := rfl

@[simp] theorem scalars_constant (c : Constant) : (constant c : Expr K).scalars = [] := rfl

@[simp] theorem scalars_var (name : String) : (var name : Expr K).scalars = [] := rfl

@[simp] theorem scalars_sum (as : List (Addend (Expr K))) :
    (sum as).scalars = addendScalars as := by
  simp [scalars, addendScalars, postOrder, asNumber?]

@[simp] theorem scalars_product (es : List (Expr K)) :
    (product es).scalars = factorScalars es := by
  simp [scalars, factorScalars, postOrder, asNumber?]

@[simp] theorem scalars_quotient (a b : Expr K) :
    (quotient a b).scalars = a.scalars ++ b.scalars := by
  simp [scalars, postOrder, asNumber?]

@[simp] theorem scalars_power (a b : Expr K) : (power a b).scalars = a.scalars ++ b.scalars := by
  simp [scalars, postOrder, asNumber?]

@[simp] theorem scalars_call (f : Fn) (a : Expr K) : (call f a).scalars = a.scalars := by
  simp [scalars, postOrder, asNumber?]

@[simp] theorem addendScalars_nil : addendScalars ([] : List (Addend (Expr K))) = [] := rfl

@[simp] theorem addendScalars_cons (e : Expr K) (s : Bool) (as : List (Addend (Expr K))) :
    addendScalars (⟨e, s⟩ :: as) = e.scalars ++ addendScalars as := by
  simp [scalars, addendScalars, postOrderAddends]

@[simp] theorem factorScalars_nil : factorScalars ([] : List (Expr K)) = [] := rfl

@[simp] theorem factorScalars_cons (e : Expr K) (es : List (Expr K)) :
    factorScalars (e :: es) = e.scalars ++ factorScalars es := by
  simp [scalars, factorScalars, postOrderFactors]

/-! ## Names -/

/-- The name that a function is stored by stands for that function. -/
theorem asFn?_capitalized (f : Fn) :
    (Record.text (capitalized f.name) : Record K).asFn? = some f := by
  show Fn.all.find? (fun g => capitalized g.name == capitalized f.name) = some f
  cases f <;> decide

/-- The name that a constant is stored by stands for that constant. -/
theorem asConstant?_capitalized (c : Constant) :
    (Record.text (capitalized c.name) : Record K).asConstant? = some c := by
  show Constant.all.find? (fun d => capitalized d.name == capitalized c.name) = some c
  cases c <;> decide

variable [Scalar K]

/-! ## Reading what was written -/

/-- What has two parts is read if both of them can be. -/
theorem bind_both {α β γ : Type} (f : α → β → γ) {p q : Bool} {a : α} {b : β} {first : Option α}
    {second : Option β} (ha : first = if p then some a else none)
    (hb : second = if q then some b else none) :
    (do
      let x ← first
      let y ← second
      return f x y) = if p && q then some (f a b) else none := by
  subst ha hb
  cases p <;> cases q <;> rfl

theorem asNumber?_numberRecord (v : K) :
    (numberRecord v).asNumber? = if Scalar.isFinite v then some v else none := by
  unfold numberRecord
  split <;> rfl

mutual

/-- What is stored of a tree is read back as the tree, or not at all if a number is not finite. -/
theorem ofRecord?_toRecord (e : Expr K) :
    ofRecord? e.toRecord = if e.scalars.all Scalar.isFinite then some e else none := by
  -- recursion as in `toRecord`: each field of a node is read on its own, and all of them are needed
  match e with
  | number v =>
    show (numberRecord v).asNumber?.map number = _
    rw [asNumber?_numberRecord]
    by_cases hv : Scalar.isFinite v <;> simp [hv]
  | constant c =>
    show (Record.asConstant? (.text (capitalized c.name))).map constant = _
    rw [asConstant?_capitalized]
    rfl
  | var name => rfl
  | sum as =>
    show (addendsOfRecords? (addendRecords as)).map sum = _
    rw [addendsOfRecords?_addendRecords, scalars_sum]
    split <;> rfl
  | product es =>
    show (factorsOfRecords? (factorRecords es)).map product = _
    rw [factorsOfRecords?_factorRecords, scalars_product]
    split <;> rfl
  | quotient a b =>
    rw [scalars_quotient, List.all_append]
    exact bind_both quotient (ofRecord?_toRecord a) (ofRecord?_toRecord b)
  | power a b =>
    rw [scalars_power, List.all_append]
    exact bind_both power (ofRecord?_toRecord a) (ofRecord?_toRecord b)
  | call f a =>
    show (do
      let g ← Record.asFn? (.text (capitalized f.name))
      let b ← ofRecord? a.toRecord
      return call g b) = _
    rw [asFn?_capitalized, ofRecord?_toRecord a, scalars_call]
    split <;> rfl

/-- What is stored of addends is read back, or not at all. -/
theorem addendsOfRecords?_addendRecords (as : List (Addend (Expr K))) :
    addendsOfRecords? (addendRecords as) =
      if (addendScalars as).all Scalar.isFinite then some as else none := by
  match as with
  | [] => rfl
  | ⟨a, s⟩ :: as =>
    -- an addend is an object with two fields, of which only the term may be unreadable
    have hfirst : addendOfRecord? (.object [("expr", a.toRecord), ("subtract", .bool s)]) =
        if a.scalars.all Scalar.isFinite then some ⟨a, s⟩ else none := by
      show (do
        let e ← ofRecord? a.toRecord
        return (⟨e, s⟩ : Addend (Expr K))) = _
      rw [ofRecord?_toRecord a]
      split <;> rfl
    rw [addendScalars_cons, List.all_append]
    exact bind_both List.cons hfirst (addendsOfRecords?_addendRecords as)

/-- What is stored of factors is read back, or not at all. -/
theorem factorsOfRecords?_factorRecords (es : List (Expr K)) :
    factorsOfRecords? (factorRecords es) =
      if (factorScalars es).all Scalar.isFinite then some es else none := by
  match es with
  | [] => rfl
  | e :: es =>
    rw [factorScalars_cons, List.all_append]
    exact bind_both List.cons (ofRecord?_toRecord e) (factorsOfRecords?_factorRecords es)

end

/-! ## Numbers in a record -/

theorem scalars_numberRecord (v : K) : (numberRecord v).scalars = [numberRecord v] := by
  unfold numberRecord
  split <;> simp [Record.scalars]

section Scalars

attribute [local simp] toRecord node addendRecords factorRecords Record.scalars
  Record.entryScalars Record.fieldScalars scalars_numberRecord

mutual

/-- The record of a tree has its numbers in their order. -/
theorem scalars_toRecord (e : Expr K) : e.toRecord.scalars = e.scalars.map numberRecord := by
  match e with
  | number v => simp
  | constant c => simp
  | var name => simp
  | sum as => simp [entryScalars_addendRecords as]
  | product es => simp [entryScalars_factorRecords es]
  | quotient a b => simp [scalars_toRecord a, scalars_toRecord b]
  | power a b => simp [scalars_toRecord a, scalars_toRecord b]
  | call f a => simp [scalars_toRecord a]

/-- The records of addends have their numbers in their order. -/
theorem entryScalars_addendRecords (as : List (Addend (Expr K))) :
    Record.entryScalars (addendRecords as) = (addendScalars as).map numberRecord := by
  match as with
  | [] => simp
  | ⟨a, s⟩ :: as => simp [scalars_toRecord a, entryScalars_addendRecords as]

/-- The records of factors have their numbers in their order. -/
theorem entryScalars_factorRecords (es : List (Expr K)) :
    Record.entryScalars (factorRecords es) = (factorScalars es).map numberRecord := by
  match es with
  | [] => simp
  | e :: es => simp [scalars_toRecord e, entryScalars_factorRecords es]

end

end Scalars

/-! ## The stored form -/

/-- **The stored form loses nothing.** The record of an expression holds its numbers in their order,
with a hole for every number that is not finite. It is read back as that very expression if there is
no hole, and otherwise it is not read back at all. -/
theorem toRecord_lossless (e : Expr K) :
    e.toRecord.scalars =
        e.scalars.map (fun v => if Scalar.isFinite v then .number v else .null) ∧
      ofRecord? e.toRecord =
        if ∀ v ∈ e.scalars, Scalar.isFinite v = true then some e else none := by
  constructor
  · exact scalars_toRecord e
  · rw [ofRecord?_toRecord]
    simp only [List.all_eq_true]

end Expr

end SymbolicCalculus
