/-!
# Lists that are never empty

`OneOrMore α` is a first element and the elements after it.  It is the shape of every list of
the grammar that has at least one element.
-/

namespace ImapRequest

/-- A list with at least one element. -/
structure OneOrMore (α : Type) where
  /-- The first element. -/
  head : α
  /-- The elements after the first. -/
  tail : List α
  deriving DecidableEq, Repr

/-- There is no first element in an empty list. -/
inductive OneOrMoreError where
  | empty
  deriving DecidableEq, Repr

/-- The wording of the error. -/
def OneOrMoreError.message : OneOrMoreError → String
  | empty => "Must not be empty"

namespace OneOrMore

variable {α : Type}

/-- The list with one element. -/
def single (a : α) : OneOrMore α := ⟨a, []⟩

/-- All elements, in order. -/
def toList (xs : OneOrMore α) : List α := xs.head :: xs.tail

/-- A list that has a first element. -/
def ofList : List α → Except OneOrMoreError (OneOrMore α)
  | [] => .error .empty
  | a :: as => .ok ⟨a, as⟩

/-- One more element at the end. -/
def push (xs : OneOrMore α) (a : α) : OneOrMore α := ⟨xs.head, xs.tail ++ [a]⟩

/-- The number of elements. -/
def length (xs : OneOrMore α) : Nat := xs.toList.length

@[simp] theorem toList_single (a : α) : (single a).toList = [a] := rfl

@[simp] theorem toList_ne_nil (xs : OneOrMore α) : xs.toList ≠ [] := by simp [toList]

@[simp] theorem toList_push (xs : OneOrMore α) (a : α) :
    (xs.push a).toList = xs.toList ++ [a] := rfl

theorem ofList_eq_ok {as : List α} {xs : OneOrMore α} : ofList as = .ok xs ↔ as = xs.toList := by
  cases as <;> cases xs <;> simp [ofList, toList]

end OneOrMore

end ImapRequest
