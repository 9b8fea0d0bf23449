/-!
# Ranges of message numbers

Messages are addressed by sequence numbers or unique identifiers, both numbers from 1 to
4294967295.  `*` stands for the largest number in use; it is not resolved here but kept as the
largest number there is, `maxId`.

An `IdRange` is an inclusive range of such numbers.  `IdRange.ofBounds` reads the two bounds in
the order of the request: reversed bounds are swapped, except that a reversed range that starts
at `*` begins at 1.
-/

namespace ImapRequest

/-- The largest message number, which also stands for `*`. -/
def maxId : Nat := 4294967295

/-- Why there is no range with some bounds or some text. -/
inductive IdRangeError where
  /-- A bound has no text. -/
  | empty
  /-- Message numbers start at 1. -/
  | zero
  /-- A number of several digits does not start with the digit zero. -/
  | leadingZero
  /-- A message number is at most `maxId`. -/
  | outOfRange
  /-- The text is not of the form of a range. -/
  | invalid
  deriving DecidableEq, Repr

/-- The wording of a range error. -/
def IdRangeError.message : IdRangeError → String
  | empty => "Must not be empty"
  | zero => "Must not be zero"
  | leadingZero => "Must not start with \"0\""
  | outOfRange => "Must be in range 1..=4294967295"
  | invalid => "Invalid value"

/-- An inclusive range of message numbers. -/
structure IdRange where
  /-- The smallest number of the range. -/
  low : Nat
  /-- The largest number of the range. -/
  high : Nat
  one_le_low : 1 ≤ low := by omega
  low_le_high : low ≤ high := by omega
  high_le_maxId : high ≤ maxId := by omega
  deriving DecidableEq, Repr

namespace IdRange

/-- The range between two bounds in the order of the request. -/
def ofBounds (first second : Nat) : Except IdRangeError IdRange :=
  if h₀ : first = 0 ∨ second = 0 then .error .zero
  else if h₁ : maxId < first ∨ maxId < second then .error .outOfRange
  else if h : first ≤ second then .ok { low := first, high := second }
  else if first = maxId then .ok { low := 1, high := second }
  else .ok { low := second, high := first }

/-- The range of one number. -/
def single (id : Nat) : Except IdRangeError IdRange := ofBounds id id

/-- Whether a number lies in the range. -/
def contains (r : IdRange) (id : Nat) : Bool := decide (r.low ≤ id ∧ id ≤ r.high)

/-- Whether the range reaches up to `*`. -/
def isUnbounded (r : IdRange) : Bool := r.high == maxId

/-- Whether a range that does not start below `r` shares a number with it. -/
def overlaps (r next : IdRange) : Bool := decide (next.low ≤ r.high)

/-- Whether a range that does not start below `r` shares a number with it or follows it without
a gap.  No number follows `maxId`. -/
def touches (r next : IdRange) : Bool := decide (next.low ≤ min (r.high + 1) maxId)

/-- The range that reaches as far as the further of two ranges. -/
def extend (r next : IdRange) : IdRange where
  low := r.low
  high := max r.high next.high
  one_le_low := r.one_le_low
  low_le_high := by have := r.low_le_high; omega
  high_le_maxId := by have := r.high_le_maxId; have := next.high_le_maxId; omega

/-- Ranges are ordered by their smallest, then by their largest number. -/
def precedes (r next : IdRange) : Bool :=
  decide (r.low < next.low ∨ r.low = next.low ∧ r.high ≤ next.high)

@[ext] theorem ext {r s : IdRange} (hlow : r.low = s.low) (hhigh : r.high = s.high) : r = s := by
  cases r; cases s; simp_all

@[simp] theorem low_extend (r next : IdRange) : (r.extend next).low = r.low := rfl

@[simp] theorem high_extend (r next : IdRange) :
    (r.extend next).high = max r.high next.high := rfl

theorem contains_iff {r : IdRange} {id : Nat} :
    r.contains id = true ↔ r.low ≤ id ∧ id ≤ r.high := by simp [contains]

theorem overlaps_iff {r next : IdRange} : r.overlaps next = true ↔ next.low ≤ r.high := by
  simp [overlaps]

theorem touches_iff {r next : IdRange} : r.touches next = true ↔ next.low ≤ r.high + 1 := by
  have := next.low_le_high
  have := next.high_le_maxId
  simp only [touches, decide_eq_true_eq]
  omega

theorem precedes_iff {r next : IdRange} : r.precedes next = true ↔
    r.low < next.low ∨ r.low = next.low ∧ r.high ≤ next.high := by simp [precedes]

theorem precedes_trans {a b c : IdRange} (hab : a.precedes b = true) (hbc : b.precedes c = true) :
    a.precedes c = true := by
  rw [precedes_iff] at *
  omega

theorem precedes_total (a b : IdRange) : (a.precedes b || b.precedes a) = true := by
  rw [Bool.or_eq_true, precedes_iff, precedes_iff]
  omega

theorem low_le_of_precedes {a b : IdRange} (h : a.precedes b = true) : a.low ≤ b.low := by
  rw [precedes_iff] at h
  omega

end IdRange

end ImapRequest
