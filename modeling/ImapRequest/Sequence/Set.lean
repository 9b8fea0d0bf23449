import ImapRequest.Sequence.Merge

/-!
# Sets of message numbers

A `SequenceSet` is a non-empty list of ranges that are sorted and share no number.  Ranges that
follow each other without a gap stay apart; `SequenceSet.compacted` joins them.
-/

namespace ImapRequest

/-- Why there is no set with some ranges or some text. -/
inductive SequenceSetError where
  /-- A set has at least one range. -/
  | empty
  /-- A range of the set is none. -/
  | range (error : IdRangeError)
  deriving DecidableEq, Repr

/-- The wording of a set error. -/
def SequenceSetError.message : SequenceSetError → String
  | empty => "Must not be empty"
  | range error => error.message

/-- A non-empty set of message numbers, as sorted ranges without common numbers. -/
structure SequenceSet where
  /-- The ranges, in ascending order. -/
  ranges : List IdRange
  ranges_ne_nil : ranges ≠ []
  separated : IdRange.Separated ranges
  deriving DecidableEq

namespace SequenceSet

/-- The set of the numbers in some ranges, in any order. -/
def merged (rs : List IdRange) (h : rs ≠ []) : SequenceSet where
  ranges := IdRange.merge rs
  ranges_ne_nil := IdRange.merge_ne_nil h
  separated := IdRange.merge_separated rs

/-- The set of the numbers in some ranges, if there are any ranges. -/
def ofRanges (rs : List IdRange) : Except SequenceSetError SequenceSet :=
  if h : rs = [] then .error .empty else .ok (merged rs h)

/-- The set of one range. -/
def ofRange (r : IdRange) : SequenceSet where
  ranges := [r]
  ranges_ne_nil := by simp
  separated := by simp [IdRange.Separated]

/-- The same numbers in as few ranges as possible. -/
def compacted (s : SequenceSet) : SequenceSet where
  ranges := IdRange.compact s.ranges
  ranges_ne_nil := IdRange.compact_ne_nil s.ranges_ne_nil
  separated := IdRange.compact_separated s.ranges

/-- Whether a number is in the set. -/
def contains (s : SequenceSet) (id : Nat) : Bool := s.ranges.any (·.contains id)

@[ext] theorem ext {s t : SequenceSet} (h : s.ranges = t.ranges) : s = t := by
  cases s; cases t; simp_all

theorem contains_iff {s : SequenceSet} {id : Nat} :
    s.contains id = true ↔ ∃ r ∈ s.ranges, r.low ≤ id ∧ id ≤ r.high := by
  simp [contains, IdRange.contains_iff]

end SequenceSet

end ImapRequest
