import ImapRequest.Sequence.Set

/-!
# The text of ranges and sets

A range is written as its bounds around a colon, or as one number when they are equal, and
`maxId` as `*`; a set as its ranges around commas.  `IdRange.ofText` and `SequenceSet.ofText` read
such texts by cutting them at commas and colons first; the decoder of requests, which works from
left to right, is a reader of its own.
-/

namespace ImapRequest

namespace IdRange

/-- The text of a bound. -/
def boundChars (id : Nat) : List Char := if id = maxId then ['*'] else Nat.toDigits 10 id

/-- The characters of a range. -/
def chars (r : IdRange) : List Char :=
  if r.low = r.high then boundChars r.low else boundChars r.low ++ ':' :: boundChars r.high

/-- The text of a range. -/
def toText (r : IdRange) : String := String.ofList r.chars

/-- The pieces of a text between the occurrences of a separator, which are one more than the
separators. -/
def pieces (separator : Char) : List Char → List (List Char)
  | [] => [[]]
  | c :: cs =>
    if c = separator then [] :: pieces separator cs
    else match pieces separator cs with
      | [] => [[c]]
      | p :: ps => (c :: p) :: ps

/-- The number that a bound stands for: `*`, or digits without a leading zero. -/
def boundOfChars (cs : List Char) : Except IdRangeError Nat :=
  if cs = [] then .error .empty
  else if cs = ['*'] then .ok maxId
  else if cs.head? = some '0' ∧ 1 < cs.length then .error .leadingZero
  else if cs.all Char.isDigit then
    let n := Nat.ofDigitChars 10 cs 0
    if n ≤ maxId then .ok n else .error .outOfRange
  else .error .invalid

/-- The range that a text stands for. -/
def ofChars (cs : List Char) : Except IdRangeError IdRange :=
  match pieces ':' cs with
  | [one] => do
    let id ← boundOfChars one
    ofBounds id id
  | [first, second] => do
    let a ← boundOfChars first
    let b ← boundOfChars second
    ofBounds a b
  | _ => .error .invalid

/-- The range with a given text. -/
def ofText (s : String) : Except IdRangeError IdRange := ofChars s.toList

end IdRange

namespace SequenceSet

/-- The characters of a set. -/
def chars (s : SequenceSet) : List Char := [','].intercalate (s.ranges.map IdRange.chars)

/-- The text of a set. -/
def toText (s : SequenceSet) : String := String.ofList s.chars

/-- The set that a text stands for.  The first range that is none decides the error. -/
def ofChars (cs : List Char) : Except SequenceSetError SequenceSet :=
  match (IdRange.pieces ',' cs).mapM IdRange.ofChars with
  | .ok rs => ofRanges rs
  | .error e => .error (.range e)

/-- The set with a given text. -/
def ofText (s : String) : Except SequenceSetError SequenceSet := ofChars s.toList

end SequenceSet

end ImapRequest
