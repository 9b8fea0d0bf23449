import ImapRequest.Decoder.Line

/-!
# Numbers

Numbers have 32 bits.  The value is checked after every digit, so a number that is too large is
rejected at the first digit that makes it so.

* `Decoder.digits` : a number, whatever follows it;
* `Decoder.number`, `Decoder.positive` : a number with a proper end, a number above zero;
* `Decoder.digitsInWords`, `Decoder.numberInWords`, `Decoder.positiveInWords` : the same in machine
  words, which do not hold every count of digits.
-/

namespace ImapRequest

/-- The octets that may follow a number. -/
def Octet.isNumberEnd (b : UInt8) : Bool :=
  b == sp || b == dot || b == greater || b == cr || b == lf || b == tab || b == rparen

namespace Decoder

/-- At most `limit` digits after `count` digits that make `value`: the number of all of them and
the value that they make.  They are counted without a limit here; `tallyUpTo` counts in a word. -/
def digitsUpTo : Nat → Nat → Nat → Decoder (Nat × Nat)
  | 0, count, value => pure (count, value)
  | limit + 1, count, value => do
    if ← isConsumed then
      return (count, value)
    else
      let next ← peek
      if Octet.isDigit next then
        let _ ← consume
        let value := 10 * value + Octet.digitValue next
        if Decimal.maxNumber < value then
          reject (.numberOutOfRange (count + 1 : Nat))
        else
          digitsUpTo limit (count + 1) value
      else
        return (count, value)

/-- A number, whatever follows it. -/
def digits : Decoder Nat := do
  let (count, value) ← digitsUpTo (← bound) 0 0
  if count = 0 then
    unexpected (← peek) "number"
  else
    return value

/-- A number that is followed by one of the octets that may follow it, or by the end of input. -/
def number : Decoder Nat := do
  let value ← digits
  if ← isConsumed then
    return value
  else
    let next ← peek
    if Octet.isNumberEnd next then
      return value
    else
      unexpected next "digit or end of number"

/-- A number above zero. -/
def positive : Decoder Nat := do
  let value ← number
  if value = 0 then reject .zeroNumber else return value

end Decoder

/-! ### In machine words -/

/-- What a program does where a result does not fit its word. -/
inductive Overflow where
  /-- It panics. -/
  | panics
  /-- It goes on with the result that has wrapped around. -/
  | wraps
  deriving DecidableEq, Repr

/-- The result of an operation on words; none where the program panics. -/
def Overflow.result {α : Type} (overflow : Overflow) (fits : Bool) (word : α) : Option α :=
  if fits || overflow == .wraps then some word else none

/-- How many digits there are so far, and the value that they make. -/
structure Tally where
  count : Int32 := 0
  value : UInt64 := 0
  deriving DecidableEq, Repr

/-- The tally with one more digit. -/
def Tally.push (overflow : Overflow) (tally : Tally) (next : UInt8) : Option Tally := do
  let count ← overflow.result (decide (tally.count < Int32.maxValue)) (tally.count + 1)
  let tenfold ← overflow.result (decide (tally.value.toNat * 10 < UInt64.size)) (tally.value * 10)
  let digit ← overflow.result (decide (0x30 ≤ next)) (next - 0x30)
  let value ← overflow.result (decide (tenfold.toNat + digit.toNat < UInt64.size))
    (tenfold + digit.toUInt64)
  return { count, value }

namespace Decoder

/-- At most `limit` digits in addition to a tally; none where the program panics. -/
def tallyUpTo (overflow : Overflow) : Nat → Tally → Decoder (Option Tally)
  | 0, tally => pure (some tally)
  | limit + 1, tally => do
    if ← isConsumed then
      return some tally
    else
      let next ← peek
      if Octet.isDigit next then
        let _ ← consume
        match tally.push overflow next with
        | some tally =>
          if Decimal.maxNumber < tally.value.toNat then
            reject (.numberOutOfRange tally.count.toInt)
          else
            tallyUpTo overflow limit tally
        | none => return none
      else
        return some tally

/-- A number of 32 bits, whatever follows it; none where the program panics.  The value has passed
its check, so 32 bits hold it. -/
def digitsInWords (overflow : Overflow) : Decoder (Option UInt32) := do
  match ← tallyUpTo overflow (← bound) {} with
  | some tally =>
    if tally.count = 0 then
      unexpected (← peek) "number"
    else
      return some tally.value.toUInt32
  | none => return none

/-- A number of 32 bits that is followed by one of the octets that may follow it, or by the end of
input; none where the program panics. -/
def numberInWords (overflow : Overflow) : Decoder (Option UInt32) := do
  match ← digitsInWords overflow with
  | some value =>
    if ← isConsumed then
      return some value
    else
      let next ← peek
      if Octet.isNumberEnd next then
        return some value
      else
        unexpected next "digit or end of number"
  | none => return none

/-- A number of 32 bits above zero; none where the program panics. -/
def positiveInWords (overflow : Overflow) : Decoder (Option UInt32) := do
  match ← numberInWords overflow with
  | some value => if value = 0 then reject .zeroNumber else return some value
  | none => return none

end Decoder

end ImapRequest
