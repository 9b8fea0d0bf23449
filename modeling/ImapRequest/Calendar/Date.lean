import ImapRequest.Decimal
import ImapRequest.Token

/-!
# Dates

A `Date` is a day of the proleptic Gregorian calendar in a year of at most four digits.  Search
keys write it as `1-Feb-1994`.

* `Date.ofParts` : the date with a day, a month and a year, or the reason why there is none;
* `Date.toText` : the text of a date;
* `Date.ofToken` : the date that a token of a request stands for.
-/

namespace ImapRequest

/-! ### The calendar -/

/-- Every fourth year is a leap year, but of the full centuries only every fourth. -/
def isLeapYear (year : Nat) : Bool := year % 4 == 0 && (year % 100 != 0 || year % 400 == 0)

/-- The number of days of a month, none for a number that is no month. -/
def daysIn (year month : Nat) : Nat :=
  match month with
  | 1 | 3 | 5 | 7 | 8 | 10 | 12 => 31
  | 4 | 6 | 9 | 11 => 30
  | 2 => if isLeapYear year then 29 else 28
  | _ => 0

/-- The abbreviated names of the months. -/
def monthNames : List String :=
  ["Jan", "Feb", "Mar", "Apr", "May", "Jun", "Jul", "Aug", "Sep", "Oct", "Nov", "Dec"]

/-- The number of the month with an abbreviated name in any letter case. -/
def monthOfName (name : List UInt8) : Option Nat :=
  (monthNames.findIdx? fun n => Octet.sameLetters (Octet.ofText n) name).map (· + 1)

/-- Why there is no date with some parts. -/
inductive DateError where
  /-- The year has more than four digits or is negative. -/
  | yearOutOfRange (year : Int)
  /-- The calendar has no such day. -/
  | noSuchDate (day month : Nat) (year : Int)
  deriving DecidableEq, Repr

/-- The text of years that are out of range. -/
def yearMessage (year : Int) : String := "Expected year in range 0..=9999, got " ++ toString year

/-- The wording of a date error. -/
def DateError.message : DateError → String
  | yearOutOfRange year => yearMessage year
  | noSuchDate day month year =>
    "No such date: " ++ toString day ++ "/" ++ toString month ++ "/" ++ toString year

/-- A day of the calendar in a year of at most four digits. -/
@[ext]
structure Date where
  year : Nat
  /-- The number of the month, from 1. -/
  month : Nat
  /-- The number of the day in its month, from 1. -/
  day : Nat
  year_le : year ≤ 9999
  one_le_day : 1 ≤ day
  day_le : day ≤ daysIn year month
  deriving Repr

instance : DecidableEq Date := fun _ _ => decidable_of_decidable_of_iff Date.ext_iff.symm

namespace Date

/-- The date with a day, a month and a year.  A year out of range is reported first. -/
def ofParts (day month : Nat) (year : Int) : Except DateError Date :=
  if hy : 0 ≤ year ∧ year ≤ 9999 then
    if hd : 1 ≤ day ∧ day ≤ daysIn year.toNat month then
      .ok { year := year.toNat, month, day, year_le := by omega,
            one_le_day := hd.1, day_le := hd.2 }
    else .error (.noSuchDate day month year)
  else .error (.yearOutOfRange year)

/-- The abbreviated name of the date's month. -/
def monthName (d : Date) : String := monthNames.getD (d.month - 1) ""

/-- The text of a date as in search keys, such as `1-Feb-1994`. -/
def toText (d : Date) : String :=
  toString d.day ++ "-" ++ d.monthName ++ "-" ++ Decimal.padded 4 d.year

/-- The text of a date with year, month and day in this order, such as `1994-02-01`. -/
def toIsoText (d : Date) : String :=
  Decimal.padded 4 d.year ++ "-" ++ Decimal.padded 2 d.month ++ "-" ++ Decimal.padded 2 d.day

/-! ### Reading a date from a token -/

open TokenReader

/-- Reads a day with two places: two digits, or a space and a digit. -/
def readFixedDay : TokenReader Nat :=
  either
    (do octet Octet.sp; return Decimal.value (← digits 1))
    (do return Decimal.value (← digits 2))

/-- Reads a day: one with two places where there is one, else a single digit. -/
def readDay : TokenReader Nat :=
  either readFixedDay (do return Decimal.value (← digits 1))

/-- Reads the abbreviated name of a month. -/
def readMonth : TokenReader Nat := fun bs =>
  match monthOfName (bs.take 3) with
  | some m => .ok (m, bs.drop 3)
  | none => .error bs

/-- Reads a year of four digits. -/
def readYear : TokenReader Nat := do return Decimal.value (← digits 4)

/-- Reads the day with a given reader, the month and the year, around hyphens. -/
def readParts (day : TokenReader Nat) : TokenReader (Nat × Nat × Nat) := do
  let d ← day
  octet Octet.minus
  let m ← readMonth
  octet Octet.minus
  let y ← readYear
  return (d, m, y)

/-- The date that a whole token stands for.  That the calendar lacks the day is noticed before
anything that is left after the year. -/
def ofToken (token : List UInt8) : Except TokenFault Date :=
  match readParts readDay token with
  | .error left => .error (.malformed left)
  | .ok ((d, m, y), left) =>
    match ofParts d m y with
    | .error _ => .error ⟨.noSuchDate, token.head?⟩
    | .ok date => if left.isEmpty then .ok date else .error (.malformed left)

end Date

end ImapRequest
