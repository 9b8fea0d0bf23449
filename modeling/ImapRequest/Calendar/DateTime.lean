import ImapRequest.Calendar.Date

/-!
# Date-times

A `DateTime` is a date, a time of day in whole seconds and an offset from universal time in whole
minutes, less than a day in either direction.  Appended messages carry it in the form
`07-Feb-1994 21:52:25 -0800`.

* `DateTime.ofLocal` : the date-time of a local time, or the reason why it can not be represented;
* `DateTime.toText` : the text with the date first and the largest units first;
* `DateTime.ofToken` : the date-time that a token of a request stands for.
-/

namespace ImapRequest

/-- A local time of an existing day, of any year and with a fraction of a second. -/
structure LocalTime where
  year : Int
  month : Nat
  day : Nat
  hour : Nat
  minute : Nat
  second : Nat
  /-- Billionths of a second, a full second and more within a leap second. -/
  nanos : Nat
  deriving DecidableEq, Repr

/-- Why a local time at some offset is no date-time. -/
inductive DateTimeError where
  /-- The year has more than four digits or is negative. -/
  | yearOutOfRange (year : Int)
  /-- There is a fraction of a second. -/
  | fractionalSecond (nanos : Nat)
  /-- The offset is not in whole minutes; these seconds are left over. -/
  | fractionalOffset (seconds : Int)
  /-- There is no such day or time of day, or the offset reaches a whole day. -/
  | noSuchTime
  deriving DecidableEq, Repr

/-- The wording of a date-time error. -/
def DateTimeError.message : DateTimeError → String
  | yearOutOfRange year => yearMessage year
  | fractionalSecond nanos => "Expected `0` for sub-second nanoseconds, got " ++ toString nanos
  | fractionalOffset seconds =>
    "Expected `0` for remaining offset seconds, got " ++ toString seconds
  | noSuchTime => "No such time"

/-- A date, a time of day and an offset from universal time. -/
structure DateTime where
  date : Date
  hour : Nat
  minute : Nat
  second : Nat
  /-- Minutes east of the prime meridian. -/
  offset : Int
  hour_lt : hour < 24
  minute_lt : minute < 60
  second_lt : second < 60
  offset_gt : -1440 < offset
  offset_lt : offset < 1440
  deriving DecidableEq, Repr

namespace DateTime

/-- A date with a time of day and an offset in minutes, if they are within their bounds. -/
def ofParts (date : Date) (hour minute second : Nat) (offset : Int) : Option DateTime :=
  if h : hour < 24 ∧ minute < 60 ∧ second < 60 ∧ -1440 < offset ∧ offset < 1440 then
    some { date, hour, minute, second, offset, hour_lt := h.1, minute_lt := h.2.1,
           second_lt := h.2.2.1, offset_gt := h.2.2.2.1, offset_lt := h.2.2.2.2 }
  else none

/-- The date-time of a local time at an offset in seconds.  Year, fraction of a second and
fraction of a minute are checked in this order. -/
def ofLocal (t : LocalTime) (offset : Int) : Except DateTimeError DateTime :=
  if ¬ (0 ≤ t.year ∧ t.year ≤ 9999) then .error (.yearOutOfRange t.year)
  else if t.nanos ≠ 0 then .error (.fractionalSecond t.nanos)
  else if offset.tmod 60 ≠ 0 then .error (.fractionalOffset (offset.tmod 60))
  else match Date.ofParts t.day t.month t.year with
    | .error _ => .error .noSuchTime
    | .ok date => match ofParts date t.hour t.minute t.second (offset.tdiv 60) with
      | some dt => .ok dt
      | none => .error .noSuchTime

/-- The offset in a text: `Z` for universal time, else a sign, hours and minutes. -/
def offsetText (offset : Int) : String :=
  if offset = 0 then "Z"
  else (if offset < 0 then "-" else "+") ++ Decimal.padded 2 (offset.natAbs / 60) ++ ":" ++
    Decimal.padded 2 (offset.natAbs % 60)

/-- The text with the largest units first, such as `1994-02-07T21:52:25-08:00`. -/
def toText (t : DateTime) : String :=
  t.date.toIsoText ++ "T" ++ Decimal.padded 2 t.hour ++ ":" ++ Decimal.padded 2 t.minute ++ ":" ++
    Decimal.padded 2 t.second ++ offsetText t.offset

/-! ### Reading a date-time from a token -/

open TokenReader

/-- Reads hours, minutes and seconds around colons. -/
def readTime : TokenReader (Nat × Nat × Nat) := do
  let h ← digits 2
  octet Octet.colon
  let m ← digits 2
  octet Octet.colon
  let s ← digits 2
  return (Decimal.value h, Decimal.value m, Decimal.value s)

/-- Reads a sign, two digits of hours and two of minutes, in minutes. -/
def readZone : TokenReader Int := do
  let east ← either (do octet Octet.plus; return true) (do octet Octet.minus; return false)
  let h ← digits 2
  let m ← digits 2
  let minutes : Int := 60 * Decimal.value h + Decimal.value m
  return if east then minutes else -minutes

/-- The parts of a date-time before they are checked against calendar and clock. -/
structure Parts where
  day : Nat
  month : Nat
  year : Nat
  hour : Nat
  minute : Nat
  second : Nat
  offset : Int
  deriving DecidableEq, Repr

/-- Reads the parts of a date-time. -/
def readParts : TokenReader Parts := do
  let (day, month, year) ← Date.readParts Date.readFixedDay
  octet Octet.sp
  let (hour, minute, second) ← readTime
  octet Octet.sp
  let offset ← readZone
  return { day, month, year, hour, minute, second, offset }

/-- The date-time with some parts, if calendar and clock have it. -/
def Parts.toDateTime? (p : Parts) : Option DateTime :=
  match Date.ofParts p.day p.month p.year with
  | .error _ => none
  | .ok date => ofParts date p.hour p.minute p.second p.offset

/-- The date-time that a whole token stands for.  That calendar or clock lack it is noticed before
anything that is left after the offset. -/
def ofToken (token : List UInt8) : Except TokenFault DateTime :=
  match readParts token with
  | .error left => .error (.malformed left)
  | .ok (p, left) =>
    match p.toDateTime? with
    | none => .error ⟨.noSuchDate, token.head?⟩
    | some t => if left.isEmpty then .ok t else .error (.malformed left)

end DateTime

end ImapRequest
