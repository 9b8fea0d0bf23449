import ImapRequest.Decimal
import ImapRequest.Decoder.Octets

/-!
# Lines

A request ends with a line break.  Where it can not be understood, the rest of it is discarded: up
to the end of the line and, where the line ends in the announcement of a literal that the client
sends without waiting, also the data of the literal and the line after it.

* `Decoder.eol` : the line break at the end of a request or of an announcement;
* `Decoder.discardLine` : the rest of a request that was rejected.
-/

namespace ImapRequest

/-- What is accepted beyond the grammar. -/
structure Leniency where
  /-- A line feed alone is a line break. -/
  bareLineFeed : Bool := false
  /-- A space may follow the last search key. -/
  trailingSpace : Bool := true
  deriving DecidableEq, Repr

/-- How much of the announcement `{n+}` of a literal the octets before a position are. -/
inductive Announcement where
  | none
  /-- The opening brace. -/
  | opened
  /-- The brace and at least one digit, which make this number. -/
  | digits (length : Nat)
  /-- The plus sign after the digits. -/
  | plus (length : Nat)
  /-- The closing brace. -/
  | closed (length : Nat)
  /-- A carriage return after the closing brace. -/
  | cr (length : Nat)
  deriving DecidableEq, Repr

namespace Announcement

/-- What the octets are with one more.  An opening brace always starts anew, and a number beyond 32
bits announces nothing. -/
def advance (a : Announcement) (b : UInt8) : Announcement :=
  if b == Octet.lbrace then .opened
  else match a with
    | .opened => if Octet.isDigit b then .digits (Octet.digitValue b) else .none
    | .digits n =>
      if Octet.isDigit b then
        let m := 10 * n + Octet.digitValue b
        if m ≤ Decimal.maxNumber then .digits m else .none
      else if b == Octet.plus then .plus n
      else .none
    | .plus n => if b == Octet.rbrace then .closed n else .none
    | .closed n => if b == Octet.cr then .cr n else .none
    | _ => .none

/-- The number of octets that a line announces when it ends here. -/
def length? : Announcement → Option Nat
  | .closed n | .cr n => some n
  | _ => Option.none

end Announcement

namespace Decoder

/-- The line break at the end of a request or of an announcement. -/
def eol (leniency : Leniency) : Decoder Unit := do
  let next ← peek
  if next == Octet.cr then
    let _ ← consume
    let next ← peek
    if next == Octet.lf then
      let _ ← consume
    else
      unexpected next "end of line"
  else if next == Octet.lf then
    if leniency.bareLineFeed then
      let _ ← consume
    else
      unexpected next "CRLF"
  else
    unexpected next "end of line"

/-- Discards up to the end of a request, at most `limit` octets and literals. -/
def discardUpTo : Nat → Announcement → Decoder Unit
  | 0, _ => pure ()
  | limit + 1, a => do
    if ← isConsumed then
      return ()
    else
      let next ← consume
      if next == Octet.lf then
        match a.length? with
        | some n =>
          skip n
          discardUpTo limit .none
        | none => return ()
      else
        discardUpTo limit (a.advance next)

/-- Discards the rest of a request that was rejected.  The end of input ends it as well, unless it
comes within the data of a literal. -/
def discardLine : Decoder Unit := do discardUpTo (← bound) .none

end Decoder

end ImapRequest
