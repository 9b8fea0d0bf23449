import ImapRequest.Calendar.DateTime
import ImapRequest.Decoder.Octets

/-!
# Decoding dates and date-times

Dates may be in double quotes, date-times have to be.  Between the quotes nothing is escaped.
-/

namespace ImapRequest

/-- The octets between two double quotes on a line. -/
def Decoder.quotedToken : Decoder (List UInt8) := do
  Decoder.expect Octet.quote
  let octets ← Decoder.takeWhile fun b => b != Octet.quote && !Octet.isLineBreak b
  Decoder.expect Octet.quote
  return octets

/-- The octets of a date without quotes. -/
def Octet.isDateChar (b : UInt8) : Bool := isAlphanumeric b || b == minus

/-- A date, in double quotes or not. -/
def Date.decode : Decoder Date := do
  let octets ← (do
    if (← Decoder.peek) == Octet.quote then
      Decoder.quotedToken
    else
      Decoder.takeWhile1 Octet.isDateChar "date")
  Decoder.token .date Date.ofToken octets

/-- A date-time in double quotes. -/
def DateTime.decode : Decoder DateTime := do
  let octets ← Decoder.quotedToken
  Decoder.token .dateTime DateTime.ofToken octets

end ImapRequest
