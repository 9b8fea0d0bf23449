import ImapRequest.Decoder.Text
import ImapRequest.Flag

/-!
# Decoding flags

A list of flags is in parentheses and may be empty.  A STORE command also takes flags without
parentheses, then at least one.  Repeated flags are dropped.
-/

namespace ImapRequest

namespace Flag

/-- A flag. -/
def decode : Decoder Flag := do
  if (← Decoder.peek) == Octet.backslash then
    let _ ← Decoder.consume
    return ofBackslashed (← Atom.decode)
  else
    return keyword (← Atom.decode)

/-- Flags in parentheses. -/
def decodeList : Decoder (List Flag) := do
  Decoder.expect Octet.lparen
  if (← Decoder.peek) == Octet.rparen then
    let _ ← Decoder.consume
    return []
  else
    let flags ← Decoder.oneOrMore Decoder.listContinues decode
    return distinct flags.toList

/-- Whether a space announces another flag without parentheses. -/
def bareContinues : Decoder Bool := do
  if ← Decoder.nextIs Octet.sp then
    let _ ← Decoder.consume
    return true
  else
    return false

/-- One or more flags without parentheses. -/
def decodeBare : Decoder (List Flag) := do
  let flags ← Decoder.oneOrMore bareContinues decode
  return distinct flags.toList

end Flag

namespace StoreRequest

/-- How the flags are applied: a plus sign adds them, a hyphen removes them. -/
def decodeMode : Decoder StoreMode := do
  let next ← Decoder.peek
  if next == Octet.plus then
    let _ ← Decoder.consume
    return .add
  else if next == Octet.minus then
    let _ ← Decoder.consume
    return .remove
  else
    return .replace

/-- The word that says whether the new flags are answered. -/
def decodeResponse : Decoder StoreResponse := do
  let word ← Decoder.keyword
  if word = "FLAGS" then return .answer
  else if word = "FLAGS.SILENT" then return .silent
  else Decoder.reject (.unknownStoreItem word)

/-- What a STORE command asks for. -/
def decode : Decoder StoreRequest := do
  let mode ← decodeMode
  let response ← decodeResponse
  Decoder.sp
  let flags ← (do
    if (← Decoder.peek) == Octet.lparen then Flag.decodeList else Flag.decodeBare)
  return { mode, response, flags }

end StoreRequest

end ImapRequest
