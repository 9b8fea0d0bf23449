import ImapRequest.Decoder.Octets
import ImapRequest.StatusItem

/-!
# Decoding status items
-/

namespace ImapRequest

namespace StatusItem

/-- A status item. -/
def decode : Decoder StatusItem := do
  let word ← Decoder.keyword
  match ofKeyword word with
  | some item => return item
  | none => Decoder.reject (.unknownStatusItem word)

/-- One or more status items in parentheses. -/
def decodeList : Decoder (OneOrMore StatusItem) := do
  Decoder.expect Octet.lparen
  Decoder.oneOrMore Decoder.listContinues decode

end StatusItem

end ImapRequest
