import ImapRequest.Decoder.Octets
import ImapRequest.Sequence.Token

/-!
# Decoding sets of message numbers
-/

namespace ImapRequest

/-- A set of message numbers: the longest run of digits, `:`, `*` and `,`, read as a whole. -/
def SequenceSet.decode : Decoder SequenceSet := do
  let octets ← Decoder.takeWhile1 Octet.isSequenceSetChar "sequence set"
  Decoder.token .sequenceSet SequenceSet.ofToken octets

end ImapRequest
