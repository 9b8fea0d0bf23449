import ImapRequest.Command.Decode

/-!
# Requests

A request is a tag, an optional `UID`, the name of a command and its arguments.  One that can not be
understood is answered as malformed, with its tag if that could be read, and the rest of it is
discarded, so that the next request starts behind it.

* `Request.decode` : one request; it fails only where the connection can not go on.
-/

namespace ImapRequest

/-- What a client sent. -/
inductive Request where
  | command (command : Command)
  /-- The request can not be understood.  Without a tag not even its tag could be read. -/
  | malformed (tag : Option Tag) (error : DecodingError)

namespace Request

/-- A space, and the command after it. -/
def decodeCommand (ctx : Context) (tag : Tag) : Decoder Command := do
  Decoder.sp
  let word ← Decoder.keyword
  if word = "UID" then
    Decoder.sp
    let name ← Decoder.keyword
    Command.decode ctx tag true name
  else
    Command.decode ctx tag false word

/-- Discards the rest of a request that can not be understood. -/
def discard (tag : Option Tag) (error : DecodingError) : Decoder Request := do
  Decoder.discardLine
  return .malformed tag error

/-- One request. -/
def decode (ctx : Context) : Decoder Request := do
  match ← Decoder.attempt Tag.decode with
  | .error e => discard none e
  | .ok tag =>
    match ← Decoder.attempt (decodeCommand ctx tag) with
    | .error e => discard (some tag) e
    | .ok c => return .command c

end Request

end ImapRequest
