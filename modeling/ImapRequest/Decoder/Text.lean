import ImapRequest.Decoder.Number
import ImapRequest.Word

/-!
# Strings

A string is written as a word, in double quotes, or as a literal: the number of its octets in
braces, a line break, and the octets themselves.  The client sends the octets of a literal once it
is asked to (`{3}`), or at once (`{3+}`).  Quoted strings and literals are text in the character
set of the request.

* `Decoder.quoted`, `Decoder.literal`, `Decoder.string`, `Decoder.astring` : the forms of strings;
* `Decoder.literalOctets` : a literal that is no text, such as a message;
* `Decoder.charset` : the name of a character set.
-/

namespace ImapRequest

/-- What the decoders of a request share. -/
structure Context where
  /-- The character set of quoted strings and literals. -/
  charset : Charset := .usAscii
  /-- The largest number of octets of a literal. -/
  maxLiteral : Nat := 67108864
  /-- What is accepted beyond the grammar. -/
  leniency : Leniency := {}
  deriving DecidableEq, Repr

/-- How the octets of a literal are sent. -/
inductive LiteralMode where
  /-- Once the client is asked for them. -/
  | onRequest
  /-- At once. -/
  | atOnce
  deriving DecidableEq, Repr

/-- A tag. -/
def Tag.decode : Decoder Tag := return Tag.ofOctets (← Decoder.takeWhile1 Octet.isTagChar "tag")

/-- An atom. -/
def Atom.decode : Decoder Atom :=
  return Atom.ofOctets (← Decoder.takeWhile1 Octet.isAtomChar "atom")

namespace Decoder

/-- Reads a piece of a text. -/
def feed (d : TextDecoder) (piece : List UInt8) (last : Bool) : Decoder TextDecoder :=
  ofExcept ((d.feed piece last).mapError .badText)

/-! ### Quoted strings -/

/-- The number of octets of a quoted string that are read as text at once. -/
def pieceLength : Nat := 256

/-- One item of a quoted string, unless it ends: an octet, or an escaped one. -/
def quotedItem : Decoder (Option UInt8) := do
  let next ← peek
  if next == Octet.quote then
    let _ ← consume
    return none
  else if next == Octet.backslash then
    let _ ← consume
    let escaped ← peek
    if Octet.isQuotedSpecial escaped then
      return some (← consume)
    else
      unexpected escaped "'\"' or '\\' after '\\'"
  else if next == Octet.cr || next == Octet.lf || next == 0 then
    unexpected next "TEXT-CHAR"
  else
    return some (← consume)

/-- The rest of a quoted string, of at most `limit` items, after the text in `d` and the octets of
an unfinished piece. -/
def quotedUpTo : Nat → TextDecoder → List UInt8 → Decoder String
  | 0, _, _ => do unexpected (← peek) "TEXT-CHAR"
  | limit + 1, d, piece => do
    match ← quotedItem with
    | none =>
      let d ← feed d piece true
      return d.finish
    | some b =>
      let piece := piece ++ [b]
      if pieceLength ≤ piece.length then
        let d ← feed d piece false
        quotedUpTo limit d []
      else
        quotedUpTo limit d piece

/-- A string in double quotes. -/
def quoted (charset : Charset) : Decoder String := do
  expect Octet.quote
  quotedUpTo ((← bound) + 1) (TextDecoder.new charset) []

/-! ### Literals -/

/-- The announcement of a literal.  A literal beyond the limit is refused before its line ends, so
that the next line of a client that waits is not taken for data. -/
def announcement (ctx : Context) : Decoder (Nat × LiteralMode) := do
  expect Octet.lbrace
  let length ← digits
  let mode ← (do
    if (← peek) == Octet.plus then
      let _ ← consume
      return LiteralMode.atOnce
    else
      return LiteralMode.onRequest)
  expect Octet.rbrace
  if ctx.maxLiteral < length then
    match mode with
    | .atOnce => fail (.literalTooLarge length ctx.maxLiteral)
    | .onRequest => reject (.literalTooLong length ctx.maxLiteral)
  else
    eol ctx.leniency
    return (length, mode)

/-- The octets of a literal, none of which is NUL. -/
def literalOctets (ctx : Context) : Decoder (List UInt8) := do
  let (length, mode) ← announcement ctx
  if mode = .onRequest then
    request
  let data ← take length
  match data.findIdx? fun b => !Octet.isChar8 b with
  | some i => reject (.nulInLiteral i)
  | none => return data

/-- A literal that is text. -/
def literal (ctx : Context) : Decoder String := do
  let data ← literalOctets ctx
  ofExcept ((ctx.charset.decode data).mapError .badText)

/-! ### Strings in any form -/

/-- A string in double quotes or as a literal. -/
def string (ctx : Context) : Decoder String := do
  let next ← peek
  if next == Octet.quote then quoted ctx.charset
  else if next == Octet.lbrace then literal ctx
  else unexpected next "string"

/-- A word of some class, or a string in double quotes or as a literal. -/
def wordOrString (p : UInt8 → Bool) (expected : String) (ctx : Context) : Decoder String := do
  let next ← peek
  if next == Octet.quote then quoted ctx.charset
  else if next == Octet.lbrace then literal ctx
  else return Octet.toText (← takeWhile1 p expected)

/-- A string in any form. -/
def astring (ctx : Context) : Decoder String := wordOrString Octet.isAstringChar "astring" ctx

/-- The name of a character set. -/
def charset (ctx : Context) : Decoder Charset := do
  let label ← astring { ctx with charset := .usAscii }
  match Charset.ofLabel? (Octet.ofText label) with
  | some c => return c
  | none => reject (.unknownCharset label)

end Decoder

end ImapRequest
