import ImapRequest.Decoder.Text
import ImapRequest.Fetch.Section

/-!
# Decoding what a FETCH command asks for

The attributes are one attribute, a list of them in parentheses, or a shorthand that stands for a
list and can not be part of one.
-/

namespace ImapRequest

namespace BodyElement

/-- The octets of a section in front of a list of field names. -/
def isSectionChar (b : UInt8) : Bool := Octet.isAlphanumeric b || b == Octet.dot

/-- The octets of the name of a header field that is not a string: those of strings, except that
the bracket ends the section. -/
def isFieldNameChar (b : UInt8) : Bool := Octet.isAstringChar b && b != Octet.rbracket

/-- The name of a header field. -/
def decodeFieldName (ctx : Context) : Decoder String :=
  Decoder.wordOrString isFieldNameChar "header field name" ctx

/-- One or more names of header fields in parentheses. -/
def decodeFieldNames (ctx : Context) : Decoder (OneOrMore String) := do
  Decoder.expect Octet.lparen
  Decoder.oneOrMore Decoder.listContinues (decodeFieldName ctx)

/-- A run of octets between angle brackets: the number of octets before it, and its length. -/
def decodeRun : Decoder OctetRun := do
  Decoder.expect Octet.less
  let firstOctet ← Decoder.number
  Decoder.expect Octet.dot
  let octets ← Decoder.number
  Decoder.expect Octet.greater
  if octets = 0 then Decoder.reject .emptyRun else return { firstOctet, octets }

/-- A section in brackets, and the run of octets that may follow it. -/
def decode (ctx : Context) (name : BodyName) : Decoder BodyElement := do
  Decoder.expect Octet.lbracket
  let octets ← Decoder.takeWhile isSectionChar
  let (path, kind) ← Decoder.token .bodySection SectionKind.ofToken octets
  let fieldNames ← (do
    if kind.hasFieldNames then
      Decoder.sp
      return some (← decodeFieldNames ctx)
    else
      return none)
  Decoder.expect Octet.rbracket
  let run ← (do
    if ← Decoder.nextIs Octet.less then
      return some (← decodeRun)
    else
      return none)
  Decoder.ofExcept ((ofParts name path kind fieldNames run).mapError .invalidElement)

end BodyElement

namespace FetchItem

/-- The attributes that are named by one word. -/
def named : List (String × FetchItem) :=
  [("ENVELOPE", .envelope), ("FLAGS", .flags), ("INTERNALDATE", .internalDate),
    ("RFC822.SIZE", .size), ("BODYSTRUCTURE", .bodyStructure), ("UID", .uid),
    ("RFC822", .element (.whole .rfc822 .content)),
    ("RFC822.HEADER", .element (.whole .rfc822Header .header)),
    ("RFC822.TEXT", .element (.whole .rfc822Text .text))]

/-- The rest of an attribute after its upper-case keyword.  `BODY` is an element of the content
when a bracket follows. -/
def decodeNamed (ctx : Context) (word : String) : Decoder FetchItem :=
  match named.lookup word with
  | some item => return item
  | none =>
    if word = "BODY" then do
      if ← Decoder.nextIs Octet.lbracket then
        return .element (← BodyElement.decode ctx .body)
      else
        return .body
    else if word = "BODY.PEEK" then
      return .element (← BodyElement.decode ctx .bodyPeek)
    else
      Decoder.reject (.unknownFetchItem word)

/-- An attribute. -/
def decode (ctx : Context) : Decoder FetchItem := do
  let word ← Decoder.keyword
  decodeNamed ctx word

end FetchItem

namespace FetchData

/-- All attributes of a FETCH command. -/
def decode (ctx : Context) : Decoder FetchData := do
  if (← Decoder.peek) == Octet.lparen then
    let _ ← Decoder.consume
    let items ← Decoder.oneOrMore Decoder.listContinues (FetchItem.decode ctx)
    return ofItems items.toList
  else
    let word ← Decoder.keyword
    match FetchShorthand.ofKeyword word with
    | some shorthand => return shorthand.expand
    | none => return ofItems [← FetchItem.decodeNamed ctx word]

end FetchData

end ImapRequest
