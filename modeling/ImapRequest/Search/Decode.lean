import ImapRequest.Calendar.Decode
import ImapRequest.Decoder.Text
import ImapRequest.Search.Basic
import ImapRequest.Sequence.Decode

/-!
# Decoding search keys

A search key is a keyword and its arguments, a set of sequence numbers, or a list of keys in
parentheses.  Keys may be nested at most `SearchKey.maxLevel` deep.

* `SearchKey.decode` : one key, at some level;
* `SearchKey.decodeCriteria` : all keys of a SEARCH command, and the character set of their
  strings if the client names one.
-/

namespace ImapRequest

/-- The arguments that follow the keyword of a search key, and the key that they make. -/
inductive SearchForm where
  /-- There are none. -/
  | plain (key : SearchKey)
  | text (make : String → SearchKey)
  /-- A field name and a text. -/
  | header
  | flag (make : Atom → SearchKey)
  | date (make : Date → SearchKey)
  | number (make : Nat → SearchKey)
  /-- A number above zero. -/
  | positive (make : Nat → SearchKey)
  | set (make : SequenceSet → SearchKey)
  /-- One key. -/
  | not
  /-- Two keys. -/
  | or

namespace SearchKey

/-- The deepest level at which keys may be nested. -/
def maxLevel : Nat := 128

/-- The keywords of search keys. -/
def forms : List (String × SearchForm) :=
  [("ALL", .plain all), ("ANSWERED", .plain answered), ("DELETED", .plain deleted),
    ("DRAFT", .plain draft), ("FLAGGED", .plain flagged), ("NEW", .plain new),
    ("OLD", .plain old), ("RECENT", .plain recent), ("SEEN", .plain seen),
    ("UNANSWERED", .plain unanswered), ("UNDELETED", .plain undeleted),
    ("UNDRAFT", .plain undraft), ("UNFLAGGED", .plain unflagged), ("UNSEEN", .plain unseen),
    ("BCC", .text bcc), ("BODY", .text body), ("CC", .text cc), ("FROM", .text «from»),
    ("SUBJECT", .text subject), ("TEXT", .text text), ("TO", .text «to»),
    ("HEADER", .header), ("KEYWORD", .flag keyword), ("UNKEYWORD", .flag unkeyword),
    ("BEFORE", .date before), ("ON", .date on), ("SINCE", .date since),
    ("SENTBEFORE", .date sentBefore), ("SENTON", .date sentOn), ("SENTSINCE", .date sentSince),
    ("LARGER", .number larger), ("SMALLER", .number smaller),
    ("OLDER", .positive older), ("YOUNGER", .positive younger),
    ("UID", .set uid), ("NOT", .not), ("OR", .or)]

/-- A space and the arguments of a form; `key` decodes the keys among them. -/
def decodeForm (ctx : Context) (key : Decoder SearchKey) : SearchForm → Decoder SearchKey
  | .plain k => return k
  | .text make => do
    Decoder.sp
    return make (← Decoder.astring ctx)
  | .header => do
    Decoder.sp
    let field ← Decoder.astring ctx
    Decoder.sp
    let text ← Decoder.astring ctx
    return .header field text
  | .flag make => do
    Decoder.sp
    return make (← Atom.decode)
  | .date make => do
    Decoder.sp
    return make (← Date.decode)
  | .number make => do
    Decoder.sp
    return make (← Decoder.number)
  | .positive make => do
    Decoder.sp
    return make (← Decoder.positive)
  | .set make => do
    Decoder.sp
    return make (← SequenceSet.decode)
  | .not => do
    Decoder.sp
    return .not (← key)
  | .or => do
    Decoder.sp
    let left ← key
    Decoder.sp
    let right ← key
    return .or left right

/-- The rest of a key after its upper-case keyword. -/
def decodeNamed (ctx : Context) (key : Decoder SearchKey) (word : String) : Decoder SearchKey :=
  match forms.lookup word with
  | some form => decodeForm ctx key form
  | none => Decoder.reject (.unknownSearchKey word)

/-- A key, in which keys may be nested `levels` deep. -/
def decodeWithin (ctx : Context) : Nat → Decoder SearchKey
  | 0 => Decoder.reject (.nestedTooDeep maxLevel)
  | levels + 1 => do
    let next ← Decoder.peek
    if next == Octet.lparen then
      let _ ← Decoder.consume
      let keys ← Decoder.oneOrMore Decoder.listContinues (decodeWithin ctx levels)
      return conjunction keys
    else if Octet.isDigit next || next == Octet.star then
      return .sequenceSet (← SequenceSet.decode)
    else if Octet.isLetter next then
      let word ← Decoder.keyword
      decodeNamed ctx (decodeWithin ctx levels) word
    else
      Decoder.unexpected next "search key"

/-- A key at some level, where the outermost keys are at level 1. -/
def decode (ctx : Context) (level : Nat) : Decoder SearchKey :=
  decodeWithin ctx (maxLevel + 1 - level)

/-- Whether a space announces another key.  A space in front of the line break announces none; it
is an error unless it is accepted. -/
def criteriaContinue (leniency : Leniency) : Decoder Bool := do
  if ← Decoder.nextIs Octet.sp then
    let _ ← Decoder.consume
    if Octet.isLineBreak (← Decoder.peek) then
      if leniency.trailingSpace then return false else Decoder.reject .trailingSpace
    else
      return true
  else
    return false

/-- The keys after a first one, all of which have to match. -/
def decodeConjunction (ctx : Context) (first : SearchKey) : Decoder SearchKey := do
  let more ← Decoder.many (criteriaContinue ctx.leniency) (decode ctx 1)
  return conjunction { head := first, tail := more }

/-- All keys of a SEARCH command, and the character set of their strings if the client names
one. -/
def decodeCriteria (ctx : Context) : Decoder (Option Charset × SearchKey) := do
  if Octet.isLetter (← Decoder.peek) then
    let word ← Decoder.keyword
    if word = "CHARSET" then
      Decoder.sp
      let charset ← Decoder.charset ctx
      let ctx := { ctx with charset }
      Decoder.sp
      let first ← decode ctx 1
      return (some charset, ← decodeConjunction ctx first)
    else
      let first ← decodeNamed ctx (decode ctx 2) word
      return (none, ← decodeConjunction ctx first)
  else
    let first ← decode ctx 1
    return (none, ← decodeConjunction ctx first)

end SearchKey

end ImapRequest
