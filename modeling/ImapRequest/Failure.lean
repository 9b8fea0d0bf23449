import ImapRequest.Charset.TextDecoder
import ImapRequest.Fetch.Basic
import ImapRequest.Token

/-!
# What can go wrong

A `DecodingError` says why a request can not be understood; the session goes on after it.  The
other failures end the connection: the source of octets fails or ends (`IoError`), or the client
sends more literal data, without waiting for permission, than is accepted.

* `DecodingError.kind`, `DecodingError.detail`, `DecodingError.found` : the parts of a report;
* `DecodingError.message`, `Failure.message` : the text of a report;
* `Failure.isFatal` : whether the connection ends.
-/

namespace ImapRequest

/-- Why a request can not be understood. -/
inductive DecodingError where
  /-- An octet is not one of those that may come here. -/
  | unexpected (found : UInt8) (expected : String)
  /-- A number exceeds 32 bits after this many digits, as they were counted. -/
  | numberOutOfRange (digits : Int)
  /-- A number must not be zero here. -/
  | zeroNumber
  /-- A literal that was announced is longer than the limit. -/
  | literalTooLong (length limit : Nat)
  /-- The data of a literal has a NUL at this index. -/
  | nulInLiteral (index : Nat)
  /-- A token can not be read. -/
  | invalidToken (kind : TokenKind) (token : List UInt8) (fault : TokenFault)
  /-- There is no command with this name. -/
  | unknownCommand (name : String)
  /-- The command has no form with `UID` in front. -/
  | uidNotAllowed (name : String)
  /-- There is no search key with this name. -/
  | unknownSearchKey (name : String)
  /-- Search keys are nested deeper than the limit. -/
  | nestedTooDeep (limit : Nat)
  /-- A space follows the last search key. -/
  | trailingSpace
  /-- There is no attribute with this name. -/
  | unknownFetchItem (name : String)
  /-- A run of octets must not be empty. -/
  | emptyRun
  /-- The parts of an element of the content do not fit. -/
  | invalidElement (error : BodyElementError)
  /-- A STORE command has this in the place of `FLAGS`. -/
  | unknownStoreItem (name : String)
  /-- There is no status item with this name. -/
  | unknownStatusItem (name : String)
  /-- A string is no text in its character set. -/
  | badText (error : TextError)
  /-- There is no character set with this label. -/
  | unknownCharset (label : String)
  deriving DecidableEq, Repr

/-- The kinds of reports. -/
inductive ErrorKind where
  | illegalArguments
  | badIoEncoding
  | badCharset
  deriving DecidableEq, Repr

namespace ErrorKind

/-- The name of a kind by which its text can be looked up. -/
def key : ErrorKind → String
  | illegalArguments => "imapd.illegal-arguments"
  | badIoEncoding => "imapd.bad-io-encoding"
  | badCharset => "imapd.bad-charset"

/-- The text of a kind. -/
def text : ErrorKind → String
  | illegalArguments => "Illegal arguments."
  | badIoEncoding => "Bad IO encoding."
  | badCharset => "Bad charset."

end ErrorKind

/-- A text in double quotes, as it is. -/
def inQuotes (s : String) : String := "\"" ++ s ++ "\""

namespace DecodingError

/-- The kind of a report. -/
def kind : DecodingError → ErrorKind
  | badText _ => .badIoEncoding
  | unknownCharset _ => .badCharset
  | _ => .illegalArguments

/-- The octet at fault, where it is reported. -/
def found : DecodingError → Option UInt8
  | unexpected found _ => some found
  | nulInLiteral _ => some 0
  | invalidToken _ _ fault => fault.found
  | badText error => error.found
  | _ => none

/-- The wording of a report after the text of its kind. -/
def detail : DecodingError → String
  | unexpected found expected =>
    "Expected " ++ expected ++ " but found " ++ Octet.escaped found
  | numberOutOfRange digits =>
    "Number out of range (more than 4294967295 with " ++ toString digits ++ " digits)"
  | zeroNumber => "Number must be non-zero"
  | literalTooLong length limit =>
    "Literal of " ++ toString length ++ " octets exceeds limit of " ++ toString limit ++ " octets"
  | nulInLiteral index => "Literal contains NUL at index " ++ toString index
  | invalidToken kind token fault =>
    "Invalid " ++ kind.name ++ " " ++ inQuotes (Utf8.lossy token) ++ ": " ++ fault.reason.text
  | unknownCommand name => "Unknown command " ++ inQuotes name
  | uidNotAllowed name => name ++ " can not be used with UID"
  | unknownSearchKey name => "Unknown search key " ++ inQuotes name
  | nestedTooDeep limit => "Search keys nested deeper than " ++ toString limit ++ " levels"
  | trailingSpace => "Trailing space after last search key"
  | unknownFetchItem name => "Unknown fetch attribute " ++ inQuotes name
  | emptyRun => "Number of octets must be non-zero"
  | invalidElement error => "Invalid section: " ++ error.message
  | unknownStoreItem name => "Expected FLAGS or FLAGS.SILENT but found " ++ inQuotes name
  | unknownStatusItem name => "Unknown status attribute " ++ inQuotes name
  | badText error => error.message
  | unknownCharset label => "Unsupported charset " ++ inQuotes label

/-- The text of a report. -/
def message (e : DecodingError) : String := e.kind.text ++ " " ++ e.detail

end DecodingError

/-- How a source of octets fails. -/
inductive IoError where
  /-- A source has no more octets. -/
  | endOfInput
  /-- A source without bulk operations has no more octets. -/
  | endOfOctets
  /-- A stream ended within octets that were taken at once. -/
  | shortRead
  | readerFailed
  | writerFailed
  deriving DecidableEq, Repr

/-- The wording of a failure of a source. -/
def IoError.message : IoError → String
  | endOfInput => "request ended unexpectedly"
  | endOfOctets => "end of minimal cursor"
  | shortRead => "failed to fill whole buffer"
  | readerFailed => "reader failed"
  | writerFailed => "writer failed"

/-- Why decoding stopped without a value. -/
inductive Failure where
  /-- The request can not be understood. -/
  | rejected (error : DecodingError)
  /-- The source of octets failed. -/
  | io (error : IoError)
  /-- The client sends a literal beyond the limit without waiting. -/
  | literalTooLarge (length limit : Nat)
  deriving DecidableEq, Repr

namespace Failure

/-- Whether the connection can not go on. -/
def isFatal : Failure → Bool
  | rejected _ => false
  | _ => true

/-- The text of a report. -/
def message : Failure → String
  | rejected error => error.message
  | io error => "I/O error: " ++ error.message
  | literalTooLarge length limit =>
    "Non-synchronizing literal of " ++ toString length ++ " octets exceeds limit of " ++
      toString limit ++ " octets"

end Failure

end ImapRequest
