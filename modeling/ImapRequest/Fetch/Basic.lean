import ImapRequest.OneOrMore

/-!
# What a FETCH command asks for

A FETCH command asks for attributes of messages.  Most are there or not; parts of the content can
be asked for any number of times, each as a `BodyElement`.

* `BodyElement.ofParts` : the element with some parts, or the reason why they do not fit;
* `FetchData.add` : one more attribute;
* `FetchShorthand.expand` : the attributes that a shorthand stands for.
-/

namespace ImapRequest

/-- The name under which an element of the content was asked for. -/
inductive BodyName where
  /-- `BODY[...]` -/
  | body
  /-- `BODY.PEEK[...]` -/
  | bodyPeek
  /-- `RFC822`, another name of `BODY[]`. -/
  | rfc822
  /-- `RFC822.HEADER`, another name of `BODY.PEEK[HEADER]`. -/
  | rfc822Header
  /-- `RFC822.TEXT`, another name of `BODY[TEXT]`. -/
  | rfc822Text
  deriving DecidableEq, Repr

namespace BodyName

/-- Whether the content is shown without counting as read. -/
def isPeek : BodyName → Bool
  | bodyPeek | rfc822Header => true
  | _ => false

/-- The text of the name. -/
def toText : BodyName → String
  | body => "BODY"
  | bodyPeek => "BODY.PEEK"
  | rfc822 => "RFC822"
  | rfc822Header => "RFC822.HEADER"
  | rfc822Text => "RFC822.TEXT"

end BodyName

/-- The section of a message or of one of its parts. -/
inductive SectionKind where
  /-- All of it. -/
  | content
  | header
  /-- The header fields with some names. -/
  | headerFields
  /-- The header fields with other names. -/
  | headerFieldsNot
  /-- The header of a part that is no message. -/
  | mime
  | text
  deriving DecidableEq, Repr

namespace SectionKind

/-- The text of the section. -/
def toText : SectionKind → String
  | content => ""
  | header => "HEADER"
  | headerFields => "HEADER.FIELDS"
  | headerFieldsNot => "HEADER.FIELDS.NOT"
  | mime => "MIME"
  | text => "TEXT"

/-- Whether a list of field names belongs to the section. -/
def hasFieldNames : SectionKind → Bool
  | headerFields | headerFieldsNot => true
  | _ => false

end SectionKind

/-- A run of octets of the content. -/
structure OctetRun where
  /-- The number of octets before the run. -/
  firstOctet : Nat
  /-- The number of octets of the run, which is not zero. -/
  octets : Nat
  deriving DecidableEq, Repr

/-- A part of the content of a message. -/
structure BodyElement where
  name : BodyName
  kind : SectionKind
  /-- The numbers that lead to the part, the outermost first; none for the whole message. -/
  path : List Nat
  fieldNames : Option (OneOrMore String)
  run : Option OctetRun
  deriving DecidableEq, Repr

/-- Why the parts of an element do not fit. -/
inductive BodyElementError where
  /-- The section needs a list of field names. -/
  | missingFieldNames
  /-- The section has no list of field names. -/
  | unexpectedFieldNames
  /-- A whole message has no MIME header of its own. -/
  | mimeWithoutPart
  deriving DecidableEq, Repr

/-- The wording of an element error. -/
def BodyElementError.message : BodyElementError → String
  | missingFieldNames => "HEADER.FIELDS requires a list of field names"
  | unexpectedFieldNames => "Field names are only allowed with HEADER.FIELDS"
  | mimeWithoutPart => "MIME requires a part number"

namespace BodyElement

/-- The element with some parts, if they fit. -/
def ofParts (name : BodyName) (path : List Nat) (kind : SectionKind)
    (fieldNames : Option (OneOrMore String)) (run : Option OctetRun) :
    Except BodyElementError BodyElement :=
  if kind.hasFieldNames && fieldNames.isNone then .error .missingFieldNames
  else if !kind.hasFieldNames && fieldNames.isSome then .error .unexpectedFieldNames
  else if kind = .mime ∧ path = [] then .error .mimeWithoutPart
  else .ok { name, kind, path, fieldNames, run }

/-- A section of the whole message. -/
def whole (name : BodyName) (kind : SectionKind) : BodyElement :=
  { name, kind, path := [], fieldNames := none, run := none }

end BodyElement

/-- One attribute of a message. -/
inductive FetchItem where
  | envelope
  | flags
  | internalDate
  | size
  /-- The structure of the content, without extension data. -/
  | body
  | bodyStructure
  | uid
  | element (e : BodyElement)
  deriving DecidableEq, Repr

/-- All attributes that a FETCH command asks for. -/
structure FetchData where
  flags : Bool := false
  envelope : Bool := false
  body : Bool := false
  bodyStructure : Bool := false
  internalDate : Bool := false
  size : Bool := false
  uid : Bool := false
  /-- The parts of the content, in the order of the request. -/
  elements : List BodyElement := []
  deriving DecidableEq, Repr

namespace FetchData

/-- One more attribute. -/
def add (d : FetchData) : FetchItem → FetchData
  | .envelope => { d with envelope := true }
  | .flags => { d with flags := true }
  | .internalDate => { d with internalDate := true }
  | .size => { d with size := true }
  | .body => { d with body := true }
  | .bodyStructure => { d with bodyStructure := true }
  | .uid => { d with uid := true }
  | .element e => { d with elements := d.elements ++ [e] }

/-- The attributes of a list. -/
def ofItems (items : List FetchItem) : FetchData := items.foldl add {}

/-- Whether the messages count as read once the request is answered. -/
def setsSeen (d : FetchData) : Bool := d.elements.any fun e => !e.name.isPeek

/-- Whether nothing is asked for. -/
def isEmpty (d : FetchData) : Bool := d == {}

end FetchData

/-- A shorthand for several attributes. -/
inductive FetchShorthand where
  | all
  | fast
  | full
  deriving DecidableEq, Repr

namespace FetchShorthand

/-- The keyword of the shorthand. -/
def toText : FetchShorthand → String
  | all => "ALL"
  | fast => "FAST"
  | full => "FULL"

/-- What all shorthands ask for. -/
def common : FetchData := { flags := true, internalDate := true, size := true }

/-- The request that the shorthand stands for. -/
def expand : FetchShorthand → FetchData
  | fast => common
  | all => { common with envelope := true }
  | full => { common with envelope := true, body := true }

/-- The shorthand with an upper-case keyword. -/
def ofKeyword (keyword : String) : Option FetchShorthand :=
  [all, fast, full].find? fun s => s.toText == keyword

end FetchShorthand

end ImapRequest
