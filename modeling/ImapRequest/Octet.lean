/-!
# Octets and their classes

A request is a sequence of octets (`UInt8`).  This file names the octets that have a meaning of
their own, the character classes of the IMAP4rev1 grammar, and the ways an octet becomes text:

* `Octet.toText` : the text of octets that stand for the character of the same number;
* `Octet.upper` : the letter case in which keywords are compared;
* `Octet.escaped` : the printable form in which a message quotes an octet.
-/

namespace ImapRequest

namespace Octet

/-! ### Octets with a meaning of their own -/

/-- Horizontal tab. -/
@[match_pattern] def tab : UInt8 := 0x09

/-- Line feed, which ends every line. -/
@[match_pattern] def lf : UInt8 := 0x0a

/-- Carriage return. -/
@[match_pattern] def cr : UInt8 := 0x0d

/-- Space. -/
@[match_pattern] def sp : UInt8 := 0x20

/-- The double quote `"`. -/
@[match_pattern] def quote : UInt8 := 0x22

/-- The opening parenthesis. -/
@[match_pattern] def lparen : UInt8 := 0x28

/-- The closing parenthesis. -/
@[match_pattern] def rparen : UInt8 := 0x29

/-- The asterisk, the largest number in use. -/
@[match_pattern] def star : UInt8 := 0x2a

/-- The plus sign. -/
@[match_pattern] def plus : UInt8 := 0x2b

/-- The comma. -/
@[match_pattern] def comma : UInt8 := 0x2c

/-- The hyphen. -/
@[match_pattern] def minus : UInt8 := 0x2d

/-- The full stop. -/
@[match_pattern] def dot : UInt8 := 0x2e

/-- The colon. -/
@[match_pattern] def colon : UInt8 := 0x3a

/-- The less-than sign. -/
@[match_pattern] def less : UInt8 := 0x3c

/-- The greater-than sign. -/
@[match_pattern] def greater : UInt8 := 0x3e

/-- The opening bracket. -/
@[match_pattern] def lbracket : UInt8 := 0x5b

/-- The backslash. -/
@[match_pattern] def backslash : UInt8 := 0x5c

/-- The closing bracket. -/
@[match_pattern] def rbracket : UInt8 := 0x5d

/-- The opening brace, which starts the announcement of a literal. -/
@[match_pattern] def lbrace : UInt8 := 0x7b

/-- The closing brace. -/
@[match_pattern] def rbrace : UInt8 := 0x7d

/-! ### Character classes -/

/-- A decimal digit. -/
def isDigit (b : UInt8) : Bool := 0x30 ≤ b && b ≤ 0x39

/-- The value of a decimal digit. -/
def digitValue (b : UInt8) : Nat := b.toNat - 0x30

/-- An ASCII letter. -/
def isLetter (b : UInt8) : Bool := (0x41 ≤ b && b ≤ 0x5a) || (0x61 ≤ b && b ≤ 0x7a)

/-- An ASCII letter or a decimal digit. -/
def isAlphanumeric (b : UInt8) : Bool := isLetter b || isDigit b

/-- `CHAR`: a 7-bit octet other than NUL. -/
def isChar (b : UInt8) : Bool := 0x01 ≤ b && b ≤ 0x7f

/-- `CHAR8`: an octet other than NUL. -/
def isChar8 (b : UInt8) : Bool := b != 0

/-- `CTL`: a control character. -/
def isControl (b : UInt8) : Bool := b ≤ 0x1f || b == 0x7f

/-- `quoted-specials`: the octets that are escaped in a quoted string. -/
def isQuotedSpecial (b : UInt8) : Bool := b == quote || b == backslash

/-- `list-wildcards`: the octets that stand for other text in a mailbox pattern. -/
def isListWildcard (b : UInt8) : Bool := b == 0x25 || b == star

/-- `resp-specials`: the octet that ends a response code. -/
def isRespSpecial (b : UInt8) : Bool := b == rbracket

/-- `atom-specials`: the octets that end an atom. -/
def isAtomSpecial (b : UInt8) : Bool :=
  b == lparen || b == rparen || b == lbrace || b == sp || isControl b || isListWildcard b ||
    isQuotedSpecial b || isRespSpecial b

/-- `ATOM-CHAR`: a `CHAR` that does not end an atom. -/
def isAtomChar (b : UInt8) : Bool := isChar b && !isAtomSpecial b

/-- `ASTRING-CHAR`: an atom character or `]`. -/
def isAstringChar (b : UInt8) : Bool := isAtomChar b || isRespSpecial b

/-- `list-char`: an octet of an unquoted mailbox pattern. -/
def isListChar (b : UInt8) : Bool := isAtomChar b || isListWildcard b || isRespSpecial b

/-- The octets of a tag: every `ASTRING-CHAR` but `+`. -/
def isTagChar (b : UInt8) : Bool := isAstringChar b && b != plus

/-- The octets of a keyword such as a command name: letters, digits, `.`, `-` and `_`. -/
def isKeywordChar (b : UInt8) : Bool :=
  isAlphanumeric b || b == dot || b == minus || b == 0x5f

/-- The octets of a set of message numbers: digits, `:`, `*` and `,`. -/
def isSequenceSetChar (b : UInt8) : Bool := isDigit b || b == colon || b == star || b == comma

/-- A line break octet. -/
def isLineBreak (b : UInt8) : Bool := b == cr || b == lf

/-! ### Octets as text -/

/-- The character with the number of an octet. -/
def toChar (b : UInt8) : Char := Char.ofNat b.toNat

/-- The text of octets that stand for the characters of the same numbers. -/
def toText (bs : List UInt8) : String := String.ofList (bs.map toChar)

/-- The octets that encode a text in UTF-8. -/
def ofText (s : String) : List UInt8 := s.toList.flatMap String.utf8EncodeChar

/-- Lower-case ASCII letters become upper-case, everything else stays. -/
def upper (b : UInt8) : UInt8 := if 0x61 ≤ b && b ≤ 0x7a then b - 0x20 else b

/-- Whether two octet sequences differ in the case of ASCII letters only. -/
def sameLetters (xs ys : List UInt8) : Bool := xs.map upper == ys.map upper

/-- One hexadecimal digit, in lower case. -/
def hexDigit (n : Nat) : Char := Nat.digitChar n

/-- Two hexadecimal digits. -/
def hex (b : UInt8) : String :=
  String.ofList [hexDigit (b.toNat / 16), hexDigit (b.toNat % 16)]

/-- An octet as a message quotes it: printable ASCII as it is, `"`, `'` and `\` behind a
backslash, the usual short forms of tab, CR and LF, and `\xhh` for everything else. -/
def escaped (b : UInt8) : String :=
  if b == tab then "\\t"
  else if b == cr then "\\r"
  else if b == lf then "\\n"
  else if b == 0x27 then "\\'"
  else if b == quote then "\\\""
  else if b == backslash then "\\\\"
  else if 0x20 ≤ b && b < 0x7f then toText [b]
  else "\\x" ++ hex b

end Octet

/-- Whether two texts differ in the case of ASCII letters only. -/
def sameLetters (s t : String) : Bool :=
  s.toList.map Char.toUpper == t.toList.map Char.toUpper

end ImapRequest
