import ImapRequest.Charset.Basic
import ImapRequest.Charset.Gb18030

/-!
# Characters of several octets

`Charset.read` judges the octets since the last complete character.  It covers every character set
but ISO-2022-JP, whose octets mean different things after different escape sequences
(`ImapRequest.Charset.Iso2022Jp`).

Of the East Asian sets only the characters that follow a rule are known: US-ASCII, the half-width
katakana, the private characters of Shift_JIS and the four-octet part of GB 18030.  The characters
that need the table of a national standard are left to a library that has it
(`ImapRequest.Charset.Transcoder`); here their octets are refused like malformed ones.
-/

namespace ImapRequest

namespace Charset

/-- The character with the number of an octet. -/
def single (b : UInt8) : Reading := .complete (Octet.toChar b)

/-- The character with the number of an octet below 0x80. -/
def ascii (b : UInt8) : Reading := if b < 0x80 then single b else .malformed

/-- The half-width katakana are numbered from U+FF61 on. -/
def katakana (n : Nat) : Reading := .complete (Char.ofNat (0xFF61 + n))

/-! ### UTF-16 -/

/-- A unit that is the first half of a character. -/
def isHighSurrogate (unit : Nat) : Bool := 0xD800 ≤ unit && unit < 0xDC00

/-- A unit that is the second half of a character. -/
def isLowSurrogate (unit : Nat) : Bool := 0xDC00 ≤ unit && unit < 0xE000

/-- Judges the units since the last complete character. -/
def readUnits : List Nat → Reading
  | [] => .incomplete
  | [u] =>
    if isHighSurrogate u then .incomplete
    else if isLowSurrogate u then .malformed
    else .complete (Char.ofNat u)
  | [u, v] =>
    if isLowSurrogate v then
      .complete (Char.ofNat (0x10000 + (u - 0xD800) * 1024 + (v - 0xDC00)))
    else .malformed
  | _ => .malformed

/-- Judges octets in UTF-16, where `unit` makes a unit of two octets. -/
def readUtf16 (unit : UInt8 → UInt8 → Nat) : List UInt8 → Reading
  | [a, b] => readUnits [unit a b]
  | [a, b, c, d] => readUnits [unit a b, unit c d]
  | bs => if bs.length < 4 then .incomplete else .malformed

/-- A unit of two octets, the more significant one first. -/
def bigEndian (a b : UInt8) : Nat := a.toNat * 256 + b.toNat

/-- A unit of two octets, the less significant one first. -/
def littleEndian (a b : UInt8) : Nat := bigEndian b a

/-! ### East Asian character sets -/

/-- The first octet of a longer character in GBK, Big5 and EUC-KR. -/
def isLead (b : UInt8) : Bool := 0x81 ≤ b && b ≤ 0xfe

/-- An octet in the upper half of a national table. -/
def isUpper (b : UInt8) : Bool := 0xa1 ≤ b && b ≤ 0xfe

/-- The octets of the half-width katakana. -/
def isKatakana (b : UInt8) : Bool := 0xa1 ≤ b && b ≤ 0xdf

/-- Judges octets in GB 18030, of which GBK is a part. -/
def readGb18030 : List UInt8 → Reading
  | [] => .incomplete
  | [a] =>
    if a < 0x80 then single a
    else if a == 0x80 then .complete '€'
    else if isLead a then .incomplete
    else .malformed
  | [_, b] => if Octet.isDigit b then .incomplete else .malformed
  | [_, _, c] => if isLead c then .incomplete else .malformed
  | [a, b, c, d] =>
    if Octet.isDigit d then
      match Gb18030.char? (Gb18030.sequenceNumber a b c d) with
      | some ch => .complete ch
      | none => .malformed
    else .malformed
  | _ => .malformed

/-- Judges octets in a set with US-ASCII and characters of two octets from a table. -/
def readDouble : List UInt8 → Reading
  | [] => .incomplete
  | [a] => if isLead a then .incomplete else ascii a
  | _ => .malformed

/-- Judges octets in EUC-JP. -/
def readEucJp : List UInt8 → Reading
  | [] => .incomplete
  | [a] => if a == 0x8e || a == 0x8f || isUpper a then .incomplete else ascii a
  | [a, b] =>
    if a == 0x8e then
      if isKatakana b then katakana (b.toNat - 0xa1) else .malformed
    else if a == 0x8f && isUpper b then .incomplete
    else .malformed
  | _ => .malformed

/-- The private character that two octets stand for in Shift_JIS, where the second octet has 188
values, which leave out 0x7f. -/
def shiftJisPrivate? (a b : UInt8) : Option Char :=
  if 0xf0 ≤ a && a ≤ 0xf9 && 0x40 ≤ b && b ≤ 0xfc && b != 0x7f then
    let column := if b < 0x7f then b.toNat - 0x40 else b.toNat - 0x41
    some (Char.ofNat (0xE000 + 188 * (a.toNat - 0xf0) + column))
  else none

/-- Judges octets in Shift_JIS. -/
def readShiftJis : List UInt8 → Reading
  | [] => .incomplete
  | [a] =>
    if a ≤ 0x80 then single a
    else if isKatakana a then katakana (a.toNat - 0xa1)
    else if (0x81 ≤ a && a ≤ 0x9f) || (0xe0 ≤ a && a ≤ 0xfc) then .incomplete
    else .malformed
  | [a, b] =>
    match shiftJisPrivate? a b with
    | some c => .complete c
    | none => .malformed
  | _ => .malformed

/-! ### All character sets -/

/-- Judges a single octet that may be a character by itself, or is none. -/
def readSingle (char? : UInt8 → Option Char) : List UInt8 → Reading
  | [] => .incomplete
  | [b] => match char? b with
    | some c => .complete c
    | none => .malformed
  | _ => .malformed

/-- The character of an octet in the set of private characters. -/
def userChar (b : UInt8) : Char :=
  if b < 0x80 then Octet.toChar b else Char.ofNat (0xF780 + (b.toNat - 0x80))

/-- Judges the octets since the last complete character. -/
def read : Charset → List UInt8 → Reading
  | usAscii | iso2022Jp => readSingle fun b => if b < 0x80 then some (Octet.toChar b) else none
  | utf8 => Utf8.read
  | utf16be => readUtf16 bigEndian
  | utf16le => readUtf16 littleEndian
  | codePage page => readSingle page.char?
  | userDefined => readSingle fun b => some (userChar b)
  | gbk | gb18030 => readGb18030
  | big5 | eucKr => readDouble
  | eucJp => readEucJp
  | shiftJis => readShiftJis

end Charset

end ImapRequest
