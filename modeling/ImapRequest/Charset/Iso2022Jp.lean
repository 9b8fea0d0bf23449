import ImapRequest.Charset.Reading

/-!
# ISO-2022-JP

In ISO-2022-JP escape sequences choose what the octets after them mean: US-ASCII, its Japanese
variant, half-width katakana, or characters of two octets.  An escape sequence without any
character before the next one is an error, so that text can not be hidden in them.

* `Iso2022Jp.step` : reads one octet.
-/

namespace ImapRequest

namespace Iso2022Jp

/-- What octets mean after an escape sequence. -/
inductive Mode where
  | ascii
  /-- US-ASCII with a yen sign and an overline in the places of backslash and tilde. -/
  | roman
  | katakana
  /-- Characters of two octets, which need a table. -/
  | double
  deriving DecidableEq, Repr

/-- Where a text stands between two octets. -/
structure State where
  /-- The octets of a sequence that is not complete. -/
  pending : List UInt8 := []
  mode : Mode := .ascii
  /-- Whether the last thing read is an escape sequence. -/
  escaped : Bool := false
  deriving DecidableEq, Repr

/-- The octet that starts an escape sequence. -/
def escape : UInt8 := 0x1b

/-- The shift octets of other standards, which are not allowed. -/
def isShift (b : UInt8) : Bool := b == 0x0e || b == 0x0f

/-- The character of an octet in a mode with characters of one octet. -/
def char? (mode : Mode) (b : UInt8) : Option Char :=
  match mode with
  | .ascii => if b < 0x80 && !isShift b then some (Octet.toChar b) else none
  | .roman =>
    if b == 0x5c then some '¥'
    else if b == 0x7e then some '‾'
    else if b < 0x80 && !isShift b then some (Octet.toChar b)
    else none
  | .katakana =>
    if 0x21 ≤ b && b ≤ 0x5f then some (Char.ofNat (0xFF61 + (b.toNat - 0x21))) else none
  | .double => none

/-- The mode that an escape sequence chooses by the two octets after its first. -/
def mode? (a b : UInt8) : Option Mode :=
  if a == 0x28 && b == 0x42 then some .ascii
  else if a == 0x28 && b == 0x4a then some .roman
  else if a == 0x28 && b == 0x49 then some .katakana
  else if a == 0x24 && (b == 0x40 || b == 0x42) then some .double
  else none

/-- Reads one octet: the text that it completes and the state after it, unless the octet makes the
text malformed. -/
def step (s : State) (b : UInt8) : Option (List Char × State) :=
  match s.pending with
  | [] =>
    if b == escape then some ([], { s with pending := [b] })
    else if s.mode = .double then
      if 0x21 ≤ b && b ≤ 0x7e then some ([], { s with pending := [b], escaped := false }) else none
    else (char? s.mode b).map fun c => ([c], { s with escaped := false })
  | [a] =>
    if a == escape && (b == 0x24 || b == 0x28) then some ([], { s with pending := [a, b] })
    else none
  | _ :: a :: _ =>
    match mode? a b with
    | some mode => if s.escaped then none else some ([], { pending := [], mode, escaped := true })
    | none => none

end Iso2022Jp

end ImapRequest
