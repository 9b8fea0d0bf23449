import ImapRequest.Octet

/-!
# UTF-8, one character at a time

`Utf8.read` judges the octets since the start of a character: they are a character, the start of
one, or neither.  A sequence is refused at the first octet that no character has at that place,
so overlong forms, surrogates and numbers above U+10FFFF are refused at their second octet.

* `Utf8.lossy` : the text of arbitrary octets, with U+FFFD for each longest start of a character
  that is not completed.
-/

namespace ImapRequest

/-- What the octets since the last complete character amount to. -/
inductive Reading where
  /-- They stand for this character. -/
  | complete (char : Char)
  /-- They may become a character when more octets follow. -/
  | incomplete
  /-- No character starts like this. -/
  | malformed
  deriving DecidableEq, Repr

namespace Utf8

/-- An octet `10xxxxxx`, which continues a character. -/
def isContinuation (b : UInt8) : Bool := 0x80 ≤ b && b ≤ 0xbf

/-- Whether `b` may follow the first octet `lead` of a character of two or more octets. -/
def isSecond (lead b : UInt8) : Bool :=
  if lead == 0xe0 then 0xa0 ≤ b && b ≤ 0xbf
  else if lead == 0xed then 0x80 ≤ b && b ≤ 0x9f
  else if lead == 0xf0 then 0x90 ≤ b && b ≤ 0xbf
  else if lead == 0xf4 then 0x80 ≤ b && b ≤ 0x8f
  else isContinuation b

/-- The six bits that a continuation octet carries. -/
def bits (b : UInt8) : Nat := b.toNat % 64

/-- The character with a number, which the octet classes keep inside the range of characters. -/
def char (n : Nat) : Reading := .complete (Char.ofNat n)

/-- Judges the octets since the start of a character. -/
def read : List UInt8 → Reading
  | [] => .incomplete
  | [a] =>
    if a < 0x80 then char a.toNat
    else if 0xc2 ≤ a && a ≤ 0xf4 then .incomplete
    else .malformed
  | [a, b] =>
    if !isSecond a b then .malformed
    else if a < 0xe0 then char (a.toNat % 32 * 64 + bits b)
    else .incomplete
  | [a, b, c] =>
    if !isContinuation c then .malformed
    else if a < 0xf0 then char (a.toNat % 16 * 4096 + bits b * 64 + bits c)
    else .incomplete
  | [a, b, c, d] =>
    if isContinuation d then
      char (a.toNat % 8 * 262144 + bits b * 4096 + bits c * 64 + bits d)
    else .malformed
  | _ => .malformed

/-- Stands for octets that are no character. -/
def replacement : Char := '\ufffd'

/-- The text of octets after the start `pending` of a character. -/
def lossyFrom (pending : List UInt8) : List UInt8 → List Char
  | [] => if pending.isEmpty then [] else [replacement]
  | b :: rest =>
    match read (pending ++ [b]) with
    | .complete c => c :: lossyFrom [] rest
    | .incomplete => lossyFrom (pending ++ [b]) rest
    | .malformed =>
      if pending.isEmpty then replacement :: lossyFrom [] rest
      else
        -- `b` is not part of the broken character and starts afresh.
        match read [b] with
        | .complete c => replacement :: c :: lossyFrom [] rest
        | .incomplete => replacement :: lossyFrom [b] rest
        | .malformed => replacement :: replacement :: lossyFrom [] rest

/-- The text of octets, where U+FFFD replaces each longest start of a character that is not
completed, and each octet that starts none. -/
def lossy (bs : List UInt8) : String := String.ofList (lossyFrom [] bs)

end Utf8

end ImapRequest
