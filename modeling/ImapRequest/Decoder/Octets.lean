import ImapRequest.Decoder

/-!
# Octets and runs of octets

The smallest pieces of a request: a given octet, the separators of lists, and the longest run of
octets of some class.

* `Decoder.expect` : one given octet; any other is left where it is;
* `Decoder.takeWhile` : the longest run of octets of a class, which the end of input ends as well;
* `Decoder.keyword` : a word in upper case, such as the name of a command.
-/

namespace ImapRequest

namespace Decoder

/-! ### Single octets -/

/-- One given octet; any other is left where it is. -/
def expect (expected : UInt8) : Decoder Unit := do
  let next ← peek
  if next == expected then
    let _ ← consume
  else
    unexpected next (inQuotes (Octet.escaped expected))

/-- A single space. -/
def sp : Decoder Unit := do
  let next ← peek
  if next == Octet.sp then
    let _ ← consume
  else
    unexpected next "SP"

/-- The octet after an element of a list in parentheses: a space announces another element, the
closing parenthesis ends the list. -/
def listContinues : Decoder Bool := do
  let next ← peek
  if next == Octet.sp then
    let _ ← consume
    return true
  else if next == Octet.rparen then
    let _ ← consume
    return false
  else
    unexpected next "SP or \")\""

/-- Whether the octet at the position is a given one; nothing is at the end of input. -/
def nextIs (b : UInt8) : Decoder Bool := do
  if ← isConsumed then
    return false
  else
    return (← peek) == b

/-- Moves behind spaces and tabs, at most `limit` of them, and gives the octet after them. -/
def skipBlanksUpTo : Nat → Decoder UInt8
  | 0 => peek
  | limit + 1 => do
    let next ← peek
    if next == Octet.sp || next == Octet.tab then
      let _ ← consume
      skipBlanksUpTo limit
    else
      return next

/-- Moves behind spaces and tabs and gives the octet after them. -/
def skipBlanks : Decoder UInt8 := do skipBlanksUpTo (← bound)

/-! ### Runs of octets -/

/-- The longest run of octets of a class, of at most `limit` octets. -/
def takeWhileUpTo (p : UInt8 → Bool) : Nat → Decoder (List UInt8)
  | 0 => pure []
  | limit + 1 => do
    if ← isConsumed then
      return []
    else
      let next ← peek
      if p next then
        let b ← consume
        let bs ← takeWhileUpTo p limit
        return b :: bs
      else
        return []

/-- The longest run of octets of a class.  The end of input ends it as well. -/
def takeWhile (p : UInt8 → Bool) : Decoder (List UInt8) := do takeWhileUpTo p (← bound)

/-- The longest run of octets of a class, which must not be empty. -/
def takeWhile1 (p : UInt8 → Bool) (expected : String) : Decoder (List UInt8) := do
  let bs ← takeWhile p
  if bs.isEmpty then
    unexpected (← peek) expected
  else
    return bs

/-- A keyword in upper case: letters, digits, `.`, `-` and `_`. -/
def keyword : Decoder String := do
  let bs ← takeWhile1 Octet.isKeywordChar "keyword"
  return Octet.toText (bs.map Octet.upper)

/-- A token that was taken from the request, read as a whole. -/
def token {α : Type} (kind : TokenKind) (read : List UInt8 → Except TokenFault α)
    (octets : List UInt8) : Decoder α :=
  match read octets with
  | .ok a => pure a
  | .error fault => reject (.invalidToken kind octets fault)

end Decoder

end ImapRequest
