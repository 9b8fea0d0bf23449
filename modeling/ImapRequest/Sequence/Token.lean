import ImapRequest.Decimal
import ImapRequest.Sequence.Set
import ImapRequest.Token

/-!
# Reading a set of message numbers from a token

A token of digits, `:`, `*` and `,` is read from left to right.  Where an element or a second bound
can not be read, reading stops in front of the separator before it, and the token is malformed.
-/

namespace ImapRequest

namespace SequenceSet

open Octet

/-- Reads a number without a leading zero that is not too large. -/
def readNumber : TokenReader Nat := fun bs =>
  let ds := bs.takeWhile isDigit
  if ds.head?.all (· != 0x30) && !ds.isEmpty && decide (Decimal.value ds ≤ Decimal.maxNumber) then
    .ok (Decimal.value ds, bs.dropWhile isDigit)
  else .error bs

/-- Reads a bound: `*`, or a number. -/
def readBound : TokenReader Nat := fun bs =>
  match bs with
  | Octet.star :: rest => .ok (maxId, rest)
  | _ => readNumber bs

/-- Reads one element of a set: a bound, or two bounds around a colon. -/
def readRange : TokenReader IdRange := fun bs =>
  match readBound bs with
  | .error left => .error left
  | .ok (first, rest) =>
    let (second, rest) := match rest with
      | Octet.colon :: after => (readBound after).toOption.getD (first, rest)
      | _ => (first, rest)
    match IdRange.ofBounds first second with
    | .ok r => .ok (r, rest)
    | .error _ => .error bs

/-- Reads up to `limit` elements around commas, and gives what is left after the last one. -/
def readRanges : Nat → List UInt8 → List IdRange × List UInt8
  | 0, bs => ([], bs)
  | limit + 1, bs =>
    match readRange bs with
    | .error _ => ([], bs)
    | .ok (r, rest) =>
      match rest with
      | Octet.comma :: after =>
        match readRanges limit after with
        | ([], _) => ([r], rest)
        | (rs, left) => (r :: rs, left)
      | _ => ([r], rest)

/-- The set that a whole token stands for.  It has at most as many elements as octets. -/
def ofToken (token : List UInt8) : Except TokenFault SequenceSet :=
  match readRanges token.length token with
  | (rs, []) => match ofRanges rs with
    | .ok s => .ok s
    | .error _ => .error (.malformed token)
  | (_, left) => .error (.malformed left)

end SequenceSet

end ImapRequest
