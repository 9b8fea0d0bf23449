import ImapRequest.Fetch.Basic
import ImapRequest.Sequence.Token

/-!
# Reading a body section from a token

The part of a section in front of a list of field names is a token of letters, digits and full
stops.  It names a section of the whole message, or a part by its path of numbers, or a section of
that part.  An empty token stands for the whole message.
-/

namespace ImapRequest

namespace SectionKind

open TokenReader

/-- The sections that have a name.  A name comes before every name that it starts with. -/
def named : List SectionKind := [headerFieldsNot, headerFields, header, text, mime]

/-- Reads the name of a section, in any letter case.  The longest name that fits is read. -/
def read : TokenReader SectionKind := fun bs =>
  let fits (k : SectionKind) : Bool :=
    Octet.sameLetters (Octet.ofText k.toText) (bs.take k.toText.length)
  match named.find? fits with
  | some k => .ok (k, bs.drop k.toText.length)
  | none => .error bs

/-- Reads up to `limit` numbers around full stops, and gives what is left after the last one. -/
def readPath : Nat → List UInt8 → List Nat × List UInt8
  | 0, bs => ([], bs)
  | limit + 1, bs =>
    match SequenceSet.readNumber bs with
    | .error _ => ([], bs)
    | .ok (n, rest) =>
      match rest with
      | Octet.dot :: after =>
        match readPath limit after with
        | ([], _) => ([n], rest)
        | (ns, left) => (n :: ns, left)
      | _ => ([n], rest)

/-- Reads the section of a part: a full stop and its name, or nothing for the whole part. -/
def readOfPart (bs : List UInt8) : SectionKind × List UInt8 :=
  match (do octet Octet.dot; read : TokenReader SectionKind) bs with
  | .ok r => r
  | .error _ => (content, bs)

/-- The path and the section that a whole token stands for. -/
def ofToken (token : List UInt8) : Except TokenFault (List Nat × SectionKind) :=
  let (path, kind, left) := match read token with
    | .ok (kind, left) => ([], kind, left)
    | .error _ =>
      match readPath token.length token with
      | ([], _) => ([], content, token)
      | (path, rest) =>
        let (kind, left) := readOfPart rest
        (path, kind, left)
  if left.isEmpty then .ok (path, kind) else .error (.malformed left)

end SectionKind

end ImapRequest
