import ImapRequest.Charset.Transcoder

/-!
# Decoding text piece by piece

A `PieceDecoder` is fed the octets of a text in pieces and collects the text in an output, which it
enlarges whenever it is full.  Where the text stands between two pieces is up to the library that
converts it.

* `PieceDecoder.convertUpTo` : calls the library until a piece is read;
* `PieceDecoder.feed` : reads one piece; after the last one no character may be incomplete;
* `TextDecoder` : the decoder of requests, for the characters that follow a rule;
* `Charset.decode` : the text of octets that are there as a whole.
-/

namespace ImapRequest

/-- Why octets are no text. -/
inductive TextError where
  /-- US-ASCII has no such octet. -/
  | notAscii (found : UInt8)
  /-- The octets are no text in this character set. -/
  | malformed (charset : Charset)
  deriving DecidableEq, Repr

namespace TextError

/-- The wording of a text error. -/
def message : TextError → String
  | notAscii _ => "Non US-ASCII byte in US-ASCII string"
  | malformed charset => "Malformed " ++ charset.name ++ " data"

/-- The octet at fault, where it is reported. -/
def found : TextError → Option UInt8
  | notAscii found => some found
  | malformed _ => none

end TextError

/-- A text of which some pieces were read, by the calls of a library. -/
structure PieceDecoder (L : Transcoder) where
  charset : Charset
  /-- Where the library stands, except in US-ASCII. -/
  state : L.State
  /-- The text so far. -/
  output : TextBuffer

namespace PieceDecoder

variable {L : Transcoder}

/-- Nothing was read yet. -/
def start (L : Transcoder) (charset : Charset) : PieceDecoder L :=
  { charset, state := L.start charset, output := {} }

/-- The least number of octets by which the room of a full output is enlarged. -/
def minGrowth : Nat := 32

/-- The room that an output has is doubled, if that is not too little. -/
def grow (d : PieceDecoder L) : PieceDecoder L :=
  { d with output := d.output.reserve (max d.output.capacity minGrowth) }

/-- The text and the state behind a call. -/
def advance (d : PieceDecoder L) (call : Call L.State) : PieceDecoder L :=
  { d with state := call.state, output := d.output.write call.written }

/-- Calls the library on what is left of a piece, with more room whenever the output is full, at
most `limit` times. -/
def convertUpTo : Nat → PieceDecoder L → List UInt8 → Bool → Except TextError (PieceDecoder L)
  | 0, d, _, _ => .ok d
  | limit + 1, d, piece, last =>
    let call := L.call d.charset d.state piece d.output.room last
    match call.result with
    | .inputEmpty => .ok (d.advance call)
    | .outputFull => convertUpTo limit (d.advance call).grow (piece.drop call.read) last
    | .malformed => .error (.malformed d.charset)

/-- Reads a piece in US-ASCII, unless an octet of it is not. -/
def feedAscii (d : PieceDecoder L) (piece : List UInt8) : Except TextError (PieceDecoder L) :=
  match piece.find? fun b => 0x80 ≤ b with
  | some b => .error (.notAscii b)
  | none => .ok { d with output := d.output.extend (piece.map Octet.toChar) }

/-- Reads the next piece.  No character may be incomplete after the last one.  Every call but the
first finds room for a character, so there are not many more calls than octets. -/
def feed (d : PieceDecoder L) (piece : List UInt8) (last : Bool) :
    Except TextError (PieceDecoder L) :=
  if d.charset = .usAscii then d.feedAscii piece
  else convertUpTo (piece.length + 2) d piece last

/-- The text so far. -/
def finish (d : PieceDecoder L) : String := String.ofList d.output.text

/-- Reads pieces in order, of which the last is marked when `closed` holds.  An error comes with
the index of its piece, counted from `index`. -/
def feedAll (d : PieceDecoder L) (closed : Bool) (index : Nat) :
    List (List UInt8) → Except (TextError × Nat) (PieceDecoder L)
  | [] => .ok d
  | piece :: rest =>
    match d.feed piece (closed && rest.isEmpty) with
    | .error e => .error (e, index)
    | .ok d' => d'.feedAll closed (index + 1) rest

end PieceDecoder

/-- A text of which some pieces were read, with the characters that follow a rule. -/
abbrev TextDecoder := PieceDecoder Charset.transcoder

/-- Nothing was read yet. -/
def TextDecoder.new (charset : Charset) : TextDecoder := .start _ charset

/-- The text that a library makes of octets that are there as a whole. -/
def Transcoder.decode (L : Transcoder) (c : Charset) (bs : List UInt8) : Except TextError String :=
  (·.finish) <$> (PieceDecoder.start L c).feed bs true

/-- The text of octets that are there as a whole. -/
def Charset.decode (c : Charset) (bs : List UInt8) : Except TextError String :=
  (·.finish) <$> (TextDecoder.new c).feed bs true

end ImapRequest
