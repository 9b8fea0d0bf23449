import ImapRequest.Charset.Iso2022Jp

/-!
# Converting octets by calls

Octets become text by calls of a `Transcoder`, which a library of character sets provides.  A call
writes only as much text as there is room for in the output, and reports how many octets it has
read for it, so that it can be made again on the octets behind them.

* `Transcoder` : the calls;
* `TextBuffer` : an output, with the room that it has;
* `Charset.transcoder` : the calls for the characters that follow a rule.
-/

namespace ImapRequest

/-- How a call ends. -/
inductive CallResult where
  /-- All octets were read. -/
  | inputEmpty
  /-- There is no room for the next character. -/
  | outputFull
  /-- The octets are no text. -/
  | malformed
  deriving DecidableEq, Repr

/-- What a call does. -/
structure Call (σ : Type) where
  result : CallResult
  /-- The number of octets that were read. -/
  read : Nat
  /-- The characters that were written. -/
  written : List Char
  /-- Where the text stands behind the octets that were read. -/
  state : σ

/-- A library that converts octets of all character sets but US-ASCII to text. -/
structure Transcoder where
  /-- Where a text stands between two octets. -/
  State : Type
  /-- Where a text starts. -/
  start : Charset → State
  /-- Converts octets, the last ones or not, where there is room for so many octets of UTF-8. -/
  call : Charset → State → List UInt8 → Nat → Bool → Call State

/-- A text that grows, with room for octets of its UTF-8. -/
structure TextBuffer where
  text : List Char := []
  capacity : Nat := 0
  deriving DecidableEq, Repr

namespace TextBuffer

/-- The number of octets of a text in UTF-8. -/
def size : List Char → Nat
  | [] => 0
  | c :: text => c.utf8Size + size text

/-- The number of octets that there is room for. -/
def room (b : TextBuffer) : Nat := b.capacity - size b.text

/-- Makes room for `count` more octets. -/
def reserve (b : TextBuffer) (count : Nat) : TextBuffer :=
  { b with capacity := max b.capacity (size b.text + count) }

/-- More text, for which there is room. -/
def write (b : TextBuffer) (text : List Char) : TextBuffer := { b with text := b.text ++ text }

/-- More text, for which room is made. -/
def extend (b : TextBuffer) (text : List Char) : TextBuffer :=
  (b.reserve (size text)).write text

end TextBuffer

namespace Charset

/-! ### Characters that follow a rule -/

/-- Where a text stands between two octets. -/
abbrev State := Iso2022Jp.State

/-- Reads one octet: the text that it completes and the state after it, unless the octet makes the
text malformed. -/
def step (c : Charset) (s : State) (b : UInt8) : Option (List Char × State) :=
  if c = iso2022Jp then Iso2022Jp.step s b
  else match c.read (s.pending ++ [b]) with
    | .complete char => some ([char], { s with pending := [] })
    | .incomplete => some ([], { s with pending := s.pending ++ [b] })
    | .malformed => none

/-- Whether a text may end. -/
def mayEnd (s : State) : Bool := s.pending.isEmpty

/-- A call behind one more octet, which completes `text`. -/
def after (text : List Char) (call : Call State) : Call State :=
  { call with read := call.read + 1, written := text ++ call.written }

/-- Reads octets one by one for as long as there is room for what they complete. -/
def convert (c : Charset) (s : State) : List UInt8 → Nat → Bool → Call State
  | [], _, last => ⟨if last && !mayEnd s then .malformed else .inputEmpty, 0, [], s⟩
  | b :: bs, room, last =>
    match c.step s b with
    | none => ⟨.malformed, 1, [], s⟩
    | some (text, s') =>
      if room < TextBuffer.size text then ⟨.outputFull, 0, [], s⟩
      else after text (c.convert s' bs (room - TextBuffer.size text) last)

/-- The calls for the characters that follow a rule. -/
def transcoder : Transcoder where
  State := State
  start _ := {}
  call := convert

end Charset

end ImapRequest
