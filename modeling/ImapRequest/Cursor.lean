import ImapRequest.Failure

/-!
# Cursors

A `Cursor` is a reading position in the octets of a client.  Behind it stands a source of one of
three kinds: octets that are in memory as a whole, a source that hands out one octet at a time, and
a stream that shows its octets window by window and may break.

Everything above this file reads through six operations: `Cursor.peek`, `Cursor.consume`,
`Cursor.isConsumed`, `Cursor.take`, `Cursor.skip` and `Cursor.request`, which asks the client for
the data of a literal.  Each gives an answer and the cursor after it; also a failure may have moved
the cursor.
-/

namespace ImapRequest

/-- A transport that is read and written as a stream. -/
structure Link where
  /-- The largest number of octets that are shown at once. -/
  window : Nat
  /-- The numbers of octets that the first reads bring in.  What is left of such a read is shown
  before the next one is made. -/
  reads : List Nat := []
  /-- Whether reading fails, instead of ending, after the last octet. -/
  breaks : Bool := false
  /-- Writing fails once this many octets were written. -/
  writeLimit : Option Nat := none
  /-- The octets written so far. -/
  written : List UInt8 := []
  deriving DecidableEq, Repr

namespace Link

/-- The number of octets that are left, at a position, of the read that brought them in. -/
def leftOfRead : List Nat → Nat → Option Nat
  | [], _ => none
  | n :: reads, position =>
    if position < n then some (n - position) else leftOfRead reads (position - n)

/-- The number of octets that are shown at a position, if there are so many. -/
def windowAt (link : Link) (position : Nat) : Nat :=
  min link.window ((leftOfRead link.reads position).getD link.window)

end Link

/-- What stands behind a cursor. -/
inductive Source where
  /-- All octets are in memory. -/
  | memory
  /-- Octets are handed out one at a time, and there are no operations on more of them. -/
  | octets
  /-- Octets come over a transport. -/
  | stream (link : Link)
  deriving DecidableEq, Repr

/-- A reading position in the octets of a client. -/
structure Cursor where
  /-- The octets from the position on, as far as they ever arrive. -/
  rest : List UInt8
  /-- The number of octets before the position. -/
  position : Nat := 0
  /-- The positions at which the client was asked for the data of a literal, in order. -/
  requests : List Nat := []
  source : Source := .memory
  deriving DecidableEq, Repr

/-- What the client is told when it may send the data of a literal. -/
def goAhead : List UInt8 := Octet.ofText "+ Ok\r\n"

namespace Cursor

/-- A cursor over octets in memory. -/
def ofOctets (bs : List UInt8) : Cursor := { rest := bs }

/-- A cursor over a source that hands out one octet at a time. -/
def ofSingleOctets (bs : List UInt8) : Cursor := { rest := bs, source := .octets }

/-- A cursor over a stream with the given window.  If the stream breaks after `breakAfter` octets,
the octets from there on never arrive; a stream with empty windows shows nothing at all. -/
def ofStream (bs : List UInt8) (window : Nat) (breakAfter writeLimit : Option Nat) : Cursor :=
  let breaks := breakAfter.any fun n => decide (n ≤ bs.length)
  { rest := bs.take (breakAfter.getD bs.length)
    source := .stream { window, breaks, writeLimit } }

/-- The position after `n` more octets. -/
def advance (c : Cursor) (n : Nat) : Cursor :=
  { c with rest := c.rest.drop n, position := c.position + n }

/-- The failure at the end of the octets. -/
def endError (c : Cursor) : IoError :=
  match c.source with
  | .octets => .endOfOctets
  | _ => .endOfInput

/-- The octets that the source shows from the position on, which are at least one unless there are
none. -/
def shown (c : Cursor) : Except IoError (List UInt8) :=
  match c.source with
  | .stream link =>
    if c.rest.isEmpty && link.breaks then .error .readerFailed
    else .ok (c.rest.take (link.windowAt c.position))
  | _ => .ok c.rest

/-- The first octet that the source shows, if it shows any. -/
def front (c : Cursor) : Except IoError (Option UInt8) :=
  match c.source with
  | .stream link =>
    if c.rest.isEmpty && link.breaks then .error .readerFailed
    else .ok (if link.windowAt c.position = 0 then none else c.rest.head?)
  | _ => .ok c.rest.head?

theorem front_eq_map_shown (c : Cursor) : c.front = c.shown.map List.head? := by
  unfold front shown
  cases c.source with
  | memory => rfl
  | octets => rfl
  | stream link =>
    by_cases h : (c.rest.isEmpty && link.breaks) = true <;>
      simp [h, Except.map, List.head?_take]

/-- The octet at the position. -/
def peek (c : Cursor) : Except IoError UInt8 :=
  match c.front with
  | .ok (some b) => .ok b
  | .ok none => .error c.endError
  | .error e => .error e

/-- The octet at the position, which moves behind it. -/
def consume (c : Cursor) : Except IoError UInt8 × Cursor :=
  match c.peek with
  | .ok b => (.ok b, c.advance 1)
  | .error e => (.error e, c)

/-- Whether the source shows nothing more.  A broken source shows nothing either; its failure comes
with the next octet that is asked for. -/
def isConsumed (c : Cursor) : Bool :=
  match c.front with
  | .ok b => b.isNone
  | .error _ => true

/-- Takes octets one by one. -/
def takeSingly : Nat → Cursor → Except IoError (List UInt8) × Cursor
  | 0, c => (.ok [], c)
  | n + 1, c =>
    match c.consume with
    | (.ok b, c) =>
      match takeSingly n c with
      | (.ok bs, c) => (.ok (b :: bs), c)
      | (.error e, c) => (.error e, c)
    | (.error e, c) => (.error e, c)

/-- Takes octets window by window, as many windows as `limit` allows; `short` is the failure when
the source ends before. -/
def takeWindows (short : IoError) : Nat → Nat → Cursor → Except IoError (List UInt8) × Cursor
  | _, 0, c => (.ok [], c)
  | 0, _ + 1, c => (.error short, c)
  | limit + 1, count + 1, c =>
    match c.shown with
    | .error e => (.error e, c)
    | .ok [] => (.error short, c)
    | .ok (b :: bs) =>
      let taken := (b :: bs).take (count + 1)
      match takeWindows short limit (count + 1 - taken.length) (c.advance taken.length) with
      | (.ok more, c) => (.ok (taken ++ more), c)
      | (.error e, c) => (.error e, c)

/-- Takes `count` octets at once.  Where there are fewer, octets in memory are all left, while the
other sources have moved to their end. -/
def take (c : Cursor) (count : Nat) : Except IoError (List UInt8) × Cursor :=
  match c.source with
  | .memory =>
    if c.rest.length < count then (.error c.endError, c)
    else (.ok (c.rest.take count), c.advance count)
  | .octets => takeSingly count c
  | .stream _ => takeWindows .shortRead (c.rest.length + 1) count c

/-- Moves behind `count` octets.  Where there are fewer, it moves to the end and fails. -/
def skip (c : Cursor) (count : Nat) : Except IoError Unit × Cursor :=
  match c.source with
  | .memory =>
    if c.rest.length < count then (.error c.endError, c.advance c.rest.length)
    else (.ok (), c.advance count)
  | .octets => let (r, c) := takeSingly count c; (r.map fun _ => (), c)
  | .stream _ =>
    let (r, c) := takeWindows .endOfInput (c.rest.length + 1) count c
    (r.map fun _ => (), c)

/-- Asks the client for the data of a literal. -/
def request (c : Cursor) : Except IoError Unit × Cursor :=
  let asked := { c with requests := c.requests ++ [c.position] }
  match c.source with
  | .stream link =>
    if link.writeLimit.any fun n => decide (n ≤ link.written.length) then
      (.error .writerFailed, c)
    else
      (.ok (), { asked with source := .stream { link with written := link.written ++ goAhead } })
  | _ => (.ok (), asked)

end Cursor

end ImapRequest
