import ImapRequest.Cursor

/-!
# Decoders

A `Decoder α` reads from a cursor and answers with an `α` or with a `Failure`; either way it leaves
the cursor where it stopped.  Decoders are put together with `do`, which stops at the first failure.

Only the first section below looks at the cursor.  Everything after it, in this file and in those
that import it, is put together from these decoders, so whatever holds of them and is kept by `do`
and by repetition holds of every decoder.
-/

namespace ImapRequest

/-- Reads from a cursor. -/
def Decoder (α : Type) : Type := Cursor → Except Failure α × Cursor

namespace Decoder

variable {α β : Type}

instance : Monad Decoder where
  pure a := fun c => (.ok a, c)
  bind x f := fun c => match x c with
    | (.ok a, c) => f a c
    | (.error e, c) => (.error e, c)

theorem pure_apply (a : α) (c : Cursor) : (pure a : Decoder α) c = (.ok a, c) := rfl

theorem bind_apply (x : Decoder α) (f : α → Decoder β) (c : Cursor) :
    (x >>= f) c = match x c with
      | (.ok a, c) => f a c
      | (.error e, c) => (.error e, c) := rfl

/-! ### Reading from the cursor -/

/-- The outcome of an operation on a cursor, as a decoder's. -/
def ofIo (r : Except IoError α × Cursor) : Except Failure α × Cursor :=
  (r.1.mapError .io, r.2)

/-- The octet at the position. -/
def peek : Decoder UInt8 := fun c => ofIo (c.peek, c)

/-- The octet at the position, which moves behind it. -/
def consume : Decoder UInt8 := fun c => ofIo c.consume

/-- Whether the source shows nothing more. -/
def isConsumed : Decoder Bool := fun c => (.ok c.isConsumed, c)

/-- Takes this many octets at once. -/
def take (count : Nat) : Decoder (List UInt8) := fun c => ofIo (c.take count)

/-- Moves behind this many octets. -/
def skip (count : Nat) : Decoder Unit := fun c => ofIo (c.skip count)

/-- Asks the client for the data of a literal. -/
def request : Decoder Unit := fun c => ofIo c.request

/-- A bound on the number of octets that may still be read.  It bounds repetition and has no part
in any answer. -/
def bound : Decoder Nat := fun c => (.ok c.rest.length, c)

/-- Fails where the cursor is. -/
def fail (e : Failure) : Decoder α := fun c => (.error e, c)

/-- A rejection becomes an answer; other failures stay what they are. -/
def attempt (x : Decoder α) : Decoder (Except DecodingError α) := fun c =>
  match x c with
  | (.ok a, c) => (.ok (.ok a), c)
  | (.error (.rejected e), c) => (.ok (.error e), c)
  | (.error e, c) => (.error e, c)

/-! ### Rejecting -/

/-- The request can not be understood. -/
def reject (e : DecodingError) : Decoder α := fail (.rejected e)

/-- An octet is not one of those that may come here. -/
def unexpected (found : UInt8) (expected : String) : Decoder α :=
  reject (.unexpected found expected)

/-- A value, or the reason to reject the request. -/
def ofExcept : Except DecodingError α → Decoder α
  | .ok a => pure a
  | .error e => reject e

/-! ### Repetition -/

/-- Elements for as long as more are announced, at most `limit` of them. -/
def manyUpTo (more : Decoder Bool) (element : Decoder α) : Nat → Decoder (List α)
  | 0 => pure []
  | limit + 1 => do
    if ← more then
      let a ← element
      let as ← manyUpTo more element limit
      return a :: as
    else
      return []

/-- Elements for as long as more are announced.  An announcement takes at least one octet, so there
are not more of them than octets, and one more question has to be asked. -/
def many (more : Decoder Bool) (element : Decoder α) : Decoder (List α) := do
  manyUpTo more element ((← bound) + 1)

/-- One element, and further ones for as long as more are announced. -/
def oneOrMore (more : Decoder Bool) (element : Decoder α) : Decoder (OneOrMore α) := do
  let head ← element
  let tail ← many more element
  return { head, tail }

end Decoder

end ImapRequest
