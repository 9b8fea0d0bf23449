import ImapRequest.Calendar.Date
import ImapRequest.OneOrMore
import ImapRequest.Sequence.Set
import ImapRequest.Word

/-!
# Search keys

A search key says which messages to look for.  Keys are combined by `not`, `or` and `and`; there
is no word for `and` in a request, keys next to each other have to match together.

* `SearchKey.conjunction` : one or more keys that have to match together;
* `SearchKey.depth` : how deep keys are nested.
-/

namespace ImapRequest

/-- A condition on messages. -/
inductive SearchKey where
  /-- All of the keys match. -/
  | and (keys : List SearchKey)
  /-- The sequence number of the message is in the set. -/
  | sequenceSet (set : SequenceSet)
  | all
  | answered
  | bcc (text : String)
  | before (date : Date)
  | body (text : String)
  | cc (text : String)
  | deleted
  | draft
  | flagged
  | «from» (text : String)
  /-- The header field with this name contains this text. -/
  | header (field : String) (text : String)
  | keyword (flag : Atom)
  /-- The message has more octets. -/
  | larger (octets : Nat)
  | new
  /-- The key does not match. -/
  | not (key : SearchKey)
  | old
  /-- The message arrived longer ago. -/
  | older (seconds : Nat)
  | on (date : Date)
  /-- One of the keys matches, or both. -/
  | or (left right : SearchKey)
  | recent
  | seen
  | sentBefore (date : Date)
  | sentOn (date : Date)
  | sentSince (date : Date)
  | since (date : Date)
  /-- The message has fewer octets. -/
  | smaller (octets : Nat)
  | subject (text : String)
  | text (text : String)
  | «to» (text : String)
  /-- The unique identifier of the message is in the set. -/
  | uid (set : SequenceSet)
  | unanswered
  | undeleted
  | undraft
  | unflagged
  | unkeyword (flag : Atom)
  | unseen
  /-- The message arrived more recently. -/
  | younger (seconds : Nat)

namespace SearchKey

/-- The key that matches when all of some keys do.  A single key stays as it is. -/
def conjunction (keys : OneOrMore SearchKey) : SearchKey :=
  match keys.tail with
  | [] => keys.head
  | _ => .and keys.toList

mutual

/-- How deep keys are nested: a key without keys in it has depth 1. -/
def depth : SearchKey → Nat
  | .not key => 1 + depth key
  | .or left right => 1 + max (depth left) (depth right)
  | .and keys => 1 + maxDepth keys
  | _ => 1

/-- The depth of the deepest of some keys. -/
def maxDepth : List SearchKey → Nat
  | [] => 0
  | key :: keys => max (depth key) (maxDepth keys)

end

end SearchKey

end ImapRequest
