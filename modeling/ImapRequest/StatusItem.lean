import ImapRequest.Octet

/-!
# Status items

The numbers that a STATUS command can ask for.
-/

namespace ImapRequest

/-- A number that describes a mailbox. -/
inductive StatusItem where
  /-- The number of messages. -/
  | messages
  /-- The number of messages that arrived since the mailbox was last opened. -/
  | recent
  /-- The unique identifier that the next message will have. -/
  | uidNext
  /-- The number that changes whenever unique identifiers lose their meaning. -/
  | uidValidity
  /-- The number of messages that were not read. -/
  | unseen
  deriving DecidableEq, Repr

namespace StatusItem

/-- The keywords of the items. -/
def keywords : List (String × StatusItem) :=
  [("MESSAGES", .messages), ("RECENT", .recent), ("UIDNEXT", .uidNext),
    ("UIDVALIDITY", .uidValidity), ("UNSEEN", .unseen)]

/-- The item with a keyword in any letter case. -/
def ofKeyword (keyword : String) : Option StatusItem :=
  (keywords.find? fun entry => sameLetters entry.1 keyword).map (·.2)

end StatusItem

end ImapRequest
