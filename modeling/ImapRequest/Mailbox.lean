import ImapRequest.Octet

/-!
# Mailboxes

A mailbox has a name; `INBOX` in any letter case is the one mailbox that every user has.  The
commands LIST and LSUB take a `MailboxPattern` instead, in which `*` and `%` stand for other text.
-/

namespace ImapRequest

/-- A mailbox name. -/
inductive Mailbox where
  | inbox
  /-- A name other than `INBOX`. -/
  | other (name : String)
  deriving DecidableEq, Repr

namespace Mailbox

/-- The mailbox with a given name. -/
def ofName (name : String) : Mailbox := if sameLetters name "INBOX" then .inbox else .other name

/-- The name of a mailbox. -/
def name : Mailbox → String
  | inbox => "INBOX"
  | other name => name

end Mailbox

/-- A pattern of mailbox names. -/
structure MailboxPattern where
  /-- The text of the pattern. -/
  text : String
  deriving DecidableEq, Repr

/-- Whether a pattern stands for more than its own text. -/
def MailboxPattern.hasWildcards (p : MailboxPattern) : Bool :=
  p.text.toList.any fun c => c == '*' || c == '%'

end ImapRequest
