import ImapRequest.Calendar.DateTime
import ImapRequest.Charset.Basic
import ImapRequest.Fetch.Basic
import ImapRequest.Flag
import ImapRequest.Mailbox
import ImapRequest.Search.Basic
import ImapRequest.StatusItem

/-!
# Commands

A command is a tag and a body: a verb and its arguments.  Some verbs can have `UID` in front, then
their numbers of messages are unique identifiers and not positions in the mailbox.

* `Verb.name`, `Verb.ofName?` : the names of commands;
* `CommandBody.verb`, `CommandBody.byUid` : how a body is introduced in a request;
* `Verb.ofName?_name` : every name leads back to its verb.
-/

namespace ImapRequest

/-- What a command does. -/
inductive Verb where
  | capability
  | noop
  | logout
  | login
  | select
  | examine
  | create
  | delete
  | rename
  | subscribe
  | unsubscribe
  | list
  | lsub
  | status
  | append
  | check
  | close
  | expunge
  | search
  | fetch
  | store
  | copy
  deriving DecidableEq, Repr

namespace Verb

/-- All verbs. -/
def all : List Verb :=
  [capability, noop, logout, login, select, examine, create, delete, rename, subscribe,
    unsubscribe, list, lsub, status, append, check, close, expunge, search, fetch, store, copy]

/-- The name of a verb, in upper case. -/
def name : Verb → String
  | capability => "CAPABILITY"
  | noop => "NOOP"
  | logout => "LOGOUT"
  | login => "LOGIN"
  | select => "SELECT"
  | examine => "EXAMINE"
  | create => "CREATE"
  | delete => "DELETE"
  | rename => "RENAME"
  | subscribe => "SUBSCRIBE"
  | unsubscribe => "UNSUBSCRIBE"
  | list => "LIST"
  | lsub => "LSUB"
  | status => "STATUS"
  | append => "APPEND"
  | check => "CHECK"
  | close => "CLOSE"
  | expunge => "EXPUNGE"
  | search => "SEARCH"
  | fetch => "FETCH"
  | store => "STORE"
  | copy => "COPY"

/-- The verb with a name in any letter case. -/
def ofName? (name : String) : Option Verb := all.find? fun v => sameLetters v.name name

/-- Whether `UID` may be in front of the verb. -/
def takesUid : Verb → Bool
  | expunge | search | fetch | store | copy => true
  | _ => false

theorem mem_all (v : Verb) : v ∈ all := by cases v <;> decide

theorem ofName?_name (v : Verb) : ofName? v.name = some v := by cases v <;> decide

end Verb

/-- A verb and its arguments. -/
inductive CommandBody where
  | capability
  | noop
  | logout
  | login (username password : String)
  | select (mailbox : Mailbox)
  | examine (mailbox : Mailbox)
  | create (mailbox : Mailbox)
  | delete (mailbox : Mailbox)
  | rename (source target : Mailbox)
  | subscribe (mailbox : Mailbox)
  | unsubscribe (mailbox : Mailbox)
  | list (reference : Mailbox) (pattern : MailboxPattern)
  | lsub (reference : Mailbox) (pattern : MailboxPattern)
  | status (mailbox : Mailbox) (items : OneOrMore StatusItem)
  | append (mailbox : Mailbox) (flags : List Flag) (date : Option DateTime) (message : List UInt8)
  | check
  | close
  | expunge
  /-- Only the messages with these unique identifiers are removed. -/
  | uidExpunge (uids : SequenceSet)
  /-- The strings of the criteria were sent in `charset`, if the client named one. -/
  | search (charset : Option Charset) (criteria : SearchKey) (byUid : Bool)
  | fetch (messages : SequenceSet) (data : FetchData) (byUid : Bool)
  | store (messages : SequenceSet) (request : StoreRequest) (byUid : Bool)
  | copy (messages : SequenceSet) (mailbox : Mailbox) (byUid : Bool)

namespace CommandBody

/-- The verb of a body. -/
def verb : CommandBody → Verb
  | capability => .capability
  | noop => .noop
  | logout => .logout
  | login .. => .login
  | select .. => .select
  | examine .. => .examine
  | create .. => .create
  | delete .. => .delete
  | rename .. => .rename
  | subscribe .. => .subscribe
  | unsubscribe .. => .unsubscribe
  | list .. => .list
  | lsub .. => .lsub
  | status .. => .status
  | append .. => .append
  | check => .check
  | close => .close
  | expunge | uidExpunge .. => .expunge
  | search .. => .search
  | fetch .. => .fetch
  | store .. => .store
  | copy .. => .copy

/-- Whether `UID` is in front of the verb. -/
def byUid : CommandBody → Bool
  | uidExpunge .. => true
  | search _ _ byUid | fetch _ _ byUid | store _ _ byUid | copy _ _ byUid => byUid
  | _ => false

/-- Only bodies whose verb takes `UID` have it. -/
theorem takesUid_of_byUid {b : CommandBody} (h : b.byUid = true) : b.verb.takesUid = true := by
  cases b <;> simp_all [byUid, verb, Verb.takesUid]

end CommandBody

/-- A request that a client makes: the tag that its responses carry, and what it asks for. -/
structure Command where
  tag : Tag
  body : CommandBody

/-- The command with a given tag, if that is the spelling of a tag. -/
def Command.ofText (tag : String) (body : CommandBody) : Except WordError Command :=
  return { tag := ← Tag.ofText tag, body }

end ImapRequest
