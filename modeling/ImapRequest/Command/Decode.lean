import ImapRequest.Command.Basic
import ImapRequest.Fetch.Decode
import ImapRequest.Flag.Decode
import ImapRequest.Mailbox.Decode
import ImapRequest.Search.Decode
import ImapRequest.StatusItem.Decode

/-!
# Decoding commands

The arguments of a command follow its name after a space and go up to the line break.  A verb that
can not have `UID` in front is rejected before its arguments are looked at.

* `CommandBody.decodeArguments` : the arguments of a verb;
* `CommandBody.decode` : the rest of a command after its verb;
* `Command.decode` : the rest of a command after its name, which may be unknown.
-/

namespace ImapRequest

namespace CommandBody

/-- A space and a mailbox name. -/
def decodeMailbox (ctx : Context) : Decoder Mailbox := do
  Decoder.sp
  Mailbox.decode ctx

/-- A space and a set of messages. -/
def decodeMessages : Decoder SequenceSet := do
  Decoder.sp
  SequenceSet.decode

/-- The flags of a new message and the space after them, if there are any. -/
def decodeAppendFlags : Decoder (List Flag) := do
  if (← Decoder.peek) == Octet.lparen then
    let flags ← Flag.decodeList
    Decoder.sp
    return flags
  else
    return []

/-- The date of a new message and the space after it, if there is one. -/
def decodeAppendDate : Decoder (Option DateTime) := do
  if (← Decoder.peek) == Octet.quote then
    let date ← DateTime.decode
    Decoder.sp
    return some date
  else
    return none

/-- The arguments of a verb, each after a space.  A FETCH command for unique identifiers always asks
for them as well. -/
def decodeArguments (ctx : Context) (byUid : Bool) : Verb → Decoder CommandBody
  | .capability => return capability
  | .noop => return noop
  | .logout => return logout
  | .login => do
    Decoder.sp
    let username ← Decoder.astring ctx
    Decoder.sp
    let password ← Decoder.astring ctx
    return login username password
  | .select => return select (← decodeMailbox ctx)
  | .examine => return examine (← decodeMailbox ctx)
  | .create => return create (← decodeMailbox ctx)
  | .delete => return delete (← decodeMailbox ctx)
  | .rename => do
    let source ← decodeMailbox ctx
    let target ← decodeMailbox ctx
    return rename source target
  | .subscribe => return subscribe (← decodeMailbox ctx)
  | .unsubscribe => return unsubscribe (← decodeMailbox ctx)
  | .list => do
    let reference ← decodeMailbox ctx
    Decoder.sp
    return list reference (← MailboxPattern.decode ctx)
  | .lsub => do
    let reference ← decodeMailbox ctx
    Decoder.sp
    return lsub reference (← MailboxPattern.decode ctx)
  | .status => do
    let mailbox ← decodeMailbox ctx
    Decoder.sp
    return status mailbox (← StatusItem.decodeList)
  | .append => do
    let mailbox ← decodeMailbox ctx
    Decoder.sp
    let flags ← decodeAppendFlags
    let date ← decodeAppendDate
    let message ← Decoder.literalOctets ctx
    return append mailbox flags date message
  | .check => return check
  | .close => return close
  | .expunge => do
    if byUid then return uidExpunge (← decodeMessages) else return expunge
  | .search => do
    Decoder.sp
    let (charset, criteria) ← SearchKey.decodeCriteria ctx
    return search charset criteria byUid
  | .fetch => do
    let messages ← decodeMessages
    Decoder.sp
    let data ← FetchData.decode ctx
    return fetch messages { data with uid := data.uid || byUid } byUid
  | .store => do
    let messages ← decodeMessages
    Decoder.sp
    let request ← StoreRequest.decode
    return store messages request byUid
  | .copy => do
    let messages ← decodeMessages
    let mailbox ← decodeMailbox ctx
    return copy messages mailbox byUid

/-- The rest of a command after its verb, up to and with the line break. -/
def decode (ctx : Context) (byUid : Bool) (verb : Verb) : Decoder CommandBody := do
  if byUid && !verb.takesUid then
    Decoder.reject (.uidNotAllowed verb.name)
  else
    let body ← decodeArguments ctx byUid verb
    Decoder.eol ctx.leniency
    return body

end CommandBody

/-- The rest of a command after its name, up to and with the line break. -/
def Command.decode (ctx : Context) (tag : Tag) (byUid : Bool) (name : String) :
    Decoder Command :=
  match Verb.ofName? name with
  | some verb => return { tag, body := ← CommandBody.decode ctx byUid verb }
  | none => Decoder.reject (.unknownCommand name)

end ImapRequest
