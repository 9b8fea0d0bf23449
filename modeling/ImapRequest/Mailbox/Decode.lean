import ImapRequest.Decoder.Text
import ImapRequest.Mailbox

/-!
# Decoding mailbox names and patterns
-/

namespace ImapRequest

/-- A mailbox name: a string in any form. -/
def Mailbox.decode (ctx : Context) : Decoder Mailbox :=
  return Mailbox.ofName (← Decoder.astring ctx)

/-- A mailbox pattern: like a string in any form, where the word may have wildcards. -/
def MailboxPattern.decode (ctx : Context) : Decoder MailboxPattern :=
  return ⟨← Decoder.wordOrString Octet.isListChar "list-mailbox" ctx⟩

end ImapRequest
