import ImapRequest.Proofs.Written.Fetch
import ImapRequest.Proofs.Written.Search

/-!
# Renderings of commands

A command is written as its tag, its name with any `UID` in front, its arguments, and a line break.
However a client writes it, the decoder answers with the command and stands right behind the line
break, and it has asked the client for every literal that the client waits with.

* `CommandBody.arguments`, `Command.written` : the renderings;
* `CommandBody.decodeArguments_reads` : the arguments of every verb are read to their end;
* `Request.decode_written` : every rendering of a command is decoded as the command.
-/

namespace ImapRequest

open Sent

namespace CommandBody

/-! ### Arguments -/

/-- The flags of a new message, which may be left out where there are none. -/
def appendFlags (flags : List Flag) : Language Sent :=
  Written.provided flags.Nodup (Flag.list flags * Written.sp) + Written.provided (flags = []) 1

/-- The date of a new message, if it has one. -/
def appendDate : Option DateTime → Language Sent
  | some date => date.written * Written.sp
  | none => 1

/-- The renderings of the arguments of a command, each after a space. -/
def arguments (limit : Nat) : CommandBody → Language Sent
  | capability | noop | logout | check | close | expunge => 1
  | login username password =>
    Written.sp * (Written.astring limit username * (Written.sp * Written.astring limit password))
  | select mailbox | examine mailbox | create mailbox | delete mailbox | subscribe mailbox
  | unsubscribe mailbox => Written.sp * mailbox.written limit
  | rename source target =>
    Written.sp * (source.written limit * (Written.sp * target.written limit))
  | list reference pattern | lsub reference pattern =>
    Written.sp * (reference.written limit * (Written.sp * pattern.written limit))
  | status mailbox items => Written.sp * (mailbox.written limit *
      (Written.sp * Written.inParens StatusItem.written items))
  | append mailbox flags date message => Written.sp * (mailbox.written limit *
      (Written.sp * (appendFlags flags * (appendDate date * Written.literal limit message))))
  | uidExpunge uids => Written.sp * uids.written
  | search charset criteria _ => Written.sp * criteria.writtenCriteria limit charset
  | fetch messages data byUid =>
    Written.sp * (messages.written * (Written.sp * data.written limit byUid))
  | store messages request _ => Written.sp * (messages.written * (Written.sp * request.written))
  | copy messages mailbox _ =>
    Written.sp * (messages.written * (Written.sp * mailbox.written limit))

/-- There are no arguments, or there is a space in front of them. -/
theorem delimited_of_mem_arguments {limit : Nat} {body : CommandBody} {u : List Sent}
    (hu : u ∈ body.arguments limit) {s : List UInt8} (hs : Ended s) :
    Delimited (octets u ++ s) := by
  cases body with
  | capability | noop | logout | check | close | expunge =>
    exact Decoder.delimited_of_mem_one hu hs.delimited
  | _ => exact Decoder.delimited_of_mem_sp hu s

variable {ctx : Context}

theorem decodeMailbox_reads (hctx : ctx.charset.ReadsAscii) (mailbox : Mailbox) :
    Decoder.Reads (decodeMailbox ctx) (Written.sp * mailbox.written ctx.maxLiteral) Delimited
      mailbox :=
  Decoder.sp_reads.andThen (mailbox.decode_reads hctx)

theorem decodeMessages_reads (messages : SequenceSet) :
    Decoder.Reads decodeMessages (Written.sp * messages.written) Delimited messages :=
  Decoder.sp_reads.andThen messages.decode_reads

/-- What follows the flags of a new message does not start like flags. -/
def NoFlags (s : List UInt8) : Prop := ∃ b u, s = b :: u ∧ b ≠ Octet.lparen

/-- What follows the date of a new message does not start like a date. -/
def NoDate (s : List UInt8) : Prop := ∃ b u, s = b :: u ∧ b ≠ Octet.quote

theorem decodeAppendFlags_reads (flags : List Flag) :
    Decoder.Reads decodeAppendFlags (appendFlags flags) NoFlags flags := by
  refine Decoder.Reads.add (Decoder.Reads.provided fun hnodup => ?_)
    (Decoder.Reads.provided fun hnil => ?_)
  · have hlist : Starts (· = Octet.lparen) (Flag.list flags) := by
      cases flags with
      | nil => exact (Written.starts_octets _ _).mul _
      | cons flag flags => exact (Written.starts_octets _ _).mul _
    have hread := Flag.decodeList_reads flags
    rw [Flag.distinct_of_nodup hnodup] at hread
    refine Decoder.Reads.look (hlist.mul _) ?_
    rintro _ rfl
    exact hread.andThen (Decoder.sp_reads.anywhere.map fun _ => flags)
  · rintro t ht _ ⟨b, u, rfl, hb⟩ c hc hrest
    obtain rfl := (Language.mem_one t).1 ht
    rw [decodeAppendFlags, Decoder.bind_of_ok (Decoder.peek_of_rest hc.steady hrest),
      if_neg (by simpa using hb), hnil]
    rfl

theorem decodeAppendDate_reads (date : Option DateTime) :
    Decoder.Reads decodeAppendDate (appendDate date) NoDate date := by
  cases date with
  | none =>
    rintro t ht _ ⟨b, u, rfl, hb⟩ c hc hrest
    obtain rfl := (Language.mem_one t).1 ht
    rw [decodeAppendDate, Decoder.bind_of_ok (Decoder.peek_of_rest hc.steady hrest),
      if_neg (by simpa using hb)]
    rfl
  | some date =>
    refine Decoder.Reads.look ((Starts.inQuotes _).mul _) ?_
    rintro _ rfl
    exact date.decode_reads.andThen (Decoder.sp_reads.anywhere.map fun _ => some date)

theorem starts_appendDate (limit : Nat) (date : Option DateTime) (message : List UInt8) :
    Starts (· ≠ Octet.lparen) (appendDate date * Written.literal limit message) := by
  cases date with
  | none =>
    rw [appendDate, one_mul]
    refine (Starts.literal limit message).imp ?_
    rintro _ rfl
    decide
  | some date =>
    refine (((Starts.inQuotes _).mul _).mul _).imp ?_
    rintro _ rfl
    decide

/-- The arguments of a new message after its mailbox. -/
theorem decodeAppend_reads (mailbox : Mailbox) (flags : List Flag) (date : Option DateTime)
    (message : List UInt8) :
    Decoder.Reads (do
        let flags ← decodeAppendFlags
        let date ← decodeAppendDate
        let message ← Decoder.literalOctets ctx
        return append mailbox flags date message)
      (appendFlags flags * (appendDate date * Written.literal ctx.maxLiteral message)) Anything
      (append mailbox flags date message) := by
  refine (decodeAppendFlags_reads flags).bind ?_ fun u hu s _ => ?_
  · refine (decodeAppendDate_reads date).bind ?_ fun u hu s _ => ?_
    · exact (Decoder.literalOctets_reads ctx message).map (append mailbox flags date)
    · refine ((Starts.literal _ _).imp ?_).append hu s
      rintro _ rfl
      decide
  · exact (starts_appendDate _ _ _).append hu s

/-- The arguments of a FETCH command after its set of messages. -/
theorem decodeFetch_reads (hctx : ctx.charset.ReadsAscii) (messages : SequenceSet)
    (data : FetchData) (byUid : Bool) :
    Decoder.Reads (do
        let data ← FetchData.decode ctx
        return fetch messages { data with uid := data.uid || byUid } byUid)
      (data.written ctx.maxLiteral byUid) Delimited (fetch messages data byUid) := by
  intro t ht
  -- With `UID` in front the unique identifiers are asked for in any case.
  obtain ⟨read, rfl, hread⟩ := FetchData.decode_reads hctx ht
  exact hread.map (fun data => fetch messages { data with uid := data.uid || byUid } byUid) t rfl

/-- Every rendering of arguments is read as the command that has them. -/
theorem decodeArguments_reads (hctx : ctx.charset.ReadsAscii) (body : CommandBody) :
    Decoder.Reads (decodeArguments ctx body.byUid body.verb) (body.arguments ctx.maxLiteral) Ended
      body := by
  have hmailbox := decodeMailbox_reads hctx
  cases body with
  | capability | noop | logout | check | close | expunge => exact .pure _
  | login username password =>
    exact Decoder.sp_reads.andThen ((Decoder.astring_reads hctx username).spaced
      ((Decoder.astring_reads hctx password).map _).ended)
  | select mailbox | examine mailbox | create mailbox | delete mailbox | subscribe mailbox
  | unsubscribe mailbox => exact ((hmailbox mailbox).map _).ended
  | rename source target =>
    exact Decoder.Reads.assoc ((hmailbox source).bind ((hmailbox target).map _).ended
      fun u hu s _ => Decoder.delimited_of_mem_sp hu s)
  | list reference pattern | lsub reference pattern =>
    exact Decoder.Reads.assoc ((hmailbox reference).spaced
      ((pattern.decode_reads hctx).map _).ended)
  | status mailbox items =>
    exact Decoder.Reads.assoc ((hmailbox mailbox).spaced
      ((StatusItem.decodeList_reads items).map _).anywhere)
  | append mailbox flags date message =>
    exact Decoder.Reads.assoc ((hmailbox mailbox).spaced
      (decodeAppend_reads mailbox flags date message).anywhere)
  | uidExpunge uids => exact ((decodeMessages_reads uids).map _).ended
  | search charset criteria byUid =>
    exact Decoder.sp_reads.andThen
      ((SearchKey.decodeCriteria_reads hctx charset criteria).finish rfl)
  | fetch messages data byUid =>
    exact Decoder.Reads.assoc ((decodeMessages_reads messages).spaced
      (decodeFetch_reads hctx messages data byUid).ended)
  | store messages request byUid =>
    exact Decoder.Reads.assoc ((decodeMessages_reads messages).spaced (request.decode_reads.map _))
  | copy messages mailbox byUid =>
    exact Decoder.Reads.assoc ((decodeMessages_reads messages).bind
      ((hmailbox mailbox).map _).ended fun u hu s _ => Decoder.delimited_of_mem_sp hu s)

end CommandBody

/-! ### Whole commands -/

/-- A line break. -/
def Written.crlf : Language Sent := octets [Octet.cr, Octet.lf]

theorem ended_of_mem_crlf {u : List Sent} (hu : u ∈ Written.crlf) (s : List UInt8) :
    Ended (octets u ++ s) := by
  obtain rfl := Written.mem_octets.1 hu
  rfl

namespace Verb

/-- The word for a verb. -/
def word : Verb → String
  | capability => "CAPABILITY"
  | noop => "NOOP"
  | logout => "LOGOUT"
  | login => "LOGIN"
  | select => "SELECT"
  | examine => "EXAMINE"
  | create => "CREATE"
  | delete => "DELETE"
  | rename => "RENAME"
  | subscribe => "SUBSCRIBE"
  | unsubscribe => "UNSUBSCRIBE"
  | list => "LIST"
  | lsub => "LSUB"
  | status => "STATUS"
  | append => "APPEND"
  | check => "CHECK"
  | close => "CLOSE"
  | expunge => "EXPUNGE"
  | search => "SEARCH"
  | fetch => "FETCH"
  | store => "STORE"
  | copy => "COPY"

/-- The name under which a verb is looked up is the word for it. -/
theorem name_eq_word (verb : Verb) : verb.name = verb.word := by cases verb <;> rfl

theorem ofName?_word (verb : Verb) : ofName? verb.word = some verb := by
  rw [← name_eq_word, ofName?_name]

theorem isKeyword_word (verb : Verb) : Octet.IsKeyword verb.word := by cases verb <;> decide

theorem word_ne_uid (verb : Verb) : verb.word ≠ "UID" := by cases verb <;> decide

end Verb

/-- The name of a command, with `UID` in front if its numbers are unique identifiers. -/
def CommandBody.name (body : CommandBody) : Language Sent :=
  if body.byUid then Written.keyword "UID" * (Written.sp * Written.keyword body.verb.word)
  else Written.keyword body.verb.word

namespace Command

/-- The renderings of a command, up to and with the line break. -/
def written (limit : Nat) (command : Command) : Language Sent :=
  Written.word Octet.isTagChar command.tag.text * (Written.sp * (command.body.name *
    (command.body.arguments limit * Written.crlf)))

variable {ctx : Context}

theorem eol_reads (leniency : Leniency) :
    Decoder.Reads (Decoder.eol leniency) (Written.crlf) Anything () := by
  rintro _ rfl s _ c hc hrest
  rw [octets_plain] at hrest
  rw [Decoder.eol_of_crlf hc.steady hrest, Cursor.after_plain]
  rfl

/-- The rest of a command after its name. -/
theorem decode_reads (hctx : ctx.charset.ReadsAscii) (command : Command) :
    Decoder.Reads (decode ctx command.tag command.body.byUid command.body.verb.word)
      (command.body.arguments ctx.maxLiteral * Written.crlf) Anything
      command := by
  have huid : (command.body.byUid && !command.body.verb.takesUid) = false := by
    cases hby : command.body.byUid with
    | true => simp [CommandBody.takesUid_of_byUid hby]
    | false => rfl
  have hbody : Decoder.Reads (CommandBody.decode ctx command.body.byUid command.body.verb)
      (command.body.arguments ctx.maxLiteral * Written.crlf) Anything
      command.body := by
    rw [CommandBody.decode, if_neg (by simp [huid])]
    exact (CommandBody.decodeArguments_reads hctx command.body).bind
      ((eol_reads ctx.leniency).map fun _ => command.body) fun u hu s _ => ended_of_mem_crlf hu s
  rw [decode]
  simp only [Verb.ofName?_word]
  exact hbody.map fun body => ({ tag := command.tag, body } : Command)

end Command

theorem Tag.decode_reads (tag : Tag) :
    Decoder.Reads decode (Written.word Octet.isTagChar tag.text) Delimited tag := by
  have hlt : ∀ b, Octet.isTagChar b = true → b < 0x80 := Octet.forall_octet (by decide +kernel)
  intro t ht s hs c hc hrest
  have hread := (Decoder.word_reads "tag").map ofOctets t ht s (hs.stops rfl rfl rfl) c hc hrest
  rw [ofOctets, Octet.toText_ofText_of_all hlt ht.2.1] at hread
  exact hread

namespace Request

variable {ctx : Context}

theorem decodeCommand_reads (hctx : ctx.charset.ReadsAscii) (command : Command) :
    Decoder.Reads (decodeCommand ctx command.tag) (Written.sp * (command.body.name *
      (command.body.arguments ctx.maxLiteral * Written.crlf))) Anything
      command := by
  have hrest := command.decode_reads hctx
  have hname := Decoder.keyword_reads command.body.verb.isKeyword_word
  have hend : ∀ u ∈ command.body.arguments ctx.maxLiteral * Written.crlf,
      ∀ s, Stops Octet.isKeywordChar (octets u ++ s) := by
    rintro _ ⟨u, hu, v, hv, rfl⟩ s
    rw [octets_append, List.append_assoc]
    exact (CommandBody.delimited_of_mem_arguments hu (ended_of_mem_crlf hv s)).stops rfl rfl rfl
  refine Decoder.sp_reads.andThen ?_
  rw [CommandBody.name]
  -- The word after the tag is `UID` or the name.
  cases hby : command.body.byUid with
  | true =>
    rw [hby] at hrest
    rw [if_pos rfl, mul_assoc, mul_assoc]
    refine (Decoder.keyword_reads (by decide)).bind ?_ fun u hu s _ =>
      (Decoder.delimited_of_mem_sp hu s).stops rfl rfl rfl
    rw [if_pos rfl]
    exact Decoder.sp_reads.andThen (hname.bind hrest fun u hu s _ => hend u hu s)
  | false =>
    rw [hby] at hrest
    rw [if_neg (by decide)]
    refine hname.bind ?_ fun u hu s _ => hend u hu s
    rw [if_neg command.body.verb.word_ne_uid]
    exact hrest

theorem read_reads (hctx : ctx.charset.ReadsAscii) (command : Command) :
    Decoder.Reads (read ctx) (command.written ctx.maxLiteral) Anything command := by
  rw [read_eq]
  exact command.tag.decode_reads.bind (decodeCommand_reads hctx command) fun u hu s _ =>
    Decoder.delimited_of_mem_sp hu s

end Request

/-! ### What can be rendered -/

namespace CommandBody

/-- A command whose arguments can be rendered.  No text, flag or message has octets that can not be
sent, no flag is repeated, and the strings of search keys are in US-ASCII or UTF-8. -/
def Expressible (limit : Nat) : CommandBody → Prop
  | login username password =>
    Text.Expressible limit username ∧ Text.Expressible limit password
  | select mailbox | examine mailbox | create mailbox | delete mailbox | subscribe mailbox
  | unsubscribe mailbox | status mailbox _ | copy _ mailbox _ => mailbox.Expressible limit
  | rename source target => source.Expressible limit ∧ target.Expressible limit
  | list reference pattern | lsub reference pattern =>
    reference.Expressible limit ∧ Text.Expressible limit pattern.text
  | append mailbox flags _ message =>
    mailbox.Expressible limit ∧ (flags.Nodup ∧ ∀ flag ∈ flags, flag.Expressible) ∧
      message.all Octet.isChar8 = true ∧ message.length ≤ limit ∧
      message.length ≤ Decimal.maxNumber
  | search charset criteria _ => (∀ c ∈ charset, c = .usAscii ∨ c = .utf8) ∧
      criteria.Expressible limit ∧ criteria.criteriaDepth ≤ SearchKey.maxLevel
  | fetch _ data byUid => data.Expressible limit byUid
  | store _ request _ => request.Expressible
  | _ => True

theorem possible_charset (limit : Nat) {c : Charset} (h : c = .usAscii ∨ c = .utf8) :
    c.ReadsAscii ∧ Possible (Written.charset limit c) := by
  have hword (label : String) (hlabel : Charset.ofLabel? (Octet.ofText label) = some c)
      (hne : Octet.ofText label ≠ []) (hall : (Octet.ofText label).all Octet.isAstringChar = true) :
      Possible (Written.charset limit c) := by
    obtain ⟨t, ht⟩ := Possible.word hne hall
    exact ⟨t, label, hlabel, Or.inl ht⟩
  rcases h with rfl | rfl
  · exact ⟨Charset.usAscii_readsAscii, hword "US-ASCII" (by decide) (by decide) (by decide)⟩
  · exact ⟨Charset.utf8_readsAscii, hword "UTF-8" (by decide) (by decide) (by decide)⟩

theorem possible_arguments {limit : Nat} {body : CommandBody} (h : body.Expressible limit) :
    Possible (body.arguments limit) := by
  have hmailbox {mailbox : Mailbox} (h : mailbox.Expressible limit) :
      Possible (Written.sp * mailbox.written limit) :=
    Possible.sp.mul (Mailbox.possible_written h)
  have hmessages {L : Language Sent} (messages : SequenceSet) (hL : Possible L) :
      Possible (Written.sp * (messages.written * L)) :=
    Possible.sp.mul (messages.possible_written.mul hL)
  cases body with
  | capability | noop | logout | check | close | expunge => exact .one
  | login username password =>
    exact Possible.sp.mul ((Possible.wordOrString h.1).mul (Possible.sp.mul (.wordOrString h.2)))
  | select mailbox | examine mailbox | create mailbox | delete mailbox | subscribe mailbox
  | unsubscribe mailbox => exact hmailbox h
  | rename source target =>
    exact Possible.sp.mul ((Mailbox.possible_written h.1).mul (hmailbox h.2))
  | list reference pattern | lsub reference pattern =>
    exact Possible.sp.mul ((Mailbox.possible_written h.1).mul
      (Possible.sp.mul (.wordOrString h.2)))
  | status mailbox items =>
    exact Possible.sp.mul ((Mailbox.possible_written h).mul
      (Possible.sp.mul (.inParens items fun item _ => .keyword _)))
  | append mailbox flags date message =>
    obtain ⟨hname, ⟨hnodup, hflags⟩, hdata, hlimit, hmax⟩ := h
    have hlist : Possible (appendFlags flags) :=
      (Possible.provided hnodup ((Flag.possible_list hflags).mul .sp)).add_left _
    have hdate : Possible (appendDate date) := by
      cases date with
      | none => exact .one
      | some date => exact date.possible_written.mul .sp
    exact Possible.sp.mul ((Mailbox.possible_written hname).mul
      (Possible.sp.mul (hlist.mul (hdate.mul (.literal hlimit hmax hdata)))))
  | uidExpunge uids => exact Possible.sp.mul uids.possible_written
  | search charset criteria byUid =>
    obtain ⟨hcharset, hcriteria, hdepth⟩ := h
    exact Possible.sp.mul (SearchKey.possible_writtenCriteria
      (fun c hc => possible_charset limit (hcharset c hc)) hcriteria hdepth)
  | fetch messages data byUid =>
    exact hmessages messages (Possible.sp.mul (FetchData.possible_written h))
  | store messages request byUid =>
    exact hmessages messages (Possible.sp.mul (StoreRequest.possible_written h))
  | copy messages mailbox byUid => exact hmessages messages (hmailbox h)

end CommandBody

namespace Command

/-- A command with a tag and arguments that can be rendered. -/
def Expressible (limit : Nat) (command : Command) : Prop :=
  Tag.check (Octet.ofText command.tag.text) = .ok () ∧ command.body.Expressible limit

theorem possible_written {limit : Nat} {command : Command} (h : command.Expressible limit) :
    Possible (command.written limit) := by
  obtain ⟨hne, hall⟩ := Word.check_eq_ok.1 h.1
  have hname : Possible command.body.name := by
    rw [CommandBody.name]
    split
    · exact (Possible.keyword _).mul (Possible.sp.mul (.keyword _))
    · exact .keyword _
  exact (Possible.word hne hall).mul (Possible.sp.mul (hname.mul
    ((CommandBody.possible_arguments h.2).mul (.octets _))))

end Command

namespace Request

variable {ctx : Context}

/-- An expressible command can be rendered, and every rendering is decoded as the command.  The next
request starts right behind it, and the client was asked for a literal wherever it waited.  Of the
character set it is only needed that the octets of US-ASCII stand for themselves, as they do in all
but UTF-16 and ISO-2022-JP. -/
theorem decode_written (hctx : ctx.charset.ReadsAscii) (command : Command) :
    (command.Expressible ctx.maxLiteral → Possible (command.written ctx.maxLiteral)) ∧
      ∀ t ∈ command.written ctx.maxLiteral, ∀ (c : Cursor) (more : List UInt8), c.Listens →
        c.rest = octets t ++ more →
        decode ctx c = (.ok (.command command), c.after t) ∧
          (c.after t).rest = more ∧
          (c.after t).position = c.position + (octets t).length ∧
          (c.after t).requests = c.requests ++ pauses c.position t := by
  refine ⟨Command.possible_written, fun t ht c more hc hrest => ?_⟩
  have hread := read_reads hctx command t ht more trivial c hc hrest
  exact ⟨decode_of_ok hread, Cursor.rest_after t hrest, Cursor.position_after t c,
    Cursor.requests_after t c⟩

/-- A client may write the name of a command in any letter case, one string as a literal that it
waits with, and another one in double quotes. -/
theorem decode_written_login :
    decode {} (Cursor.ofOctets (Octet.ofText "a1 Login \x7b3\x7d\r\njoe \"say \\\"hi\\\"\"\r\n")) =
      (.ok (.command ⟨⟨"a1"⟩, .login "joe" "say \"hi\""⟩),
        { rest := [], position := 32, requests := [14] }) := by
  let line := Octet.ofText "a1 Login \x7b3\x7d\r\njoe \"say \\\"hi\\\"\"\r\n"
  have htag : plain (Octet.ofText "a1") ∈ Written.word Octet.isTagChar "a1" :=
    ⟨by decide, by decide, rfl⟩
  have hname : plain (Octet.ofText "Login") ∈ Written.keyword "LOGIN" :=
    ⟨Octet.ofText "Login", by decide, rfl⟩
  have husername :
      plain (Octet.ofText "\x7b3\x7d\r\n") ++ ([.pause] ++ plain (Octet.ofText "joe")) ∈
      Written.astring 67108864 "joe" :=
    Or.inr (Or.inr ⟨by decide, .onRequest, Octet.ofText "3",
      ⟨by decide, by decide, by decide, by decide⟩, by decide, by decide, rfl⟩)
  have hpassword : plain (Octet.ofText "\"say \\\"hi\\\"\"") ∈
      Written.astring 67108864 "say \"hi\"" :=
    Or.inr (Or.inl ⟨by decide, rfl⟩)
  have hsp : plain [Octet.sp] ∈ Written.sp := rfl
  have hcrlf : plain [Octet.cr, Octet.lf] ∈ Written.crlf := rfl
  have ht :=
    Language.append_mem_mul htag (Language.append_mem_mul hsp (Language.append_mem_mul hname
    (Language.append_mem_mul (Language.append_mem_mul hsp (Language.append_mem_mul husername
      (Language.append_mem_mul hsp hpassword))) hcrlf)))
  have hlistens : (Cursor.ofOctets line).Listens :=
    ⟨by simp [Cursor.Steady, Cursor.ofOctets], by simp [Cursor.ofOctets]⟩
  exact ((@decode_written {} Charset.usAscii_readsAscii
    ⟨⟨"a1"⟩, .login "joe" "say \"hi\""⟩).2 _ ht (Cursor.ofOctets line) [] hlistens (by decide)).1

end Request

end ImapRequest
