import ImapRequest.Proofs.Inline
import ImapRequest.Request

/-!
# Commands stay within a line

Everything between the tag and the line break of a request is inline.

* `CommandBody.decodeArguments_inline` : the arguments of every verb;
* `Request.parse`, `Request.read` : a request is an inline part and the line break;
* `Request.decode_of_ok`, `Request.decode_of_rejected`, `Request.decode_of_fatal` : the answer to a
  request from what became of its parts.
-/

namespace ImapRequest

open Decoder

variable {limit : Nat} {leniency : Leniency} (ctx : Context)

/-! ### Tokens, dates and flags -/

theorem Tag.decode_inline : Inline limit leniency Tag.decode :=
  .map _ (takeWhile1_inline (Octet.isPlain_of_class rfl rfl rfl) _)

theorem Tag.decode_forward : Forward Tag.decode :=
  (show Inline 0 {} Tag.decode from Tag.decode_inline).forward

theorem Atom.decode_inline : Inline limit leniency Atom.decode :=
  .map _ (takeWhile1_inline (Octet.isPlain_of_class rfl rfl rfl) _)

theorem SequenceSet.decode_inline : Inline limit leniency SequenceSet.decode :=
  .bind (takeWhile1_inline (Octet.isPlain_of_class rfl rfl rfl) _) fun _ => token_inline _ _ _

theorem Date.decode_inline : Inline limit leniency Date.decode :=
  .bind (.bind .peek fun _ => .ite .quotedToken
      (takeWhile1_inline (Octet.isPlain_of_class rfl rfl rfl) _)) fun _ =>
    token_inline _ _ _

theorem DateTime.decode_inline : Inline limit leniency DateTime.decode :=
  .bind .quotedToken fun _ => token_inline _ _ _

theorem Flag.decode_inline : Inline limit leniency Flag.decode :=
  .look fun _ => .ite (fun h => .consume (h ▸ rfl) (.map _ Atom.decode_inline))
    (Inline.at (.map _ Atom.decode_inline))

theorem Flag.decodeList_inline : Inline limit leniency Flag.decodeList :=
  .bind (.expect _ rfl) fun _ => .look fun _ => .ite (fun h => .consume (h ▸ rfl) (.pure _))
    (Inline.at (.map _ (oneOrMore_inline listContinues_advances listContinues_inline
      Flag.decode_inline)))

theorem Flag.bareContinues_inline : Inline limit leniency Flag.bareContinues :=
  ifNext_inline rfl (.pure true) (.pure false)

theorem Flag.decodeBare_inline : Inline limit leniency Flag.decodeBare :=
  .map _ (oneOrMore_inline (ifNext_advances _ (.pure true)) bareContinues_inline decode_inline)

theorem StoreRequest.decode_inline : Inline limit leniency StoreRequest.decode := by
  have hmode : Inline limit leniency StoreRequest.decodeMode :=
    .look fun _ => .ite (fun h => .consume (h ▸ rfl) (.pure _)) <|
      .ite (fun h => .consume (h ▸ rfl) (.pure _)) (Inline.at (.pure _))
  have hresponse : Inline limit leniency StoreRequest.decodeResponse :=
    .bind keyword_inline fun _ => .ite (.pure _) <| .ite (.pure _) (.reject _)
  exact .bind hmode fun _ => .bind hresponse fun _ => .bind sp_inline fun _ =>
    .bind (.bind .peek fun _ => .ite Flag.decodeList_inline Flag.decodeBare_inline) fun _ =>
      .pure _

/-! ### Mailboxes and status items -/

theorem Mailbox.decode_inline : Inline ctx.maxLiteral ctx.leniency (Mailbox.decode ctx) :=
  .map _ (astring_inline ctx)

theorem MailboxPattern.decode_inline :
    Inline ctx.maxLiteral ctx.leniency (MailboxPattern.decode ctx) :=
  .map _ (wordOrString_inline ctx (Octet.isPlain_of_class rfl rfl rfl) _)

theorem StatusItem.decode_inline : Inline limit leniency StatusItem.decode := by
  refine .bind keyword_inline fun word => ?_
  split
  · exact .pure _
  · exact .reject _

theorem StatusItem.decodeList_inline : Inline limit leniency StatusItem.decodeList :=
  .bind (.expect _ rfl) fun _ =>
    oneOrMore_inline listContinues_advances listContinues_inline StatusItem.decode_inline

/-! ### What a FETCH command asks for -/

theorem BodyElement.decodeFieldName_inline :
    Inline ctx.maxLiteral ctx.leniency (BodyElement.decodeFieldName ctx) :=
  wordOrString_inline ctx (Octet.isPlain_of_class rfl rfl rfl) _

theorem BodyElement.decodeFieldNames_inline :
    Inline ctx.maxLiteral ctx.leniency (BodyElement.decodeFieldNames ctx) :=
  .bind (.expect _ rfl) fun _ => oneOrMore_inline listContinues_advances listContinues_inline
    (BodyElement.decodeFieldName_inline ctx)

theorem BodyElement.decodeRun_inline : Inline limit leniency BodyElement.decodeRun :=
  .bind (.expect _ rfl) fun _ => .bind number_inline fun _ => .bind (.expect _ rfl) fun _ =>
    .bind number_inline fun _ => .bind (.expect _ rfl) fun _ => .ite (.reject _) (.pure _)

theorem BodyElement.decode_inline (name : BodyName) :
    Inline ctx.maxLiteral ctx.leniency (BodyElement.decode ctx name) := by
  have hfields (kind : SectionKind) : Inline ctx.maxLiteral ctx.leniency (do
      if kind.hasFieldNames then
        Decoder.sp
        return some (← BodyElement.decodeFieldNames ctx)
      else
        return none) :=
    .ite (.bind sp_inline fun _ => .map _ (BodyElement.decodeFieldNames_inline ctx)) (.pure _)
  have hrun : Inline ctx.maxLiteral ctx.leniency (do
      if ← Decoder.nextIs Octet.less then
        return some (← BodyElement.decodeRun)
      else
        return none) :=
    .bind (nextIs_inline _) fun _ => .ite (.map _ BodyElement.decodeRun_inline) (.pure _)
  exact .bind (.expect _ rfl) fun _ => .bind (.takeWhile _ (Octet.isPlain_of_class rfl rfl rfl))
    fun _ => .bind (token_inline _ _ _) fun ⟨path, kind⟩ => .bind (hfields kind) fun _ =>
      .bind (.expect _ rfl) fun _ => .bind hrun fun _ => .ofExcept _

theorem FetchItem.decodeNamed_inline (word : String) :
    Inline ctx.maxLiteral ctx.leniency (FetchItem.decodeNamed ctx word) := by
  unfold FetchItem.decodeNamed
  split
  · exact .pure _
  · exact .ite (.bind (nextIs_inline _) fun _ =>
      .ite (.map _ (BodyElement.decode_inline ctx _)) (.pure _)) <|
      .ite (.map _ (BodyElement.decode_inline ctx _)) (.reject _)

theorem FetchItem.decode_inline : Inline ctx.maxLiteral ctx.leniency (FetchItem.decode ctx) :=
  .bind keyword_inline fun _ => FetchItem.decodeNamed_inline ctx _

theorem FetchData.decode_inline : Inline ctx.maxLiteral ctx.leniency (FetchData.decode ctx) := by
  refine .look fun _ => .ite (fun h => .consume (h ▸ rfl) (.map _ (oneOrMore_inline
    listContinues_advances listContinues_inline (FetchItem.decode_inline ctx)))) (Inline.at ?_)
  refine .bind keyword_inline fun word => ?_
  split
  · exact .pure _
  · exact .map _ (FetchItem.decodeNamed_inline ctx word)

/-! ### Search keys -/

theorem SearchKey.decodeForm_inline {key : Decoder SearchKey}
    (hkey : Inline ctx.maxLiteral ctx.leniency key) (form : SearchForm) :
    Inline ctx.maxLiteral ctx.leniency (SearchKey.decodeForm ctx key form) := by
  cases form with
  | plain k => exact .pure _
  | text make => exact .bind sp_inline fun _ => .map _ (astring_inline ctx)
  | header =>
    exact .bind sp_inline fun _ => .bind (astring_inline ctx) fun _ => .bind sp_inline fun _ =>
      .map _ (astring_inline ctx)
  | flag make => exact .bind sp_inline fun _ => .map _ Atom.decode_inline
  | date make => exact .bind sp_inline fun _ => .map _ Date.decode_inline
  | number make => exact .bind sp_inline fun _ => .map _ number_inline
  | positive make => exact .bind sp_inline fun _ => .map _ positive_inline
  | set make => exact .bind sp_inline fun _ => .map _ SequenceSet.decode_inline
  | not => exact .bind sp_inline fun _ => .map _ hkey
  | or =>
    exact .bind sp_inline fun _ => .bind hkey fun _ => .bind sp_inline fun _ => .map _ hkey

theorem SearchKey.decodeNamed_inline {key : Decoder SearchKey}
    (hkey : Inline ctx.maxLiteral ctx.leniency key) (word : String) :
    Inline ctx.maxLiteral ctx.leniency (SearchKey.decodeNamed ctx key word) := by
  unfold SearchKey.decodeNamed
  split
  · exact SearchKey.decodeForm_inline ctx hkey _
  · exact .reject _

theorem SearchKey.decodeWithin_inline (levels : Nat) :
    Inline ctx.maxLiteral ctx.leniency (SearchKey.decodeWithin ctx levels) := by
  induction levels with
  | zero => exact .reject _
  | succ levels ih =>
    exact .look fun _ => .ite
      (fun h => .consume (h ▸ rfl) (.map _ (oneOrMore_inline listContinues_advances
        listContinues_inline ih)))
      (Inline.at (.ite (.map _ SequenceSet.decode_inline) <|
        .ite (.bind keyword_inline fun _ => SearchKey.decodeNamed_inline ctx ih _) (.reject _)))

theorem SearchKey.criteriaContinue_inline (leniency : Leniency) :
    Inline limit leniency (SearchKey.criteriaContinue leniency) :=
  ifNext_inline rfl (.bind .peek fun _ => .ite (.ite (.pure _) (.reject _)) (.pure _)) (.pure _)

theorem SearchKey.criteriaContinue_advances (leniency : Leniency) :
    Advances (SearchKey.criteriaContinue leniency) :=
  ifNext_advances _ <|
    Forward.peek.bind fun _ => .ite (.ite (.pure _) (.reject _)) (.pure _)

theorem SearchKey.criteriaContinue_forward (leniency : Leniency) :
    Forward (SearchKey.criteriaContinue leniency) :=
  (show Inline 0 leniency _ from SearchKey.criteriaContinue_inline leniency).forward

section CriteriaContinue

variable {leniency : Leniency} {c : Cursor} {b : UInt8} {s : List UInt8}

theorem SearchKey.criteriaContinue_of_ne (hc : c.Steady) (h : c.rest.head? ≠ some Octet.sp) :
    SearchKey.criteriaContinue leniency c = (.ok false, c) := by
  rw [SearchKey.criteriaContinue, bind_of_ok (nextIs_apply hc _), if_neg (by simpa using h)]
  rfl

/-- A space announces a key, or is the last octet of its line. -/
theorem SearchKey.criteriaContinue_apply_of_sp (hc : c.Steady) (h : c.rest = Octet.sp :: b :: s) :
    SearchKey.criteriaContinue leniency c = (if Octet.isLineBreak b then
        if leniency.trailingSpace then return false else Decoder.reject .trailingSpace
      else return true : Decoder Bool) (c.advance 1) := by
  have hrest : (c.advance 1).rest = b :: s := by rw [Cursor.rest_advance, h]; rfl
  rw [SearchKey.criteriaContinue, bind_of_ok (nextIs_apply hc _), if_pos (by simp [h]),
    bind_of_ok (consume_of_rest hc h), bind_of_ok (peek_of_rest (hc.advance 1) hrest)]

theorem SearchKey.criteriaContinue_of_last (leniency : Leniency) (hc : c.Steady)
    (h : c.rest = [Octet.sp]) :
    ∃ e, SearchKey.criteriaContinue leniency c = (.error (.io e), c.advance 1) := by
  obtain ⟨e, he⟩ := peek_of_nil (c := c.advance 1) (by rw [Cursor.rest_advance, h]; rfl)
  refine ⟨e, ?_⟩
  rw [SearchKey.criteriaContinue, bind_of_ok (nextIs_apply hc _), if_pos (by simp [h]),
    bind_of_ok (consume_of_rest hc h), bind_of_error he]

end CriteriaContinue

theorem SearchKey.decodeConjunction_inline (first : SearchKey) :
    Inline ctx.maxLiteral ctx.leniency (SearchKey.decodeConjunction ctx first) :=
  .map _ (.many (SearchKey.criteriaContinue_advances _) (SearchKey.criteriaContinue_inline _)
    (SearchKey.decodeWithin_inline ctx _))

theorem SearchKey.decodeCriteria_inline :
    Inline ctx.maxLiteral ctx.leniency (SearchKey.decodeCriteria ctx) := by
  refine .bind .peek fun _ => .ite (.bind keyword_inline fun _ => .ite ?_ ?_) ?_
  · exact .bind sp_inline fun _ => .bind (charset_inline ctx) fun charset =>
      .bind sp_inline fun _ =>
        .bind (SearchKey.decodeWithin_inline { ctx with charset } _) fun _ =>
          .map _ (SearchKey.decodeConjunction_inline { ctx with charset } _)
  · exact .bind (SearchKey.decodeNamed_inline ctx (SearchKey.decodeWithin_inline ctx _) _)
      fun _ => .map _ (SearchKey.decodeConjunction_inline ctx _)
  · exact .bind (SearchKey.decodeWithin_inline ctx _) fun _ =>
      .map _ (SearchKey.decodeConjunction_inline ctx _)

/-! ### Commands -/

namespace CommandBody

theorem decodeMailbox_inline : Inline ctx.maxLiteral ctx.leniency (decodeMailbox ctx) :=
  .bind sp_inline fun _ => Mailbox.decode_inline ctx

theorem decodeMessages_inline : Inline limit leniency decodeMessages :=
  .bind sp_inline fun _ => SequenceSet.decode_inline

theorem decodeArguments_inline (byUid : Bool) (verb : Verb) :
    Inline ctx.maxLiteral ctx.leniency (decodeArguments ctx byUid verb) := by
  have hmailbox := decodeMailbox_inline ctx
  have hmessages : Inline ctx.maxLiteral ctx.leniency decodeMessages := decodeMessages_inline
  have hpattern : Inline ctx.maxLiteral ctx.leniency (MailboxPattern.decode ctx) :=
    MailboxPattern.decode_inline ctx
  cases verb with
  | capability | noop | logout | check | close => exact .pure _
  | login =>
    exact .bind sp_inline fun _ => .bind (astring_inline ctx) fun _ => .bind sp_inline fun _ =>
      .map _ (astring_inline ctx)
  | select | examine | create | delete | subscribe | unsubscribe => exact .map _ hmailbox
  | rename => exact .bind hmailbox fun _ => .map _ hmailbox
  | list | lsub => exact .bind hmailbox fun _ => .bind sp_inline fun _ => .map _ hpattern
  | status =>
    exact .bind hmailbox fun _ => .bind sp_inline fun _ => .map _ StatusItem.decodeList_inline
  | append =>
    have hflags : Inline ctx.maxLiteral ctx.leniency decodeAppendFlags :=
      .bind .peek fun _ => .ite
        (.bind Flag.decodeList_inline fun _ => .bind sp_inline fun _ => .pure _) (.pure _)
    have hdate : Inline ctx.maxLiteral ctx.leniency decodeAppendDate :=
      .bind .peek fun _ => .ite
        (.bind DateTime.decode_inline fun _ => .bind sp_inline fun _ => .pure _) (.pure _)
    exact .bind hmailbox fun _ => .bind sp_inline fun _ => .bind hflags fun _ =>
      .bind hdate fun _ => .map _ (.literalOctets ctx rfl rfl)
  | expunge => exact .ite (.map _ hmessages) (.pure _)
  | search =>
    exact .bind sp_inline fun _ => .bind (SearchKey.decodeCriteria_inline ctx) fun _ => .pure _
  | fetch =>
    exact .bind hmessages fun _ => .bind sp_inline fun _ =>
      .bind (FetchData.decode_inline ctx) fun _ => .pure _
  | store =>
    exact .bind hmessages fun _ => .bind sp_inline fun _ => .map _ StoreRequest.decode_inline
  | copy => exact .bind hmessages fun _ => .map _ hmailbox

/-- The rest of a command after its verb, up to the line break. -/
def decodeUnended (ctx : Context) (byUid : Bool) (verb : Verb) : Decoder CommandBody :=
  if byUid && !verb.takesUid then
    Decoder.reject (.uidNotAllowed verb.name)
  else
    decodeArguments ctx byUid verb

theorem decodeUnended_inline (byUid : Bool) (verb : Verb) :
    Inline ctx.maxLiteral ctx.leniency (decodeUnended ctx byUid verb) :=
  .ite (.reject _) (decodeArguments_inline ctx byUid verb)

theorem decode_eq (byUid : Bool) (verb : Verb) :
    decode ctx byUid verb = (do
      let body ← decodeUnended ctx byUid verb
      Decoder.eol ctx.leniency
      return body) := by
  unfold decode decodeUnended
  split <;> rfl

end CommandBody

/-- The rest of a command after its name, up to the line break. -/
def Command.decodeUnended (ctx : Context) (tag : Tag) (byUid : Bool) (name : String) :
    Decoder Command :=
  match Verb.ofName? name with
  | some verb => return { tag, body := ← CommandBody.decodeUnended ctx byUid verb }
  | none => Decoder.reject (.unknownCommand name)

theorem Command.decodeUnended_inline (tag : Tag) (byUid : Bool) (name : String) :
    Inline ctx.maxLiteral ctx.leniency (Command.decodeUnended ctx tag byUid name) := by
  unfold Command.decodeUnended
  split
  · exact .map _ (CommandBody.decodeUnended_inline ctx byUid _)
  · exact .reject _

theorem Command.decode_eq (tag : Tag) (byUid : Bool) (name : String) :
    Command.decode ctx tag byUid name = (do
      let command ← Command.decodeUnended ctx tag byUid name
      Decoder.eol ctx.leniency
      return command) := by
  unfold Command.decode Command.decodeUnended
  cases Verb.ofName? name with
  | none => rfl
  | some verb => simp only [CommandBody.decode_eq, bind_assoc, pure_bind]

namespace Request

/-- A space and the command after it, up to the line break. -/
def decodeUnended (ctx : Context) (tag : Tag) : Decoder Command := do
  Decoder.sp
  let word ← Decoder.keyword
  if word = "UID" then
    Decoder.sp
    let name ← Decoder.keyword
    Command.decodeUnended ctx tag true name
  else
    Command.decodeUnended ctx tag false word

theorem decodeUnended_inline (tag : Tag) :
    Inline ctx.maxLiteral ctx.leniency (decodeUnended ctx tag) :=
  .bind sp_inline fun _ => .bind keyword_inline fun _ => .ite
    (.bind sp_inline fun _ => .bind keyword_inline fun _ =>
      Command.decodeUnended_inline ctx tag true _)
    (Command.decodeUnended_inline ctx tag false _)

theorem decodeCommand_eq (tag : Tag) :
    decodeCommand ctx tag = (do
      let command ← decodeUnended ctx tag
      Decoder.eol ctx.leniency
      return command) := by
  unfold decodeCommand decodeUnended
  simp only [Command.decode_eq, bind_assoc]
  congr 1; funext _
  congr 1; funext word
  split
  · simp only [bind_assoc]
  · rfl

theorem decodeCommand_composed (tag : Tag) : Composed True True (decodeCommand ctx tag) := by
  rw [decodeCommand_eq]
  exact (decodeUnended_inline ctx tag).composed.bind fun _ => (Composed.eol _).bind fun _ => .pure _

theorem decodeCommand_forward (tag : Tag) : Forward (decodeCommand ctx tag) :=
  (decodeCommand_composed ctx tag).forward

/-- A tag and the command after it, up to the line break. -/
def parse (ctx : Context) : Decoder Command := do
  let tag ← Tag.decode
  decodeUnended ctx tag

theorem parse_inline : Inline ctx.maxLiteral ctx.leniency (parse ctx) :=
  .bind Tag.decode_inline fun _ => decodeUnended_inline ctx _

/-- A request that is understood, with its line break. -/
def read (ctx : Context) : Decoder Command := do
  let command ← parse ctx
  Decoder.eol ctx.leniency
  return command

theorem read_composed : Composed True True (read ctx) :=
  (parse_inline ctx).composed.bind fun _ => (Composed.eol _).bind fun _ => .pure _

theorem read_forward : Forward (read ctx) := (read_composed ctx).forward

theorem read_eq : read ctx = (do decodeCommand ctx (← Tag.decode)) := by
  simp only [read, parse, bind_assoc]
  congr 1; funext tag
  rw [decodeCommand_eq]

theorem discard_composed {asks takes : Prop} (tag : Option Tag) (error : DecodingError) :
    Composed asks takes (discard tag error) := Composed.discardLine.bind fun _ => .pure _

/-- What is done with the outcome of reading a command. -/
theorem answer_composed {asks takes : Prop} (tag : Tag) (r : Except DecodingError Command) :
    Composed asks takes (match r with
      | .error e => discard (some tag) e
      | .ok c => return .command c : Decoder Request) := by
  cases r with
  | error e => exact discard_composed (some tag) e
  | ok command => exact .pure _

theorem decode_composed : Composed True True (decode ctx) := by
  have htag : Inline 0 {} Tag.decode := Tag.decode_inline
  refine htag.composed.attempt.bind fun tag => ?_
  cases tag with
  | error e => exact discard_composed none e
  | ok tag => exact (decodeCommand_composed ctx tag).attempt.bind (answer_composed tag)

/-- A request only moves forward, whatever the client sends. -/
theorem decode_forward : Forward (decode ctx) := (decode_composed ctx).forward

/-- The tag of a request, if it can be read. -/
def tag? (c : Cursor) : Option Tag :=
  match Tag.decode c with
  | (.ok tag, _) => some tag
  | _ => none

section Decode

variable {ctx : Context} {c e : Cursor} {command : Command} {error : DecodingError} {f : Failure}

theorem decode_of_tag {tag : Tag} {d : Cursor} (h : Tag.decode c = (.ok tag, d)) :
    decode ctx c = (do
      match ← attempt (decodeCommand ctx tag) with
      | .error e => discard (some tag) e
      | .ok c => return .command c) d :=
  bind_of_ok (attempt_of_ok h)

theorem decode_of_ok (h : read ctx c = (.ok command, e)) :
    decode ctx c = (.ok (.command command), e) := by
  rw [read_eq, bind_apply] at h
  rcases htag : Tag.decode c with ⟨f | tag, d⟩ <;> rw [htag] at h
  · simp at h
  · rw [decode_of_tag htag, bind_of_ok (attempt_of_ok h)]
    rfl

/-- A request that is rejected is discarded from where it was rejected. -/
theorem decode_of_rejected (h : read ctx c = (.error (.rejected error), e)) :
    decode ctx c = discard (tag? c) error e := by
  rw [read_eq, bind_apply] at h
  rcases htag : Tag.decode c with ⟨f | tag, d⟩ <;> rw [htag] at h
  · obtain ⟨rfl, rfl⟩ : f = .rejected error ∧ d = e := by simpa using h
    rw [decode, bind_of_ok (attempt_of_rejected htag), tag?, htag]
  · rw [decode_of_tag htag, bind_of_ok (attempt_of_rejected h), tag?, htag]

theorem decode_of_fatal (h : read ctx c = (.error f, e)) (hf : f.isFatal = true) :
    decode ctx c = (.error f, e) := by
  rw [read_eq, bind_apply] at h
  rcases htag : Tag.decode c with ⟨g | tag, d⟩ <;> rw [htag] at h
  · obtain ⟨rfl, rfl⟩ : g = f ∧ d = e := by simpa using h
    rw [decode, bind_of_error (attempt_of_fatal htag hf)]
  · rw [decode_of_tag htag, bind_of_error (attempt_of_fatal h hf)]

theorem discard_of_ok {tag : Option Tag} (h : discardLine c = (.ok (), e)) :
    discard tag error c = (.ok (.malformed tag error), e) := by
  rw [discard, bind_of_ok h]
  rfl

theorem discard_of_error {tag : Option Tag} (h : discardLine c = (.error f, e)) :
    discard tag error c = (.error f, e) := by
  rw [discard, bind_of_error h]

end Decode

end Request

end ImapRequest
