import ImapRequest.Proofs.Cut.Basic
import ImapRequest.Proofs.Alike
import ImapRequest.Proofs.Lenient.Requests

/-!
# Requests that end too early

Every decoder of a request is run on a front of the octets of a command (`Decoder.Cut`).  All of
them fail for lack of octets, but for those that look up a word: the end of input ends the word, and
what is left of it may be refused.  So the names of commands, attributes, search keys and items, the
labels of character sets, sets of message numbers, dates, sections and numbers above zero are where
a request that ends too early is answered as malformed.

* `Request.read_cut` : what is read from a front of the octets of a command;
* `Request.decode_truncated` : how a front of the octets of a command is answered.
-/

namespace ImapRequest

open Decoder

variable (ctx : Context)

/-! ### Tokens, dates and flags -/

theorem Tag.decode_cut : Cut anything Tag.decode :=
  (Cut.takeWhile1 _ _).map_anything _

theorem Atom.decode_cut : Cut anything Atom.decode :=
  (Cut.takeWhile1 _ _).map_anything _

theorem SequenceSet.decode_cut : Cut anything SequenceSet.decode := by
  refine (Cut.takeWhile1 _ _).bind (fun octets => .token _ _ octets) ?_
  rintro _ w _ next ⟨hsplit, rfl, -⟩ c b e hc hrun d hd hrest
  exact .token .sequenceSet _ (fun _ _ => ⟨hsplit, rfl⟩) fun _ => trivial

theorem Date.decode_cut : Cut anything Date.decode := by
  refine Cut.bind (S := shortWord Octet.isDateChar id)
    (Cut.peek.bind_never fun _ => .ite Cut.quotedToken.of_never (.takeWhile1 _ _))
    (fun octets => .token _ _ octets) ?_
  rintro _ w _ next ⟨hsplit, rfl, -⟩ c b e hc hrun d hd hrest
  exact .token .date _ (fun _ _ => ⟨hsplit, rfl⟩) fun _ => trivial

theorem DateTime.decode_cut : Cut never DateTime.decode :=
  Cut.quotedToken.bind_never fun octets => .token _ _ octets

theorem Flag.decode_cut : Cut anything Flag.decode :=
  Cut.peek.bind_never fun _ => .ite
    (Cut.consume.bind_never fun _ => Atom.decode_cut.map_anything _)
    (Atom.decode_cut.map_anything _)

theorem Flag.decodeList_cut : Cut anything Flag.decodeList :=
  (Cut.expect _).bind_never fun _ => Cut.peek.bind_never fun _ => .ite
    (Cut.consume.bind_never fun _ => .pure _) ((Cut.list Flag.decode_cut).map_anything _)

theorem Flag.bareContinues_cut : Cut (fun _ t _ _ => t = false) Flag.bareContinues :=
  (Cut.nextIs _).bind (fun _ => .ite (Cut.consume.bind_never fun _ => .pure _) (.pure _)) <| by
    rintro _ _ w next rfl c t e _ _ d _ _
    rfl

theorem Flag.bareContinues_quiet : Quiet Flag.bareContinues := by
  refine .bind (Cut.nextIs _).forward (.nextIs _) fun _ => .ite ?_ (.pure _)
  exact (consume_starved.bind _).quiet

theorem Flag.decodeBare_cut : Cut anything Flag.decodeBare :=
  (Cut.oneOrMore (ifNext_advances _ (.pure true)) bareContinues_cut bareContinues_quiet
    decode_cut).map_anything _

theorem StoreRequest.decodeResponse_cut : Cut anything StoreRequest.decodeResponse := by
  refine Cut.keyword_bind (fun _ => .ite (.pure _) <| .ite (.pure _) (.reject _))
    fun w next hsplit response d _ _ => ?_
  split
  · trivial
  split
  · trivial
  · exact ⟨hsplit, rfl⟩

theorem StoreRequest.decode_cut : Cut anything StoreRequest.decode := by
  have hmode : Cut never StoreRequest.decodeMode :=
    Cut.peek.bind_never fun _ => .ite (Cut.consume.bind_never fun _ => .pure _) <|
      .ite (Cut.consume.bind_never fun _ => .pure _) (.pure _)
  have hflags : Cut anything (do
      if (← Decoder.peek) == Octet.lparen then Flag.decodeList else Flag.decodeBare) :=
    Cut.peek.bind_never fun _ => .ite Flag.decodeList_cut Flag.decodeBare_cut
  exact hmode.bind_never fun _ => decodeResponse_cut.bind_starved
    (fun _ => Cut.sp.bind_never fun _ => hflags.map_anything _) fun _ => sp_starved.bind _

/-! ### Mailboxes and status items -/

theorem Mailbox.decode_cut : Cut anything (Mailbox.decode ctx) := (Cut.astring ctx).map_anything _

theorem MailboxPattern.decode_cut : Cut anything (MailboxPattern.decode ctx) :=
  (Cut.wordOrString _ _ ctx).map_anything _

theorem StatusItem.decode_cut : Cut anything StatusItem.decode := by
  refine Cut.keyword_bind (fun word => ?_) fun w next hsplit item d _ _ => ?_
  · split
    · exact .pure _
    · exact .reject _
  · cases StatusItem.ofKeyword (Octet.toText (w.map Octet.upper)) with
    | some item => trivial
    | none => exact ⟨hsplit, rfl⟩

theorem StatusItem.decodeList_cut : Cut anything StatusItem.decodeList :=
  (Cut.expect _).bind_never fun _ => .list decode_cut

/-! ### What a FETCH command asks for -/

namespace BodyElement

theorem decodeFieldNames_cut : Cut anything (decodeFieldNames ctx) :=
  (Cut.expect _).bind_never fun _ => .list (Cut.wordOrString _ _ ctx)

theorem decodeRun_cut : Cut never decodeRun :=
  (Cut.expect _).bind_never fun _ => Cut.number.bind_starved
    (fun _ => (Cut.expect _).bind_never fun _ => Cut.number.bind_starved
      (fun _ => (Cut.expect _).bind_never fun _ => .ite (.reject _) (.pure _))
      fun _ => (expect_starved _).bind _)
    fun _ => (expect_starved _).bind _

/-- Whether the parts of an element fit has nothing to do with the run. -/
theorem exists_ofParts {name : BodyName} {path : List Nat} {kind : SectionKind}
    {fieldNames : Option (OneOrMore String)} {run : Option OctetRun} {element : BodyElement}
    (h : ofParts name path kind fieldNames run = .ok element) (run' : Option OctetRun) :
    ∃ element', ofParts name path kind fieldNames run' = .ok element' := by
  unfold ofParts at h ⊢
  split at h
  · simp at h
  split at h
  · simp at h
  split at h
  · simp at h
  · rename_i h₁ h₂ h₃
    exact ⟨_, by rw [if_neg h₁, if_neg h₂, if_neg h₃]⟩

theorem decode_cut (name : BodyName) : Cut anything (BodyElement.decode ctx name) := by
  have hfields (kind : SectionKind) : Cut anything (do
      if kind.hasFieldNames then
        Decoder.sp
        return some (← decodeFieldNames ctx)
      else
        return none) :=
    .ite (Cut.sp.bind_never fun _ => (decodeFieldNames_cut ctx).map_anything _) (.pure _)
  have hrun : Cut (fun _ run _ _ => run = none) (do
      if ← Decoder.nextIs Octet.less then
        return some (← decodeRun)
      else
        return none) := by
    refine (Cut.nextIs _).bind
      (fun _ => .ite (decodeRun_cut.map some fun _ _ _ _ h => h.elim) (.pure _)) ?_
    rintro _ _ w next rfl c t e _ _ d _ _
    rfl
  refine (Cut.expect _).bind_never fun _ => (Cut.takeWhile _).bind (fun octets => ?_) ?_
  · refine Cut.bind_never (.token _ _ octets) fun ⟨path, kind⟩ => ?_
    refine (hfields kind).bind_starved (fun fieldNames => ?_) fun _ => (expect_starved _).bind _
    refine (Cut.expect _).bind_never fun _ => hrun.bind (fun run => .ofExcept _) ?_
    rintro run _ w next rfl c element e hc h d hd hrest
    cases hparts : ofParts name path kind fieldNames run with
    | error error =>
      simp [hparts, Decoder.ofExcept, Decoder.reject, Decoder.fail, Except.mapError] at h
    | ok element =>
      obtain ⟨element', h'⟩ := exists_ofParts hparts none
      rw [h']
      trivial
  · -- A section that is split may be refused, and without octets it is not ended.
    rintro _ w _ next ⟨hw, hnext, rfl, -⟩ c b e hc _ d hd hrest
    have hnil : SectionKind.ofToken [] = .ok ([], .content) := rfl
    have htoken : CutTail (fun _ _ _ => True) w next
        (Decoder.token .bodySection SectionKind.ofToken w d) := by
      refine .token _ _ (fun fault hfault => ⟨⟨?_, hw, hnext⟩, rfl⟩) fun _ => trivial
      rintro rfl
      simp [hnil] at hfault
    refine htoken.bind (Cut.token (S := never) _ _ _).forward (fun ⟨path, kind⟩ => ?_)
      (fun _ => trivial) hd hrest
    exact .bind (hfields kind).forward (.ite (sp_starved.bind _).quiet (.pure _)) fun _ =>
      ((expect_starved _).bind _).quiet

end BodyElement

namespace FetchItem

theorem decodeNamed_cut (word : String) : Cut anything (decodeNamed ctx word) := by
  unfold decodeNamed
  split
  · exact .pure _
  · exact .ite ((Cut.nextIs _).bind_quiet
        (fun _ => .ite ((BodyElement.decode_cut ctx _).map_anything _) (.pure _))
        fun _ => .ite (((expect_starved _).bind _).bind _).quiet (.pure _)) <|
      .ite ((BodyElement.decode_cut ctx _).map_anything _) (.reject _)

/-- The name of an attribute that is split may be the name of none. -/
theorem decodeNamed_cutTail (item : FetchItem) {w : List UInt8} {next : UInt8}
    (hsplit : SplitWord Octet.isKeywordChar w next) {d : Cursor} (hd : d.Steady)
    (hrest : d.rest = []) :
    CutTail (anything item) w next (decodeNamed ctx (Octet.toText (w.map Octet.upper)) d) := by
  unfold decodeNamed
  cases named.lookup (Octet.toText (w.map Octet.upper)) with
  | some item => trivial
  | none =>
    dsimp only
    split
    · refine .of_quiet (.bind (Cut.nextIs _).forward (.nextIs _) fun _ => .ite ?_ (.pure _))
        (fun _ => trivial) hd hrest
      exact (((expect_starved _).bind _).bind _).quiet
    split
    · exact .of_starved (((expect_starved _).bind _).bind _) hd hrest
    · exact ⟨hsplit, rfl⟩

theorem decode_cut : Cut anything (FetchItem.decode ctx) :=
  Cut.keyword_bind (decodeNamed_cut ctx) fun _ _ hsplit item _ =>
    decodeNamed_cutTail ctx item hsplit

end FetchItem

theorem FetchData.decode_cut : Cut anything (FetchData.decode ctx) := by
  refine Cut.peek.bind_never fun _ => .ite
    (Cut.consume.bind_never fun _ => (Cut.list (FetchItem.decode_cut ctx)).map_anything _) ?_
  refine Cut.keyword_bind (fun word => ?_) fun w next hsplit data d hd hrest => ?_
  · split
    · exact .pure _
    · exact (FetchItem.decodeNamed_cut ctx word).map_anything _
  · cases FetchShorthand.ofKeyword (Octet.toText (w.map Octet.upper)) with
    | some shorthand => trivial
    | none =>
      exact (FetchItem.decodeNamed_cutTail ctx .body hsplit hd hrest).bind
        (FetchItem.decodeNamed_cut ctx _).forward (fun _ => .pure _) (fun _ => trivial) hd hrest

/-! ### Search keys -/

namespace SearchKey

variable {key : Decoder SearchKey}

theorem decodeForm_cut (hkey : Cut anything key) (form : SearchForm) :
    Cut anything (decodeForm ctx key form) := by
  have hastring := Cut.astring ctx
  cases form with
  | plain k => exact .pure _
  | text make => exact Cut.sp.bind_never fun _ => hastring.map_anything _
  | header =>
    exact Cut.sp.bind_never fun _ => hastring.bind_starved
      (fun _ => Cut.sp.bind_never fun _ => hastring.map_anything _) fun _ => sp_starved.bind _
  | flag make => exact Cut.sp.bind_never fun _ => Atom.decode_cut.map_anything _
  | date make => exact Cut.sp.bind_never fun _ => Date.decode_cut.map_anything _
  | number make => exact Cut.sp.bind_never fun _ => Cut.number.map_anything _
  | positive make => exact Cut.sp.bind_never fun _ => Cut.positive.map_anything _
  | set make => exact Cut.sp.bind_never fun _ => SequenceSet.decode_cut.map_anything _
  | not => exact Cut.sp.bind_never fun _ => hkey.map_anything _
  | or =>
    exact Cut.sp.bind_never fun _ => hkey.bind_starved
      (fun _ => Cut.sp.bind_never fun _ => hkey.map_anything _) fun _ => sp_starved.bind _

/-- A form without arguments needs no octets, and the other forms start with a space. -/
theorem decodeForm_quiet (form : SearchForm) : Quiet (decodeForm ctx key form) := by
  cases form with
  | plain k => exact .pure _
  | _ => exact (sp_starved.bind _).quiet

theorem decodeNamed_cut (hkey : Cut anything key) (word : String) :
    Cut anything (decodeNamed ctx key word) := by
  unfold decodeNamed
  split
  · exact decodeForm_cut ctx hkey _
  · exact .reject _

/-- The name of a search key that is split may be the name of none. -/
theorem decodeNamed_cutTail (k : SearchKey) {w : List UInt8} {next : UInt8}
    (hsplit : SplitWord Octet.isKeywordChar w next) {d : Cursor} (hd : d.Steady)
    (hrest : d.rest = []) :
    CutTail (anything k) w next (decodeNamed ctx key (Octet.toText (w.map Octet.upper)) d) := by
  unfold decodeNamed
  cases forms.lookup (Octet.toText (w.map Octet.upper)) with
  | some form => exact .of_quiet (decodeForm_quiet ctx form) (fun _ => trivial) hd hrest
  | none => exact ⟨hsplit, rfl⟩

theorem decodeWithin_cut (levels : Nat) : Cut anything (decodeWithin ctx levels) := by
  induction levels with
  | zero => exact .reject _
  | succ levels ih =>
    refine Cut.peek.bind_never fun _ => .ite
      (Cut.consume.bind_never fun _ => (Cut.list ih).map_anything _) <| .ite
      (SequenceSet.decode_cut.map_anything _) <| .ite ?_ (.reject _)
    exact Cut.keyword_bind (decodeNamed_cut ctx ih) fun _ _ hsplit key _ =>
      decodeNamed_cutTail ctx key hsplit

theorem criteriaContinue_cut (leniency : Leniency) :
    Cut (fun _ t _ _ => t = false) (criteriaContinue leniency) := by
  refine (Cut.nextIs _).bind (fun _ => .ite (Cut.consume.bind_never fun _ =>
    Cut.peek.bind_never fun _ => .ite (.ite (.pure _) (.reject _)) (.pure _)) (.pure _)) ?_
  rintro _ _ w next rfl c t e _ _ d _ _
  rfl

theorem criteriaContinue_quiet (leniency : Leniency) : Quiet (criteriaContinue leniency) :=
  .bind (Cut.nextIs _).forward (.nextIs _) fun _ => .ite (consume_starved.bind _).quiet (.pure _)

theorem decodeConjunction_cut (first : SearchKey) : Cut anything (decodeConjunction ctx first) :=
  (Cut.many (criteriaContinue_advances _) (criteriaContinue_cut _) (criteriaContinue_quiet _)
    (decodeWithin_cut ctx _)).map_anything _

theorem decodeConjunction_quiet (first : SearchKey) : Quiet (decodeConjunction ctx first) := by
  have hkey := (decodeWithin_cut ctx (maxLevel + 1 - 1)).forward
  have hmore := (criteriaContinue_cut ctx.leniency).forward
  exact .map _ (hmore.many hkey)
    (.many (criteriaContinue_advances _) hmore hkey (criteriaContinue_quiet _))

theorem decodeCriteria_cut : Cut anything (decodeCriteria ctx) := by
  have hrest (ctx : Context) (charset : Option Charset) (first : SearchKey) :
      Cut anything (do return (charset, ← decodeConjunction ctx first)) :=
    (decodeConjunction_cut ctx first).map_anything _
  have hquiet (ctx : Context) (charset : Option Charset) (first : SearchKey) :
      Quiet (do return (charset, ← decodeConjunction ctx first)) :=
    .map _ (decodeConjunction_cut ctx first).forward (decodeConjunction_quiet ctx first)
  refine Cut.peek.bind_never fun _ => .ite (Cut.keyword_bind (fun word => .ite ?_ ?_)
    fun w next hsplit criteria d hd hrest => ?_) ?_
  · exact Cut.sp.bind_never fun _ => (Cut.charset ctx).bind_starved
      (fun charset => Cut.sp.bind_never fun _ =>
        (decodeWithin_cut { ctx with charset } _).bind_quiet (hrest _ _) (hquiet _ _))
      fun _ => sp_starved.bind _
  · exact (decodeNamed_cut ctx (decodeWithin_cut ctx _) word).bind_quiet (hrest _ _) (hquiet _ _)
  · split
    · exact .of_starved (sp_starved.bind _) hd hrest
    · exact (decodeNamed_cutTail ctx .all hsplit hd hrest).bind
        (decodeNamed_cut ctx (decodeWithin_cut ctx _) _).forward (hquiet _ _) (fun _ => trivial)
        hd hrest
  · exact (decodeWithin_cut ctx _).bind_quiet (hrest _ _) (hquiet _ _)

end SearchKey

/-! ### Commands -/

namespace CommandBody

theorem decodeMailbox_cut : Cut anything (decodeMailbox ctx) :=
  Cut.sp.bind_never fun _ => Mailbox.decode_cut ctx

theorem decodeMessages_cut : Cut anything decodeMessages :=
  Cut.sp.bind_never fun _ => SequenceSet.decode_cut

theorem decodeMailbox_starved : Starved (decodeMailbox ctx) := sp_starved.bind _

theorem decodeMessages_starved : Starved decodeMessages := sp_starved.bind _

theorem decodeArguments_cut (byUid : Bool) (verb : Verb) :
    Cut anything (decodeArguments ctx byUid verb) := by
  have hmailbox := decodeMailbox_cut ctx
  have hmessages := decodeMessages_cut
  have hpattern := MailboxPattern.decode_cut ctx
  cases verb with
  | capability | noop | logout | check | close => exact .pure _
  | login =>
    exact Cut.sp.bind_never fun _ => (Cut.astring ctx).bind_starved
      (fun _ => Cut.sp.bind_never fun _ => (Cut.astring ctx).map_anything _)
        fun _ => sp_starved.bind _
  | select | examine | create | delete | subscribe | unsubscribe => exact hmailbox.map_anything _
  | rename =>
    exact hmailbox.bind_starved (fun _ => hmailbox.map_anything _) fun _ =>
      (decodeMailbox_starved ctx).bind _
  | list | lsub =>
    exact hmailbox.bind_starved (fun _ => Cut.sp.bind_never fun _ => hpattern.map_anything _)
      fun _ => sp_starved.bind _
  | status =>
    exact hmailbox.bind_starved
      (fun _ => Cut.sp.bind_never fun _ => StatusItem.decodeList_cut.map_anything _)
      fun _ => sp_starved.bind _
  | append =>
    have hflags : Cut never decodeAppendFlags :=
      Cut.peek.bind_never fun _ => .ite
        (Flag.decodeList_cut.bind_starved (fun _ => Cut.sp.bind_never fun _ => .pure _)
          fun _ => sp_starved.bind _) (.pure _)
    have hdate : Cut never decodeAppendDate :=
      Cut.peek.bind_never fun _ => .ite
        (DateTime.decode_cut.bind_never fun _ => Cut.sp.bind_never fun _ => .pure _) (.pure _)
    exact hmailbox.bind_starved
      (fun _ => Cut.sp.bind_never fun _ => hflags.bind_never fun _ => hdate.bind_never fun _ =>
        (Cut.literalOctets ctx).map_anything _) fun _ => sp_starved.bind _
  | expunge => exact .ite (hmessages.map_anything _) (.pure _)
  | search =>
    exact Cut.sp.bind_never fun _ => (SearchKey.decodeCriteria_cut ctx).bind_quiet
      (fun _ => .pure _) fun _ => .pure _
  | fetch =>
    exact hmessages.bind_starved (fun _ => Cut.sp.bind_never fun _ =>
      (FetchData.decode_cut ctx).map_anything _) fun _ => sp_starved.bind _
  | store =>
    exact hmessages.bind_starved (fun _ => Cut.sp.bind_never fun _ =>
      StoreRequest.decode_cut.map_anything _) fun _ => sp_starved.bind _
  | copy =>
    exact hmessages.bind_starved (fun _ => hmailbox.map_anything _) fun _ =>
      (decodeMailbox_starved ctx).bind _

theorem decodeArguments_quiet (byUid : Bool) (verb : Verb) :
    Quiet (decodeArguments ctx byUid verb) := by
  have hmailbox := decodeMailbox_starved ctx
  cases verb with
  | capability | noop | logout | check | close => exact .pure _
  | select | examine | create | delete | subscribe | unsubscribe | rename | list | lsub | status
  | append => exact (hmailbox.bind _).quiet
  | login | search => exact (sp_starved.bind _).quiet
  | expunge => exact .ite (decodeMessages_starved.bind _).quiet (.pure _)
  | fetch | store | copy => exact (decodeMessages_starved.bind _).quiet

theorem decodeUnended_cut (byUid : Bool) (verb : Verb) :
    Cut anything (decodeUnended ctx byUid verb) :=
  .ite (.reject _) (decodeArguments_cut ctx byUid verb)

end CommandBody

namespace Verb

/-- No name of a verb that takes `UID` starts with the name of one that does not. -/
theorem takesUid_of_split {v v' : Verb} {w u : List UInt8}
    (hv : ofName? (Octet.toText ((w ++ u).map Octet.upper)) = some v)
    (hv' : ofName? (Octet.toText (w.map Octet.upper)) = some v') (h : v.takesUid = true) :
    v'.takesUid = true := by
  have hnames : ∀ v ∈ all, ∀ v' ∈ all, v.takesUid = true →
      (v'.name.toList.map Char.toUpper).isPrefixOf (v.name.toList.map Char.toUpper) = true →
      v'.takesUid = true := by decide
  have hname : ∀ {name v}, ofName? name = some v →
      v.name.toList.map Char.toUpper = name.toList.map Char.toUpper := fun hfound => by
    simpa [sameLetters] using List.find?_some hfound
  refine hnames v v.mem_all v' v'.mem_all h ?_
  rw [hname hv, hname hv']
  simp [Octet.toText]

end Verb

namespace Command

theorem decodeUnended_cut (tag : Tag) (byUid : Bool) (name : String) :
    Cut anything (decodeUnended ctx tag byUid name) := by
  unfold decodeUnended
  split
  · exact (CommandBody.decodeUnended_cut ctx byUid _).map_anything _
  · exact .reject _

/-- A verb that takes `UID` is all that a command with `UID` in front can be read with. -/
theorem takesUid_of_decodeUnended {tag : Tag} {name : String} {c e : Cursor} {command : Command}
    (h : decodeUnended ctx tag true name c = (.ok command, e)) :
    ∃ verb, Verb.ofName? name = some verb ∧ verb.takesUid = true := by
  unfold decodeUnended at h
  cases hverb : Verb.ofName? name with
  | none =>
    rw [hverb] at h
    simp [reject, fail] at h
  | some verb =>
    refine ⟨verb, rfl, ?_⟩
    cases htakes : verb.takesUid with
    | true => rfl
    | false =>
      have hreject : CommandBody.decodeUnended ctx true verb = reject (.uidNotAllowed verb.name) :=
        if_pos (by simp [htakes])
      simp only [hverb, hreject] at h
      simp [bind_apply, reject, fail] at h

/-- The name of a command that is split may be the name of none, or of another command, which then
takes `UID` as well if that is in front. -/
theorem decodeUnended_cutTail {tag : Tag} {byUid : Bool} {w u : List UInt8} {next : UInt8}
    (hsplit : SplitWord Octet.isKeywordChar w next)
    (huid : byUid = true → ∃ verb,
      Verb.ofName? (Octet.toText ((w ++ u).map Octet.upper)) = some verb ∧ verb.takesUid = true)
    (command : Command) {d : Cursor} (hd : d.Steady) (hrest : d.rest = []) :
    CutTail (anything command) w next
      (decodeUnended ctx tag byUid (Octet.toText (w.map Octet.upper)) d) := by
  unfold decodeUnended
  cases hverb : Verb.ofName? (Octet.toText (w.map Octet.upper)) with
  | none => exact ⟨hsplit, rfl⟩
  | some verb =>
    refine .of_quiet (.map _ (CommandBody.decodeUnended_cut ctx byUid verb).forward ?_)
      (fun _ => trivial) hd hrest
    have htakes : ¬ (byUid && !verb.takesUid) = true := by
      rw [Bool.and_eq_true, Bool.not_eq_true']
      rintro ⟨hbyUid, hnot⟩
      obtain ⟨full, hfull, htakes⟩ := huid hbyUid
      simp [Verb.takesUid_of_split hfull hverb htakes] at hnot
    unfold CommandBody.decodeUnended
    rw [if_neg htakes]
    exact CommandBody.decodeArguments_quiet ctx byUid verb

end Command

/-- The octets of words that an error can be about. -/
def Octet.isWordChar (b : UInt8) : Bool := isAstringChar b || b == star

theorem DecodingError.isWordChar_of_wordClass (error : DecodingError) {b : UInt8}
    (h : error.wordClass b = true) : Octet.isWordChar b = true := by
  have hclasses : ∀ b, (Octet.isKeywordChar b || Octet.isDigit b || Octet.isSequenceSetChar b ||
      BodyElement.isSectionChar b || Octet.isDateChar b || Octet.isAstringChar b) = true →
      Octet.isWordChar b = true := Octet.forall_octet (by decide +kernel)
  refine hclasses b ?_
  cases error with
  | invalidToken kind _ _ => cases kind <;> simp_all [wordClass]
  | _ => simp_all [wordClass]

namespace Request

theorem decodeUnended_cut (tag : Tag) : Cut anything (decodeUnended ctx tag) := by
  have hname : Cut anything (do Command.decodeUnended ctx tag true (← Decoder.keyword)) := by
    refine Cut.keyword.bind (Command.decodeUnended_cut ctx tag true) ?_
    rintro _ _ w next ⟨hsplit, rfl, u, rfl⟩ c command e hc hrun d hd hrest
    exact Command.decodeUnended_cutTail ctx hsplit
      (fun _ => Command.takesUid_of_decodeUnended ctx hrun) command hd hrest
  refine Cut.sp.bind_never fun _ => Cut.keyword.bind (fun word => .ite
    (Cut.sp.bind_never fun _ => hname) (Command.decodeUnended_cut ctx tag false word)) ?_
  rintro _ _ w next ⟨hsplit, rfl, u, rfl⟩ c command e hc hrun d hd hrest
  by_cases huid : Octet.toText (w.map Octet.upper) = "UID"
  · rw [if_pos huid]
    exact .of_starved (sp_starved.bind _) hd hrest
  · rw [if_neg huid]
    exact Command.decodeUnended_cutTail ctx (u := u) hsplit (fun h => by simp at h) command hd hrest

theorem read_cut : Cut never (read ctx) :=
  Cut.bind_starved (Tag.decode_cut.bind_starved (decodeUnended_cut ctx) fun _ => sp_starved.bind _)
    (fun _ => (Cut.eol _).bind_never fun _ => .pure _) fun _ => (eol_starved _).bind _

/-- A command carries the tag of its request. -/
theorem decodeCommand_yields_tag (tag : Tag) :
    Yields (decodeCommand ctx tag) (fun command => command.tag = tag) := by
  have hname (byUid : Bool) (name : String) :
      Yields (Command.decode ctx tag byUid name) (fun command => command.tag = tag) := by
    unfold Command.decode
    split
    · exact .map (P := fun _ => True) (fun _ _ _ _ => trivial) fun _ _ => rfl
    · exact .reject
  exact .after fun _ => .after fun _ => .ite
    (fun _ => .after fun _ => .after fun _ => hname true _) fun _ => hname false _

section Cut

variable {ctx} {c e : Cursor} {command : Command} {bs more : List UInt8}

/-- What is wrong with a tag is an octet, and not a word. -/
theorem exists_unexpected_of_tag (hc : c.Steady) {error : DecodingError} {d : Cursor}
    (h : Tag.decode c = (.error (.rejected error), d)) : ∃ b, error = .unexpected b "tag" := by
  have hrun := takeWhile_apply Octet.isTagChar hc
  unfold Tag.decode takeWhile1 at h
  rw [bind_assoc, bind_of_ok hrun] at h
  split at h
  · -- The octet that was found instead of a tag is missing or reported.
    generalize c.advance (c.rest.takeWhile Octet.isTagChar).length = c' at h
    rw [bind_assoc] at h
    cases hpeek : c'.peek with
    | error io =>
      have hfail : peek c' = (.error (.io io), c') := by simp only [peek, ofIo, hpeek]; rfl
      simp [bind_of_error hfail] at h
    | ok b =>
      rw [bind_of_ok (peek_of_peek hpeek)] at h
      exact ⟨b, by simpa [bind_apply, unexpected, reject, fail, eq_comm] using congrArg Prod.fst h⟩
  · simp [pure_apply] at h

/-- A front of the octets of a command is not rejected before its tag was read. -/
theorem tag?_of_cut (hc : c.Steady) (h : read ctx c = (.ok command, e))
    (hrest : c.rest = bs ++ more)
    {error : DecodingError} {d : Cursor}
    (hcut : read ctx (c.withRest bs) = (.error (.rejected error), d))
    (hrefuses : AtCut bs more error.Refuses) : tag? (c.withRest bs) = some command.tag := by
  rw [read_eq] at h hcut
  obtain ⟨tag, d₀, htag, h⟩ := exists_of_bind h
  rw [decodeCommand_yields_tag ctx tag h]
  have htagcut := Tag.decode_cut.cutAt c hc bs more tag d₀ hrest htag
  rcases htag' : Tag.decode (c.withRest bs) with ⟨g | tag', d'⟩ <;> rw [htag'] at htagcut
  · -- An error about a tag would not be about a word.
    rw [bind_of_error htag'] at hcut
    obtain ⟨rfl, rfl⟩ : g = .rejected error ∧ d' = d := by simpa using hcut
    obtain ⟨b, rfl⟩ := exists_unexpected_of_tag (hc.withRest bs) htag'
    obtain ⟨_, _, -, -, -, habout⟩ := hrefuses
    exact habout.elim
  · rcases htagcut with ⟨rfl, -⟩ | ⟨hnil, -⟩
    · rw [tag?, htag']
    · -- Without octets behind the tag the request is not rejected.
      have hd' : d'.Steady := Tag.decode_forward.steady_of_run (hc.withRest bs) htag'
      have hstarved : Starved (decodeCommand ctx tag') := sp_starved.bind _
      obtain ⟨io, hio⟩ := hstarved d' hd' hnil
      rw [bind_of_ok htag', hio] at hcut
      simp at hcut

/-- What becomes of a front of the octets of a command on the same source. -/
theorem decode_withRest_of_read (hc : c.Steady) (h : read ctx c = (.ok command, e))
    (hend : e.rest = []) (hrest : c.rest = bs ++ more) (hmore : more ≠ []) :
    (∃ io d, decode ctx (c.withRest bs) = (.error (.io io), d)) ∨
      ∃ error d, decode ctx (c.withRest bs) = (.ok (.malformed (some command.tag) error), d) ∧
        d.rest = [] ∧ AtCut bs more error.Refuses := by
  have hcut := (read_cut ctx).cutAt c hc bs more command e hrest h
  rcases hrun : read ctx (c.withRest bs) with ⟨g | command', d⟩ <;> rw [hrun] at hcut
  · cases g with
    | io io => exact Or.inl ⟨io, d, decode_of_fatal hrun rfl⟩
    | literalTooLarge _ _ => exact hcut.elim
    | rejected error =>
      obtain ⟨hnil, hrefuses⟩ := hcut
      have hline : discardLine d = (.ok (), d) := discardFrom_of_nil hnil .none
      refine Or.inr ⟨error, d, ?_, hnil, hrefuses⟩
      rw [decode_of_rejected hrun, tag?_of_cut hc h hrest hrun hrefuses, discard_of_ok hline]
  · -- The end of the line was cut off.
    rcases hcut with ⟨-, rfl⟩ | ⟨-, _, _, -, -, hnever⟩
    · simp [hmore] at hend
    · exact hnever.elim

end Cut

/-- A cut between two octets of a word. -/
def SplitsWord (bs more : List UInt8) : Prop :=
  ∃ b b', bs.getLast? = some b ∧ more.head? = some b' ∧ Octet.isWordChar b = true ∧
    Octet.isWordChar b' = true

/-- An error that refuses a word at a cut needs a cut between two octets of a word. -/
theorem SplitsWord.of_refuses {bs more : List UInt8} {error : DecodingError}
    (h : AtCut bs more error.Refuses) : SplitsWord bs more := by
  obtain ⟨w, next, ⟨v, rfl⟩, hnext, ⟨hne, hall, hp⟩, -⟩ := h
  refine ⟨w.getLast hne, next, ?_, hnext,
    error.isWordChar_of_wordClass (hall _ (List.getLast_mem hne)),
    error.isWordChar_of_wordClass hp⟩
  rw [List.getLast?_append_of_ne_nil _ hne, List.getLast?_eq_some_getLast hne]

/-- **A request that ends too early.**  Where the octets of a command end before they should, on a
source of any kind, decoding fails for lack of octets, with one exception: where the cut splits a
word and what is left of the word is none, the request is answered as malformed, for that reason. -/
theorem decode_truncated {ctx : Context} {c e : Cursor} {command : Command}
    (h : decode ctx c = (.ok (.command command), e)) (hend : e.rest = []) {bs more : List UInt8}
    (hrest : c.rest = bs ++ more) (hmore : more ≠ []) (source : Source) :
    (¬ SplitsWord bs more →
      ∃ io d, decode ctx { c with rest := bs, source } = (.error (.io io), d)) ∧
    ((∃ io d, decode ctx { c with rest := bs, source } = (.error (.io io), d)) ∨
      ∃ error d, decode ctx { c with rest := bs, source } =
        (.ok (.malformed (some command.tag) error), d) ∧ d.rest = [] ∧
          AtCut bs more error.Refuses) := by
  have houtcome : (∃ io d, decode ctx { c with rest := bs, source } = (.error (.io io), d)) ∨
      ∃ error d, decode ctx { c with rest := bs, source } =
        (.ok (.malformed (some command.tag) error), d) ∧ d.rest = [] ∧
          AtCut bs more error.Refuses := by
    have hc : c.Steady := steady_of_settled h trivial
    by_cases hsource : ({ c with rest := bs, source } : Cursor).Steady
    swap
    · obtain ⟨io, hio⟩ := decode_of_not_steady ctx hsource
      exact Or.inl ⟨io, _, hio⟩
    -- Both runs are compared with runs on octets in memory.
    let m : Cursor := { c with source := .memory }
    have hdirect : m.Direct := fun link hlink => by simp [m] at hlink
    have hfull : m.Mirrors c := ⟨hdirect, hc, rfl, rfl, rfl⟩
    have hcut : (m.withRest bs).Mirrors { c with rest := bs, source } :=
      ⟨hdirect, hsource, rfl, rfl, rfl⟩
    obtain ⟨e', hread, hend'⟩ : ∃ e', read ctx m = (.ok command, e') ∧ e'.rest = [] := by
      have hagree := (read_composed ctx).agree hfull
      rw [read_of_decode h] at hagree
      rcases hm : read ctx m with ⟨r, e'⟩
      rw [hm] at hagree
      cases hagree with
      | same hanswer hmirrors =>
        obtain rfl : r = .ok command := by simpa [SameAnswer] using hanswer
        exact ⟨e', rfl, hmirrors.rest_eq ▸ hend⟩
    have hagree := (decode_composed ctx).agree hcut
    rcases hrun : decode ctx { c with rest := bs, source } with ⟨s, d⟩
    rw [hrun] at hagree
    rcases decode_withRest_of_read hdirect.steady hread hend' hrest hmore with
      ⟨io, d', hd'⟩ | ⟨error, d', hd', hnil, hrefuses⟩ <;> rw [hd'] at hagree
    · rcases hagree.io_or_same with ⟨io, rfl⟩ | ⟨rfl, -⟩
      · exact Or.inl ⟨io, d, rfl⟩
      · exact Or.inl ⟨io, d, rfl⟩
    · rcases hagree.io_or_same with ⟨io, rfl⟩ | ⟨rfl, hmirrors⟩
      · exact Or.inl ⟨io, d, rfl⟩
      · exact Or.inr ⟨error, d, rfl, hmirrors.rest_eq.trans hnil, hrefuses⟩
  refine ⟨fun hword => houtcome.resolve_right ?_, houtcome⟩
  rintro ⟨error, d, -, -, hrefuses⟩
  exact hword (.of_refuses hrefuses)

/-- Without its line break a command is not answered, on a connection that breaks there. -/
theorem decode_truncated_noop :
    decode {} (.ofOctets (Octet.ofText "A NOOP\r\n")) =
        (.ok (.command ⟨⟨"A"⟩, .noop⟩), ⟨[], 8, [], .memory⟩) ∧
      ∃ io d, decode {} ⟨Octet.ofText "A NOOP", 0, [], .stream { window := 4, breaks := true }⟩ =
        (.error (.io io), d) := by
  have hrun : decode {} (.ofOctets (Octet.ofText "A NOOP\r\n")) =
      (.ok (.command ⟨⟨"A"⟩, .noop⟩), ⟨[], 8, [], .memory⟩) := by cbv
  have hrest : Octet.ofText "A NOOP\r\n" = Octet.ofText "A NOOP" ++ Octet.ofText "\r\n" := by
    decide +kernel
  have hcut := decode_truncated hrun rfl hrest (by decide +kernel)
    (.stream { window := 4, breaks := true })
  refine ⟨hrun, hcut.1 ?_⟩
  rintro ⟨b, b', -, hb', -, hword⟩
  obtain rfl : Octet.cr = b' := Option.some.inj hb'
  exact absurd hword (by decide)

/-- Within the name of a command it is answered as malformed. -/
theorem not_io_of_truncated_noop :
    decode {} (.ofOctets (Octet.ofText "A NOOP\r\n")) =
        (.ok (.command ⟨⟨"A"⟩, .noop⟩), ⟨[], 8, [], .memory⟩) ∧
      decode {} (.ofOctets (Octet.ofText "A NO")) =
        (.ok (.malformed (some ⟨"A"⟩) (.unknownCommand "NO")), ⟨[], 4, [], .memory⟩) ∧
      ¬ ∃ io d, decode {} (.ofOctets (Octet.ofText "A NO")) = (.error (.io io), d) := by
  have hcut : decode {} (.ofOctets (Octet.ofText "A NO")) =
      (.ok (.malformed (some ⟨"A"⟩) (.unknownCommand "NO")), ⟨[], 4, [], .memory⟩) := by cbv
  refine ⟨by cbv, hcut, ?_⟩
  rintro ⟨io, d, h⟩
  simp [hcut] at h

end Request

end ImapRequest
