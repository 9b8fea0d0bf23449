import ImapRequest.Proofs.Cut.Requests
import ImapRequest.Proofs.Lines
import ImapRequest.Proofs.Written.Commands

/-!
# The envelope of a command

In front of its arguments a command has a tag, possibly `UID`, and its name.  What is answered
carries that tag, and a command that is understood is the one that it is named as.

* `Opening` : what stands between a tag and the arguments;
* `Misnamed` : the names that are no command, by themselves or behind `UID`;
* `Request.decodeCommand_of_opening`, `Request.opening_of_decodeCommand` : an opening is read as the
  name that it spells;
* `CommandBody.decode_yields_verb` : the arguments of a verb make a body of that verb;
* `Request.decode_envelope` : the tag of every answer, the opening of every command, and the lines
  that are rejected whatever the arguments are.
-/

namespace ImapRequest

open Decoder

/-- At least one octet, and all of a class. -/
def Octet.IsRun (p : UInt8 → Bool) (w : List UInt8) : Prop := w ≠ [] ∧ w.all p = true

open Octet (IsWaitingLine IsRun)

/-- A word in upper case. -/
def Octet.upperText (w : List UInt8) : String := toText (w.map upper)

/-- The tag that a run of tag characters spells, if there are any. -/
def Tag.ofRun? (bs : List UInt8) : Option Tag := if bs.isEmpty then none else some (ofOctets bs)

/-- The tag that an answer carries. -/
def Request.tag : Request → Option Tag
  | .command c => some c.tag
  | .malformed tag _ => tag

/-- What stands between a tag and the arguments: a name and, with `true`, `UID` in front of it. -/
inductive Opening : Bool → List UInt8 → List UInt8 → Prop
  | bare {word : List UInt8} (hword : IsRun Octet.isKeywordChar word)
    (hne : Octet.upperText word ≠ "UID") : Opening false word (Octet.sp :: word)
  | withUid {uid word : List UInt8} (huid : IsRun Octet.isKeywordChar uid)
    (heq : Octet.upperText uid = "UID") (hword : IsRun Octet.isKeywordChar word) :
    Opening true word (Octet.sp :: (uid ++ Octet.sp :: word))

/-- The verbs that can have `UID` in front. -/
def Verb.uidVerbs : List Verb := [.copy, .fetch, .store, .search, .expunge]

/-- The names, in upper case, that are rejected before the arguments are looked at. -/
inductive Misnamed : Bool → String → Prop
  /-- No verb has the name.  This includes a second `UID`. -/
  | unknown {uid : Bool} {name : String} (h : ∀ verb : Verb, verb.word ≠ name) :
    Misnamed uid name
  /-- The verb can not have `UID` in front. -/
  | withUid {verb : Verb} {name : String} (hname : verb.word = name) (h : verb ∉ Verb.uidVerbs) :
    Misnamed true name

namespace Verb

theorem takesUid_iff {verb : Verb} : verb.takesUid = true ↔ verb ∈ uidVerbs := by
  cases verb <;> decide

theorem word_injective {verb verb' : Verb} (h : verb.word = verb'.word) : verb = verb' := by
  have hfound := ofName?_word verb
  rw [h, ofName?_word] at hfound
  exact (Option.some.inj hfound).symm

/-- The verb of an upper-case word is the one with that name. -/
theorem word_of_ofName? {w : List UInt8} {verb : Verb}
    (h : ofName? (Octet.upperText w) = some verb) : verb.word = Octet.upperText w := by
  have hverb : ∀ verb ∈ all, verb.name.toList.map Char.toUpper = verb.name.toList := by decide
  have hupper : ∀ b, (Octet.toChar (Octet.upper b)).toUpper = Octet.toChar (Octet.upper b) :=
    Octet.forall_octet (by decide +kernel)
  have hword : (Octet.upperText w).toList.map Char.toUpper = (Octet.upperText w).toList := by
    simp [Octet.upperText, Octet.toText, hupper]
  have hsame : verb.name.toList.map Char.toUpper = (Octet.upperText w).toList.map Char.toUpper := by
    simpa [sameLetters] using List.find?_some h
  rw [hverb verb verb.mem_all, hword] at hsame
  rw [← name_eq_word]
  exact String.toList_inj.1 hsame

end Verb

/-! ### Words -/

theorem Stops.of_append {p : UInt8 → Bool} {w s : List UInt8} (h : Stops p (w ++ s)) :
    Stops p w := by
  cases w with
  | nil => simp [Stops]
  | cons b w => exact h

theorem Stops.append_cons {p : UInt8 → Bool} {w : List UInt8} {b : UInt8} (h : Stops p w)
    (hb : p b = false) (s : List UInt8) : Stops p (w ++ b :: s) := by
  cases w with
  | nil => simpa [Stops] using hb
  | cons a w => exact h

/-- A tag ends in front of the space of an opening. -/
theorem Opening.stops {uid : Bool} {word opening : List UInt8} (h : Opening uid word opening)
    (s : List UInt8) : Stops Octet.isTagChar (opening ++ s) := by
  cases h <;> exact .cons rfl _

namespace Decoder

variable {c e : Cursor} {w s : List UInt8}

theorem keyword_of_rest (hc : c.Steady) (hrest : c.rest = w ++ s) (hw : IsRun Octet.isKeywordChar w)
    (hs : Stops Octet.isKeywordChar s) :
    keyword c = (.ok (Octet.upperText w), c.advance w.length) := by
  rw [keyword, bind_of_ok (takeWhile1_of_rest hc hrest hw.1 (List.all_eq_true.1 hw.2) hs)]
  rfl

theorem rest_of_keyword (hc : c.Steady) {name : String} (h : keyword c = (.ok name, e)) :
    ∃ w s, c.rest = w ++ s ∧ IsRun Octet.isKeywordChar w ∧ Stops Octet.isKeywordChar s ∧
      name = Octet.upperText w ∧ e = c.advance w.length := by
  obtain ⟨w, hrun, rfl⟩ := exists_of_map h
  obtain ⟨s, hrest, hne, hw, hs, rfl⟩ := rest_of_takeWhile1 hc hrun
  exact ⟨w, s, hrest, ⟨hne, List.all_eq_true.2 hw⟩, hs, rfl, rfl⟩

end Decoder

/-! ### Bodies -/

namespace CommandBody

variable (ctx : Context)

/-- The arguments of a verb make a body of that verb. -/
theorem decodeArguments_yields_verb (uid : Bool) (v : Verb) :
    Yields (decodeArguments ctx uid v)
      (fun body => body.verb = v ∧ body.byUid = (uid && v.takesUid)) := by
  cases v with
  | capability | noop | logout | check | close => exact .pure (by simp [verb, byUid, Verb.takesUid])
  | select | examine | create | delete | subscribe | unsubscribe =>
    exact .after fun _ => .pure (by simp [verb, byUid, Verb.takesUid])
  | rename => exact .after fun _ => .after fun _ => .pure (by simp [verb, byUid, Verb.takesUid])
  | list | lsub | status =>
    exact .after fun _ => .after fun _ => .after fun _ =>
      .pure (by simp [verb, byUid, Verb.takesUid])
  | login =>
    exact .after fun _ => .after fun _ => .after fun _ => .after fun _ =>
      .pure (by simp [verb, byUid, Verb.takesUid])
  | append =>
    exact .after fun _ => .after fun _ => .after fun _ => .after fun _ => .after fun _ =>
      .pure (by simp [verb, byUid, Verb.takesUid])
  | expunge =>
    exact .ite (fun huid => .after fun _ => .pure (by simp [verb, byUid, Verb.takesUid, huid]))
      fun huid => .pure (by simp [verb, byUid, Verb.takesUid, huid])
  | search | copy =>
    exact .after fun _ => .after fun _ => .pure (by simp [verb, byUid, Verb.takesUid])
  | fetch | store =>
    exact .after fun _ => .after fun _ => .after fun _ =>
      .pure (by simp [verb, byUid, Verb.takesUid])

theorem decode_yields_verb (uid : Bool) (v : Verb) :
    Yields (decode ctx uid v)
      (fun body => body.verb = v ∧ body.byUid = uid ∧ (uid = true → v ∈ Verb.uidVerbs)) := by
  refine .ite (fun _ => .reject) fun hnot => (decodeArguments_yields_verb ctx uid v).bind
    fun body hbody => .after fun _ => .pure ?_
  have htakes : uid = true → v.takesUid = true := by simpa using hnot
  refine ⟨hbody.1, ?_, fun huid => Verb.takesUid_iff.1 (htakes huid)⟩
  cases uid with
  | false => exact hbody.2
  | true => rw [hbody.2, htakes rfl, Bool.and_true]

theorem decode_forward (uid : Bool) (v : Verb) : Forward (decode ctx uid v) := by
  rw [decode_eq]
  exact (decodeUnended_inline ctx uid v).forward.bind fun _ => .bind (.eol _) fun _ => .pure _

/-- What is removed is given only with `UID`. -/
theorem eq_of_verb_eq_expunge {body : CommandBody} (h : body.verb = .expunge) :
    (body.byUid = true → ∃ uids, body = .uidExpunge uids) ∧
      (body.byUid = false → body = .expunge) := by
  cases body <;> simp_all [verb, byUid]

end CommandBody

namespace Command

variable (ctx : Context)

theorem decode_yields_name (tag : Tag) (uid : Bool) (word : List UInt8) :
    Yields (decode ctx tag uid (Octet.upperText word))
      (fun command => command.body.verb.word = Octet.upperText word ∧ command.body.byUid = uid ∧
        (uid = true → command.body.verb ∈ Verb.uidVerbs)) := by
  unfold decode
  split
  · rename_i verb hverb
    refine (CommandBody.decode_yields_verb ctx uid verb).map fun body hbody => ?_
    rw [hbody.1]
    exact ⟨Verb.word_of_ofName? hverb, hbody.2⟩
  · exact .reject

theorem decode_forward (tag : Tag) (uid : Bool) (name : String) :
    Forward (decode ctx tag uid name) := by
  unfold decode
  split
  · exact (CommandBody.decode_forward ctx uid _).bind fun _ => .pure _
  · exact .reject _

/-- A wrong name is rejected where it ends. -/
theorem decode_of_misnamed (tag : Tag) {uid : Bool} {word : List UInt8}
    (h : Misnamed uid (Octet.upperText word)) :
    ∃ error, decode ctx tag uid (Octet.upperText word) = reject error := by
  unfold decode
  split
  · rename_i verb hverb
    have hname := Verb.word_of_ofName? hverb
    rcases h with hunknown | ⟨hname', hnot⟩
    · exact absurd hname (hunknown verb)
    · obtain rfl := Verb.word_injective (hname.trans hname'.symm)
      have htakes : verb.takesUid = false :=
        Bool.eq_false_iff.2 fun h => hnot (Verb.takesUid_iff.1 h)
      refine ⟨.uidNotAllowed verb.name, ?_⟩
      unfold CommandBody.decode
      rw [htakes]
      rfl
  · exact ⟨_, rfl⟩

end Command

namespace Request

variable (ctx : Context) {c e : Cursor} {uid : Bool} {word opening s : List UInt8}

/-- An opening is read as the name that it spells. -/
theorem decodeCommand_of_opening (tag : Tag) (hc : c.Steady) (h : Opening uid word opening)
    (hrest : c.rest = opening ++ s) (hs : Stops Octet.isKeywordChar s) :
    decodeCommand ctx tag c =
      Command.decode ctx tag uid (Octet.upperText word) (c.advance opening.length) := by
  cases h with
  | bare hword hne =>
    have hrest' : (c.advance 1).rest = word ++ s := by rw [Cursor.rest_advance, hrest]; rfl
    rw [decodeCommand, bind_of_ok (sp_of_rest hc hrest),
      bind_of_ok (keyword_of_rest (hc.advance 1) hrest' hword hs), if_neg hne,
      Cursor.advance_advance, List.length_cons, Nat.add_comm]
  | @withUid u _ hu heq hword =>
    rw [List.cons_append, List.append_assoc, List.cons_append] at hrest
    have hrest₁ : (c.advance 1).rest = u ++ Octet.sp :: (word ++ s) := by
      rw [Cursor.rest_advance, hrest]
      rfl
    have hrest₂ : ((c.advance 1).advance u.length).rest = Octet.sp :: (word ++ s) :=
      Cursor.rest_advance_append hrest₁
    have hrest₃ : (((c.advance 1).advance u.length).advance 1).rest = word ++ s := by
      rw [Cursor.rest_advance, hrest₂]
      rfl
    have hstop : Stops Octet.isKeywordChar (Octet.sp :: (word ++ s)) := .cons rfl _
    have hc₂ := (hc.advance 1).advance u.length
    rw [decodeCommand, bind_of_ok (sp_of_rest hc hrest),
      bind_of_ok (keyword_of_rest (hc.advance 1) hrest₁ hu hstop), if_pos heq,
      bind_of_ok (sp_of_rest hc₂ hrest₂),
      bind_of_ok (keyword_of_rest (hc₂.advance 1) hrest₃ hword hs)]
    simp only [Cursor.advance_advance, List.length_cons, List.length_append]
    congr 2
    omega

/-- What is read in front of the arguments is an opening. -/
theorem opening_of_decodeCommand (tag : Tag) (hc : c.Steady) {command : Command}
    (h : decodeCommand ctx tag c = (.ok command, e)) :
    ∃ uid word opening s, Opening uid word opening ∧ c.rest = opening ++ s ∧
      Stops Octet.isKeywordChar s ∧ Command.decode ctx tag uid (Octet.upperText word)
        (c.advance opening.length) = (.ok command, e) := by
  have hopening : ∃ uid word opening s, Opening uid word opening ∧ c.rest = opening ++ s ∧
      Stops Octet.isKeywordChar s := by
    unfold decodeCommand at h
    obtain ⟨_, d, hsp, h⟩ := exists_of_bind h
    obtain ⟨s₁, hrest, rfl⟩ := rest_of_sp hc hsp
    have hc₁ := hc.advance 1
    obtain ⟨_, d, hkeyword, h⟩ := exists_of_bind h
    obtain ⟨u, s₂, hrest₁, hu, hs, rfl, rfl⟩ := rest_of_keyword hc₁ hkeyword
    have hreaches : c.Reaches (Octet.sp :: u) ((c.advance 1).advance u.length) :=
      (Cursor.Reaches.front (w := [Octet.sp]) hrest).trans (.front hrest₁)
    by_cases heq : Octet.upperText u = "UID"
    case neg =>
      refine ⟨false, u, _, s₂, .bare hu heq, ?_, hs⟩
      rw [hreaches.rest_eq, Cursor.rest_advance, hrest₁, List.drop_left]
    rw [if_pos heq] at h
    have hc₂ := hreaches.steady hc
    obtain ⟨_, d, hsp, h⟩ := exists_of_bind h
    obtain ⟨s₃, hrest₂, rfl⟩ := rest_of_sp hc₂ hsp
    obtain ⟨_, d, hkeyword, -⟩ := exists_of_bind h
    obtain ⟨word, s, hrest₃, hword, hs, -, -⟩ := rest_of_keyword (hc₂.advance 1) hkeyword
    refine ⟨true, word, _, s, .withUid hu heq hword, ?_, hs⟩
    rw [hreaches.rest_eq, hrest₂, List.cons_append, List.cons_append, List.append_assoc,
      List.cons_append, ← hrest₃, Cursor.rest_advance, hrest₂]
    rfl
  obtain ⟨uid, word, opening, s, hword, hrest, hs⟩ := hopening
  refine ⟨uid, word, opening, s, hword, hrest, hs, ?_⟩
  rw [← decodeCommand_of_opening ctx tag hc hword hrest hs, h]

/-! ### Tags -/

theorem tag?_eq (hc : c.Steady) : tag? c = Tag.ofRun? (c.rest.takeWhile Octet.isTagChar) := by
  have hrun := takeWhile_apply Octet.isTagChar hc
  rw [tag?, Tag.decode, takeWhile1, bind_assoc, bind_of_ok hrun]
  cases c.rest.takeWhile Octet.isTagChar with
  | nil =>
    split
    · rename_i h
      obtain ⟨_, _, h, -⟩ := exists_of_bind h
      obtain ⟨b, _, -, h⟩ := exists_of_bind h
      simp [unexpected, reject, fail] at h
    · rfl
  | cons b bs => rfl

/-- Every answer carries the tag in front of the request. -/
theorem tag_of_decode {request : Request} (h : decode ctx c = (.ok request, e)) :
    request.tag = tag? c := by
  rcases hread : read ctx c with ⟨f | command, d⟩
  · cases f with
    | rejected error =>
      rw [decode_of_rejected hread] at h
      obtain ⟨_, -, rfl⟩ := exists_of_map h
      rfl
    | io error => simp [decode_of_fatal hread rfl] at h
    | literalTooLarge length limit => simp [decode_of_fatal hread rfl] at h
  · obtain ⟨rfl, -⟩ : .command command = request ∧ d = e := by simpa [decode_of_ok hread] using h
    rw [read_eq] at hread
    obtain ⟨tag, d', htag, hcommand⟩ := exists_of_bind hread
    rw [Request.tag, decodeCommand_yields_tag ctx tag hcommand, tag?, htag]

/-! ### Requests -/

/-- The opening of a command that is understood, and what the command is. -/
theorem opening_of_read {command : Command} (hc : c.Steady) (h : read ctx c = (.ok command, e)) :
    ∃ uid word opening args, Opening uid word opening ∧ Stops Octet.isKeywordChar args ∧
      c.Reaches (c.rest.takeWhile Octet.isTagChar ++ (opening ++ args)) e ∧
      command.body.verb.word = Octet.upperText word ∧ command.body.byUid = uid ∧
      (uid = true → command.body.verb ∈ Verb.uidVerbs) := by
  rw [read_eq] at h
  obtain ⟨tag, d, htag, h⟩ := exists_of_bind h
  obtain ⟨w, hrun, rfl⟩ := exists_of_map htag
  obtain ⟨s, hrest, -, hw, hs, rfl⟩ := rest_of_takeWhile1 hc hrun
  have hd := hc.advance w.length
  obtain ⟨uid, word, opening, s', hopening, hrest', hs', h⟩ := opening_of_decodeCommand ctx _ hd h
  obtain ⟨args, hargs⟩ : ∃ args, ((c.advance w.length).advance opening.length).Reaches args e := by
    obtain ⟨args, hargs⟩ := Command.decode_forward ctx (Tag.ofOctets w) uid (Octet.upperText word)
      _ (hd.advance opening.length)
    exact ⟨args, by rwa [h] at hargs⟩
  have hstops : Stops Octet.isKeywordChar args := by
    have hsplit : s' = args ++ e.rest := by
      rw [← hargs.rest_eq, Cursor.rest_advance, hrest', List.drop_left]
    rw [hsplit] at hs'
    exact hs'.of_append
  refine ⟨uid, word, opening, args, hopening, hstops, ?_,
    Command.decode_yields_name ctx _ uid word h⟩
  rw [hrest, takeWhile_run hw hs]
  exact (Cursor.Reaches.front hrest).trans ((Cursor.Reaches.front hrest').trans hargs)

/-- Behind a wrong name the line is discarded. -/
theorem decode_of_misnamed {tag args : List UInt8} (htag : IsRun Octet.isTagChar tag)
    (hopening : Opening uid word opening) (hargs : Stops Octet.isKeywordChar args)
    (hname : Misnamed uid (Octet.upperText word)) (hc : c.OnLine (tag ++ (opening ++ args)))
    (hline : IsWaitingLine (tag ++ (opening ++ args))) :
    ∃ error, decode ctx c = (.ok (.malformed (some (Tag.ofOctets tag)) error),
      c.advance ((tag ++ (opening ++ args)).length + 1)) := by
  obtain ⟨more, hrest⟩ := hc.rest_eq
  have hrest₁ : c.rest = tag ++ (opening ++ (args ++ Octet.lf :: more)) := by
    rw [hrest]
    simp only [List.append_assoc]
  have hrest₂ : (c.advance tag.length).rest = opening ++ (args ++ Octet.lf :: more) :=
    Cursor.rest_advance_append hrest₁
  have htagrun : Tag.decode c = (.ok (Tag.ofOctets tag), c.advance tag.length) :=
    bind_of_ok (takeWhile1_of_rest hc.steady hrest₁ htag.1 (List.all_eq_true.1 htag.2)
      (hopening.stops _))
  obtain ⟨error, herror⟩ := Command.decode_of_misnamed ctx (Tag.ofOctets tag) hname
  have hread : read ctx c =
      (.error (.rejected error), (c.advance tag.length).advance opening.length) := by
    rw [read_eq, bind_of_ok htagrun, decodeCommand_of_opening ctx _ (hc.steady.advance _) hopening
      hrest₂ (hargs.append_cons rfl more), herror]
    rfl
  have hdiscard := discardLine_of_waiting hline.of_append.of_append hc.advance.advance
  refine ⟨error, ?_⟩
  rw [decode_of_rejected hread, discard_of_ok hdiscard, tag?, htagrun]
  simp only [Cursor.advance_advance, List.length_append, Nat.add_assoc]

/-- Every answer carries the tag in front of the request, if there is one.  A command that is
understood is introduced by that tag and by its own name, behind `UID` exactly where its numbers are
unique identifiers, which they can be for five verbs.  A complete line that introduces no command
like that is malformed whatever its arguments are, unless data comes behind it at once. -/
theorem decode_envelope (c : Cursor) :
    (∀ request e, decode ctx c = (.ok request, e) →
      request.tag = Tag.ofRun? (c.rest.takeWhile Octet.isTagChar)) ∧
    (∀ command e, decode ctx c = (.ok (.command command), e) →
      ∃ uid word opening args, Opening uid word opening ∧ Stops Octet.isKeywordChar args ∧
        c.Reaches (c.rest.takeWhile Octet.isTagChar ++ (opening ++ args)) e ∧
        command.body.verb.word = Octet.upperText word ∧ command.body.byUid = uid ∧
        (uid = true → command.body.verb ∈ Verb.uidVerbs) ∧
        (command.body.verb = .expunge →
          (uid = true → ∃ uids, command.body = .uidExpunge uids) ∧
          (uid = false → command.body = .expunge))) ∧
    ∀ tag uid word opening args, IsRun Octet.isTagChar tag → Opening uid word opening →
      Stops Octet.isKeywordChar args → Misnamed uid (Octet.upperText word) →
      c.OnLine (tag ++ (opening ++ args)) → IsWaitingLine (tag ++ (opening ++ args)) →
      ∃ error, decode ctx c = (.ok (.malformed (some (Tag.ofOctets tag)) error),
        c.advance ((tag ++ (opening ++ args)).length + 1)) := by
  have hsteady : ∀ {request e}, decode ctx c = (.ok request, e) → c.Steady := by
    intro request e h
    by_contra hc
    obtain ⟨io, hio⟩ := decode_of_not_steady ctx hc
    simp [hio] at h
  refine ⟨fun request e h => ?_, fun command e h => ?_, fun tag uid word opening args htag hopening
    hargs hname hc hline => decode_of_misnamed ctx htag hopening hargs hname hc hline⟩
  · rw [tag_of_decode ctx h, tag?_eq (hsteady h)]
  · obtain ⟨uid, word, opening, args, hopening, hargs, hreaches, hname, huid, hverb⟩ :=
      opening_of_read ctx (hsteady h) (read_of_decode h)
    refine ⟨uid, word, opening, args, hopening, hargs, hreaches, hname, huid, hverb, fun h => ?_⟩
    rw [← huid]
    exact CommandBody.eq_of_verb_eq_expunge h

/-- `UID` in front of a verb that takes it, and twice. -/
theorem decode_envelope_uid :
    (Request.command ⟨⟨"a"⟩, .search none .all true⟩).tag = some ⟨"a"⟩ ∧
      (∃ word opening args, Opening true word opening ∧ Octet.upperText word = "SEARCH" ∧
        Octet.ofText "a Uid search ALL\r\n" = Octet.ofText "a" ++ (opening ++ args)) ∧
      ∃ error, decode {} (.ofOctets (Octet.ofText "b UID uid FETCH (\r\n")) =
        (.ok (.malformed (some ⟨"b"⟩) error), ⟨[], 19, [], .memory⟩) := by
  have hrun : decode {} (.ofOctets (Octet.ofText "a Uid search ALL\r\n")) =
      (.ok (.command ⟨⟨"a"⟩, .search none .all true⟩), ⟨[], 18, [], .memory⟩) := by cbv
  have henvelope := decode_envelope {} (.ofOctets (Octet.ofText "a Uid search ALL\r\n"))
  refine ⟨(henvelope.1 _ _ hrun).trans (by cbv), ?_, ?_⟩
  · obtain ⟨uid, word, opening, args, hopening, -, hreaches, hname, rfl, -⟩ :=
      henvelope.2.1 _ _ hrun
    have htag : (Octet.ofText "a Uid search ALL\r\n").takeWhile Octet.isTagChar =
        Octet.ofText "a" := by decide +kernel
    refine ⟨word, opening, args, hopening, hname.symm, ?_⟩
    simpa [Cursor.ofOctets, htag] using hreaches.rest_eq
  · have hc : (Cursor.ofOctets (Octet.ofText "b UID uid FETCH (\r\n")).OnLine
        (Octet.ofText "b" ++ (Octet.ofText " UID uid" ++ Octet.ofText " FETCH (\r")) := by
      exact ⟨Cursor.steady_ofOctets _, [], by decide +kernel⟩
    have huid : IsRun Octet.isKeywordChar (Octet.ofText "UID") := ⟨by decide, by decide⟩
    have hopening : Opening true (Octet.ofText "uid") (Octet.ofText " UID uid") :=
      .withUid huid (by decide +kernel) ⟨by decide, by decide⟩
    have hstops : Stops Octet.isKeywordChar (Octet.ofText " FETCH (\r") := by
      rintro b ⟨⟩
      rfl
    have hunknown (verb : Verb) : verb.word ≠ Octet.upperText (Octet.ofText "uid") := by
      cases verb <;> decide +kernel
    have hplain : Octet.IsPlainLine (Octet.ofText "b" ++ (Octet.ofText " UID uid" ++
        Octet.ofText " FETCH (\r")) := .of_all (by cbv)
    obtain ⟨error, herror⟩ := (decode_envelope {} _).2.2 (Octet.ofText "b") true _ _ _
      ⟨by decide, by decide⟩ hopening hstops (.unknown hunknown) hc hplain.isWaitingLine
    exact ⟨error, herror.trans (by cbv)⟩

end Request

end ImapRequest
