import ImapRequest.Proofs.Lenient.Decoders
import ImapRequest.Proofs.Locality
import ImapRequest.Proofs.Written.Items

/-!
# Requests where more is accepted

Accepting more changes no answer but that a request is malformed, and nothing is accepted that is
not accepted as well, as the same command, by those who keep to the grammar, once it is tidied.

* `CommandBody.decodeArguments_relaxes` : the arguments of every verb; no space may go but in front
  of the line break of a SEARCH command;
* `Request.decode_accepting` : requests.
-/

namespace ImapRequest

open Decoder

variable {α : Type} {ctx ctx' : Context}

/-! ### Tokens, dates and flags -/

theorem Tag.decode_relaxes {trims : Tag → Prop} : Relaxes trims Tag.decode Tag.decode :=
  .map _ (takeWhile1_relaxes (Octet.not_of_isBlank rfl rfl rfl) _)

theorem Atom.decode_relaxes {trims : Atom → Prop} : Relaxes trims Atom.decode Atom.decode :=
  .map _ (takeWhile1_relaxes (Octet.not_of_isBlank rfl rfl rfl) _)

theorem Atom.decode_refrains : Refrains Atom.decode :=
  (Refrains.takeWhile1 (Octet.not_of_isBlank rfl rfl rfl) _).bind _

theorem SequenceSet.decode_relaxes {trims : SequenceSet → Prop} :
    Relaxes trims SequenceSet.decode SequenceSet.decode :=
  (takeWhile1_relaxes (Octet.not_of_isBlank rfl rfl rfl) _).bind fun _ => token_relaxes _ _ _

theorem Date.decode_relaxes {trims : Date → Prop} : Relaxes trims Date.decode Date.decode := by
  refine .bind (.look (fun b => .ite (fun _ => quotedToken_relaxes.on)
    (takeWhile1_relaxes (Octet.not_of_isBlank rfl rfl rfl) _).on) (.look fun b hb => ?_))
    fun _ => token_relaxes _ _ _
  rw [Octet.ite_of_isBlank hb rfl]
  exact .takeWhile1 (Octet.not_of_isBlank rfl rfl rfl) _

theorem DateTime.decode_relaxes {trims : DateTime → Prop} :
    Relaxes trims DateTime.decode DateTime.decode :=
  quotedToken_relaxes.bind fun _ => token_relaxes _ _ _

namespace Flag

theorem decode_refrains : Refrains decode := by
  refine .look fun b hb => ?_
  rw [Octet.ite_of_isBlank hb rfl]
  exact Atom.decode_refrains.bind _

theorem decode_relaxes {trims : Flag → Prop} : Relaxes trims decode decode :=
  .look (fun _ => .ite (fun h => .consume (h ▸ rfl) (.map _ Atom.decode_relaxes))
    (Relaxes.on (.map _ Atom.decode_relaxes))) decode_refrains

theorem decodeList_relaxes {trims : List Flag → Prop} : Relaxes trims decodeList decodeList := by
  refine (expect_relaxes rfl).bind fun _ => .look (fun b => .ite
    (fun h => .consume (h ▸ rfl) (.pure _)) (Relaxes.on (.map _
      (oneOrMore_relaxes listContinues_advances listContinues_relaxes decode_relaxes))))
    (.look fun b hb => ?_)
  rw [Octet.ite_of_isBlank hb rfl]
  exact (decode_refrains.bind _).bind _

/-- Where no space follows that announces a flag, none does when the octets are tidied. -/
theorem bareContinues_relaxes {trims : Bool → Prop} :
    Relaxes trims bareContinues bareContinues := by
  have hforward : Forward bareContinues :=
    (show Inline 0 {} bareContinues from bareContinues_inline).forward
  refine .self hforward fun c hc => .of_reads fun t e hrun => ?_
  rw [bareContinues, bind_of_ok (nextIs_apply hc _)] at hrun
  by_cases hhead : c.rest.head? = some Octet.sp
  · obtain ⟨s, hrest⟩ := List.head?_eq_some_iff.1 hhead
    rw [if_pos (by simp [hhead]), bind_of_ok (consume_of_rest hc hrest), pure_apply] at hrun
    obtain ⟨rfl, rfl⟩ : true = t ∧ c.advance 1 = e := by simpa using hrun
    exact ⟨[Octet.sp], s, hrest, rfl, List.forall_mem_singleton.2 rfl,
      bareContinues_reads_sp.anywhere⟩
  · rw [if_neg (by simp [hhead]), pure_apply] at hrun
    obtain ⟨rfl, rfl⟩ : false = t ∧ c = e := by simpa using hrun
    refine ⟨[], c.rest, rfl, rfl, by simp, .of_run fun d s hd hrest hs => ?_⟩
    have hnone : d.rest.head? ≠ some Octet.sp := by
      rw [hrest]
      exact hs.ne_sp hhead
    rw [bareContinues, bind_of_ok (nextIs_apply hd _), if_neg (by simpa using hnone)]
    rfl

theorem decodeBare_relaxes {trims : List Flag → Prop} : Relaxes trims decodeBare decodeBare :=
  .map _ (oneOrMore_relaxes (ifNext_advances _ (.pure true)) bareContinues_relaxes decode_relaxes)

theorem decodeBare_refrains : Refrains decodeBare := (decode_refrains.bind _).bind _

end Flag

theorem StoreRequest.decode_relaxes {trims : StoreRequest → Prop} :
    Relaxes trims StoreRequest.decode StoreRequest.decode := by
  have hmode : Relaxes (fun _ => False) StoreRequest.decodeMode StoreRequest.decodeMode := by
    refine .lookOr (fun b => .ite (fun h => .consume (h ▸ rfl) (.pure _)) <|
      .ite (fun h => .consume (h ▸ rfl) (.pure _)) (Relaxes.on (.pure _))) .replace fun b hb => ?_
    rw [Octet.ite_of_isBlank hb rfl, Octet.ite_of_isBlank hb rfl]
    exact ⟨rfl, rfl⟩
  have hresponse : Relaxes (fun _ => False) StoreRequest.decodeResponse
      StoreRequest.decodeResponse :=
    keyword_relaxes.bind fun _ => .ite (.pure _) (.ite (.pure _) (.reject _))
  refine hmode.bind fun _ => hresponse.bind fun _ => sp_relaxes.bind fun _ => .bind
    (.look (fun b => .ite (fun _ => Flag.decodeList_relaxes.on) Flag.decodeBare_relaxes.on)
      (.look fun b hb => ?_)) fun _ => .pure _
  rw [Octet.ite_of_isBlank hb rfl]
  exact Flag.decodeBare_refrains

/-! ### Mailboxes and status items -/

theorem Mailbox.decode_relaxes (h : ctx.Loosens ctx') {trims : Mailbox → Prop} :
    Relaxes trims (Mailbox.decode ctx) (Mailbox.decode ctx') :=
  .map _ (astring_relaxes h)

theorem MailboxPattern.decode_relaxes (h : ctx.Loosens ctx') {trims : MailboxPattern → Prop} :
    Relaxes trims (MailboxPattern.decode ctx) (MailboxPattern.decode ctx') :=
  .map _ (wordOrString_relaxes h (Octet.not_of_isBlank rfl rfl rfl) _)

theorem StatusItem.decode_relaxes {trims : StatusItem → Prop} :
    Relaxes trims StatusItem.decode StatusItem.decode := by
  refine keyword_relaxes.bind fun word => ?_
  split
  · exact .pure _
  · exact .reject _

theorem StatusItem.decodeList_relaxes {trims : OneOrMore StatusItem → Prop} :
    Relaxes trims StatusItem.decodeList StatusItem.decodeList :=
  (expect_relaxes rfl).bind fun _ =>
    oneOrMore_relaxes listContinues_advances listContinues_relaxes StatusItem.decode_relaxes

/-! ### What a FETCH command asks for -/

theorem BodyElement.decodeFieldNames_relaxes (h : ctx.Loosens ctx')
    {trims : OneOrMore String → Prop} :
    Relaxes trims (BodyElement.decodeFieldNames ctx) (BodyElement.decodeFieldNames ctx') :=
  (expect_relaxes rfl).bind fun _ => oneOrMore_relaxes listContinues_advances listContinues_relaxes
    (wordOrString_relaxes h (Octet.not_of_isBlank rfl rfl rfl) _)

theorem BodyElement.decodeRun_relaxes {trims : OctetRun → Prop} :
    Relaxes trims BodyElement.decodeRun BodyElement.decodeRun :=
  (expect_relaxes rfl).bind fun _ => number_relaxes.bind fun _ => (expect_relaxes rfl).bind
    fun _ => number_relaxes.bind fun _ => (expect_relaxes rfl).bind fun _ =>
      .ite (.reject _) (.pure _)

theorem BodyElement.decode_relaxes (h : ctx.Loosens ctx') {trims : BodyElement → Prop}
    (name : BodyName) :
    Relaxes trims (BodyElement.decode ctx name) (BodyElement.decode ctx' name) :=
  (expect_relaxes rfl).bind fun _ => (takeWhile_relaxes (Octet.not_of_isBlank rfl rfl rfl)).bind
    fun _ => (token_relaxes _ _ _).bind fun ⟨_, _⟩ =>
      .bind (.ite (sp_relaxes.bind fun _ => .map _ (BodyElement.decodeFieldNames_relaxes h))
        (.pure _)) fun _ => (expect_relaxes rfl).bind fun _ => .bind
          ((nextIs_relaxes rfl).bind fun _ => .ite (.map _ BodyElement.decodeRun_relaxes) (.pure _))
          fun _ => .ofExcept _

theorem FetchItem.decodeNamed_relaxes (h : ctx.Loosens ctx') {trims : FetchItem → Prop}
    (word : String) : Relaxes trims (FetchItem.decodeNamed ctx word)
      (FetchItem.decodeNamed ctx' word) := by
  unfold FetchItem.decodeNamed
  split
  · exact .pure _
  · exact .ite ((nextIs_relaxes rfl).bind fun _ =>
      .ite (.map _ (BodyElement.decode_relaxes h _)) (.pure _)) <|
      .ite (.map _ (BodyElement.decode_relaxes h _)) (.reject _)

theorem FetchData.decode_relaxes (h : ctx.Loosens ctx') {trims : FetchData → Prop} :
    Relaxes trims (FetchData.decode ctx) (FetchData.decode ctx') := by
  refine .look (fun b => .ite (fun hb => .consume (hb ▸ rfl) (.map _ (oneOrMore_relaxes
    listContinues_advances listContinues_relaxes
      (keyword_relaxes.bind fun _ => FetchItem.decodeNamed_relaxes h _)))) (Relaxes.on ?_))
    (.look fun b hb => ?_)
  · refine keyword_relaxes.bind fun word => ?_
    split
    · exact .pure _
    · exact .map _ (FetchItem.decodeNamed_relaxes h word)
  · rw [Octet.ite_of_isBlank hb rfl]
    exact Refrains.keyword.bind _

/-! ### Search keys -/

namespace SearchKey

theorem decodeForm_relaxes (h : ctx.Loosens ctx') {key key' : Decoder SearchKey}
    (hkey : Relaxes (fun _ => False) key key') {trims : SearchKey → Prop} (form : SearchForm) :
    Relaxes trims (decodeForm ctx key form) (decodeForm ctx' key' form) := by
  cases form with
  | plain k => exact .pure _
  | text make => exact sp_relaxes.bind fun _ => .map _ (astring_relaxes h)
  | header =>
    exact sp_relaxes.bind fun _ => (astring_relaxes h).bind fun _ => sp_relaxes.bind fun _ =>
      .map _ (astring_relaxes h)
  | flag make => exact sp_relaxes.bind fun _ => .map _ Atom.decode_relaxes
  | date make => exact sp_relaxes.bind fun _ => .map _ Date.decode_relaxes
  | number make => exact sp_relaxes.bind fun _ => .map _ number_relaxes
  | positive make => exact sp_relaxes.bind fun _ => .map _ positive_relaxes
  | set make => exact sp_relaxes.bind fun _ => .map _ SequenceSet.decode_relaxes
  | not => exact sp_relaxes.bind fun _ => hkey.bind fun _ => .pure _
  | or =>
    exact sp_relaxes.bind fun _ => hkey.bind fun _ => sp_relaxes.bind fun _ =>
      hkey.bind fun _ => .pure _

theorem decodeNamed_relaxes (h : ctx.Loosens ctx') {key key' : Decoder SearchKey}
    (hkey : Relaxes (fun _ => False) key key') {trims : SearchKey → Prop} (word : String) :
    Relaxes trims (decodeNamed ctx key word) (decodeNamed ctx' key' word) := by
  unfold decodeNamed
  split
  · exact decodeForm_relaxes h hkey _
  · exact .reject _

theorem decodeWithin_refrains (ctx : Context) (levels : Nat) :
    Refrains (decodeWithin ctx levels) := by
  cases levels with
  | zero => exact .reject _
  | succ levels =>
    refine .look fun b hb => ?_
    have hset : (Octet.isDigit b || b == Octet.star) = false :=
      Octet.not_of_isBlank (p := fun b => Octet.isDigit b || b == Octet.star) rfl rfl rfl b hb
    have hletter : Octet.isLetter b = false := Octet.not_of_isBlank rfl rfl rfl b hb
    rw [Octet.ite_of_isBlank hb rfl, if_neg (by simp [hset]), if_neg (by simp [hletter])]
    exact .reject _

theorem decodeWithin_relaxes (h : ctx.Loosens ctx') (levels : Nat) : ∀ {trims : SearchKey → Prop},
    Relaxes trims (decodeWithin ctx levels) (decodeWithin ctx' levels) := by
  induction levels with
  | zero => exact .reject _
  | succ levels ih =>
    intro trims
    exact .look (fun b => .ite (fun hb => .consume (hb ▸ rfl) (.map _ (oneOrMore_relaxes
      listContinues_advances listContinues_relaxes ih))) (Relaxes.on (.ite
        (.map _ SequenceSet.decode_relaxes) (.ite (keyword_relaxes.bind fun _ =>
          decodeNamed_relaxes h ih _) (.reject _))))) (decodeWithin_refrains ctx' (levels + 1))

/-! ### Keys one after the other -/

/-- The keys after a first one. -/
def decodeFurther (leniency : Leniency) (key : Decoder SearchKey) : Decoder (List SearchKey) :=
  Decoder.many (criteriaContinue leniency) key

section Further

variable {leniency strict loose : Leniency} {key key' : Decoder SearchKey} {c : Cursor} {b : UInt8}
  {s : List UInt8}

theorem criteriaContinue_keeps (h : strict.Within loose) :
    Keeps (criteriaContinue strict) (criteriaContinue loose) := by
  refine (Keeps.refl _).bind fun _ => .ite ((Keeps.refl _).bind fun _ => (Keeps.refl _).bind
    fun _ => .ite ?_ (.refl _)) (.refl _)
  cases hstrict : strict.trailingSpace with
  | true => rw [if_pos rfl, if_pos (h.trailingSpace hstrict)]; exact .refl _
  | false => exact .reject _ _

theorem decodeFurther_apply (hkey : Forward key) (hc : c.Steady) :
    decodeFurther leniency key c = (do
      if ← criteriaContinue leniency then
        let first ← key
        let more ← decodeFurther leniency key
        return first :: more
      else
        return []) c :=
  many_apply (criteriaContinue_advances leniency) (criteriaContinue_forward leniency) hkey hc

theorem decodeFurther_of_ne (hkey : Forward key) (hc : c.Steady)
    (h : c.rest.head? ≠ some Octet.sp) : decodeFurther leniency key c = (.ok [], c) := by
  rw [decodeFurther_apply hkey hc, bind_of_ok (criteriaContinue_of_ne hc h)]
  rfl

theorem decodeFurther_of_last (hkey : Forward key) (hc : c.Steady) (h : c.rest = [Octet.sp]) :
    ∃ e, decodeFurther leniency key c = (.error (.io e), c.advance 1) := by
  obtain ⟨e, he⟩ := criteriaContinue_of_last leniency hc h
  exact ⟨e, by rw [decodeFurther_apply hkey hc, bind_of_error he]⟩

theorem decodeFurther_of_break (hkey : Forward key) (hc : c.Steady)
    (h : c.rest = Octet.sp :: b :: s) (hb : Octet.isLineBreak b = true) :
    decodeFurther leniency key c = (if leniency.trailingSpace then return []
      else Decoder.reject .trailingSpace : Decoder (List SearchKey)) (c.advance 1) := by
  rw [decodeFurther_apply hkey hc, bind_apply, criteriaContinue_apply_of_sp hc h, hb]
  cases leniency.trailingSpace <;> rfl

theorem decodeFurther_of_key (hkey : Forward key) (hc : c.Steady)
    (h : c.rest = Octet.sp :: b :: s) (hb : Octet.isLineBreak b = false) :
    decodeFurther leniency key c = (do
      let first ← key
      let more ← decodeFurther leniency key
      return first :: more) (c.advance 1) := by
  rw [decodeFurther_apply hkey hc, bind_apply, criteriaContinue_apply_of_sp hc h, hb]
  rfl

/-- Behind a space a key starts with neither a space nor a line break, so what is tidied there
starts with the same octet, and the space announces a key again. -/
theorem tidiesAt_of_key (hkey : Forward key) (hkey' : Forward key') (hrefrains : Refrains key')
    (hc : c.Steady) (hrest : c.rest = Octet.sp :: b :: s) (hb : Octet.isLineBreak b = false)
    (h : TidiesAt (fun _ => True) (do
        let first ← key
        let more ← decodeFurther strict key
        return first :: more) (do
        let first ← key'
        let more ← decodeFurther loose key'
        return first :: more) (c.advance 1)) :
    TidiesAt (fun _ => True) (decodeFurther strict key) (decodeFurther loose key') c := by
  intro keys e hrun
  rw [decodeFurther_of_key hkey' hc hrest hb] at hrun
  have hrest' : (c.advance 1).rest = b :: s := by rw [Cursor.rest_advance, hrest]; rfl
  have hblank : Octet.isBlank b = false := by
    refine Bool.eq_false_iff.2 fun hblank => ?_
    exact hrefrains.bind _ _ b (hc.advance 1) (by rw [hrest']; rfl) hblank keys e hrun
  obtain ⟨w, t, hw, htrimmed, hread⟩ := h keys e hrun
  refine ⟨Octet.sp :: w, .octet Octet.sp :: t,
    (Cursor.Reaches.front (w := [Octet.sp]) hrest).trans hw,
    .append (.octet (w := []) rfl .nil) htrimmed, ?_⟩
  rintro _ rfl s' hs c' hc' hrest''
  have hfollows := htrimmed.follows hs
  rw [← hw.rest_eq, hrest'] at hfollows
  obtain ⟨u, hu⟩ := hfollows.exists_cons rfl hblank
  have hcons : c'.rest = Octet.sp :: b :: u := hrest''.trans (congrArg (Octet.sp :: ·) hu)
  rw [decodeFurther_of_key hkey hc'.steady hcons hb]
  refine hread t rfl s' hs _ (hc'.advance 1) ?_
  rw [Cursor.rest_advance, hcons, hu]
  rfl

/-- Where no space follows there is no further key, and none comes in place of what follows. -/
theorem tidiesAt_of_ne (hkey : Forward key) (hkey' : Forward key') (hc : c.Steady)
    (h : c.rest.head? ≠ some Octet.sp) :
    TidiesAt (fun _ => True) (decodeFurther strict key) (decodeFurther loose key') c := by
  intro keys e hrun
  rw [decodeFurther_of_ne hkey' hc h] at hrun
  obtain ⟨rfl, rfl⟩ : [] = keys ∧ c = e := by simpa using hrun
  refine ⟨[], Sent.plain [], .refl c, .tidied .nil, .of_run fun d s hd hrest hs => ?_⟩
  exact decodeFurther_of_ne hkey hd (hrest ▸ hs.ne_sp h)

/-- A space in front of a line break may go. -/
theorem tidiesAt_of_break (hkey : Forward key) (hkey' : Forward key') (hc : c.Steady)
    (hrest : c.rest = Octet.sp :: b :: s) (hb : Octet.isLineBreak b = true) :
    TidiesAt (fun _ => True) (decodeFurther strict key) (decodeFurther loose key') c := by
  intro keys e hrun
  have hrest' : (c.advance 1).rest = b :: s := by rw [Cursor.rest_advance, hrest]; rfl
  have hne : (c.advance 1).rest.head? ≠ some Octet.sp := by
    rw [hrest', List.head?_cons]
    rintro ⟨rfl⟩
    exact absurd hb (by decide)
  rw [decodeFurther_of_break hkey' hc hrest hb] at hrun
  split at hrun
  · obtain ⟨rfl, rfl⟩ : [] = keys ∧ c.advance 1 = e := by simpa [pure_apply] using hrun
    refine ⟨[Octet.sp], Sent.plain [], .front (w := [Octet.sp]) hrest,
      .space trivial .nil ⟨b, by rw [hrest']; rfl, hb⟩, .of_run fun d s hd hrest hs => ?_⟩
    exact decodeFurther_of_ne hkey hd (hrest ▸ hs.ne_sp hne)
  · simp [reject, fail] at hrun

/-- By induction on the octets that are left: a further key is announced by a space. -/
theorem decodeFurther_tidiesAt (hkey : Relaxes (fun _ => False) key key')
    (hrefrains : Refrains key') (n : Nat) : ∀ {c : Cursor}, c.Steady → c.rest.length < n →
    TidiesAt (fun _ => True) (decodeFurther strict key) (decodeFurther loose key') c := by
  have hstrict := hkey.strict_forward
  have hloose := hkey.loose_forward
  induction n with
  | zero => intro c _ hn; exact absurd hn (Nat.not_lt_zero _)
  | succ n ih =>
    intro c hc hn
    by_cases hhead : c.rest.head? = some Octet.sp
    · obtain ⟨s, hrest⟩ := List.head?_eq_some_iff.1 hhead
      cases s with
      | nil =>
        obtain ⟨io, hio⟩ : ∃ io, decodeFurther loose key' c = (.error (.io io), c.advance 1) :=
          decodeFurther_of_last hloose hc hrest
        exact .of_error fun keys e hrun => by simp [hio] at hrun
      | cons b s =>
        cases hb : Octet.isLineBreak b with
        | true => exact tidiesAt_of_break hstrict hloose hc hrest hb
        | false =>
          have hd : (c.advance 1).Steady := hc.advance 1
          refine tidiesAt_of_key hstrict hloose hrefrains hc hrest hb ?_
          refine (hkey.tidiesAt _ hd).bind hd fun a e he hrun => .map _ (ih he ?_)
          have hle := hloose.length_le_of_run hd hrun
          rw [Cursor.rest_advance, hrest, List.drop_one, List.tail_cons] at hle
          rw [hrest, List.length_cons] at hn
          omega
    · exact tidiesAt_of_ne hstrict hloose hc hhead

theorem decodeFurther_relaxes (h : strict.Within loose) (hkey : Relaxes (fun _ => False) key key')
    (hrefrains : Refrains key') :
    Relaxes (fun _ => True) (decodeFurther strict key) (decodeFurther loose key') where
  strict_forward := .many (criteriaContinue_forward _) hkey.strict_forward
  loose_forward := .many (criteriaContinue_forward _) hkey.loose_forward
  keeps := (criteriaContinue_keeps h).many hkey.keeps
  tidiesAt _ hc := decodeFurther_tidiesAt hkey hrefrains _ hc (Nat.lt_succ_self _)

end Further

theorem decodeConjunction_relaxes (h : ctx.Loosens ctx') (first : SearchKey) :
    Relaxes (fun _ => True) (decodeConjunction ctx first) (decodeConjunction ctx' first) :=
  .map _ (decodeFurther_relaxes h.within (decodeWithin_relaxes h _) (decodeWithin_refrains _ _))

theorem decodeCriteria_relaxes (h : ctx.Loosens ctx') :
    Relaxes (fun _ => True) (decodeCriteria ctx) (decodeCriteria ctx') := by
  refine .look (fun _ => Relaxes.on (.ite (keyword_relaxes.bind fun _ => .ite ?_ ?_) ?_))
    (.look fun b hb => ?_)
  · refine sp_relaxes.bind fun _ => (charset_relaxes h).bind
      fun charset => sp_relaxes.bind fun _ => ?_
    have hnamed : Context.Loosens { ctx with charset } { ctx' with charset } :=
      ⟨rfl, h.maxLiteral_eq, h.within⟩
    exact (decodeWithin_relaxes hnamed _).bind fun _ => .map _ (decodeConjunction_relaxes hnamed _)
  · exact (decodeNamed_relaxes h (decodeWithin_relaxes h _) _).bind fun _ =>
      .map _ (decodeConjunction_relaxes h _)
  · exact (decodeWithin_relaxes h _).bind fun _ => .map _ (decodeConjunction_relaxes h _)
  · have hletter : Octet.isLetter b = false := Octet.not_of_isBlank rfl rfl rfl b hb
    rw [if_neg (by simp [hletter])]
    exact (decodeWithin_refrains _ _).bind _

end SearchKey

/-! ### Commands -/

namespace CommandBody

/-- A SEARCH command. -/
def IsSearch : CommandBody → Prop
  | .search _ _ _ => True
  | _ => False

theorem decodeMailbox_relaxes (h : ctx.Loosens ctx') {trims : Mailbox → Prop} :
    Relaxes trims (decodeMailbox ctx) (decodeMailbox ctx') :=
  sp_relaxes.bind fun _ => Mailbox.decode_relaxes h

theorem decodeMessages_relaxes {trims : SequenceSet → Prop} :
    Relaxes trims decodeMessages decodeMessages :=
  sp_relaxes.bind fun _ => SequenceSet.decode_relaxes

theorem decodeAppendFlags_relaxes {trims : List Flag → Prop} :
    Relaxes trims decodeAppendFlags decodeAppendFlags := by
  refine .lookOr (fun b => .ite (fun _ => Relaxes.on (Flag.decodeList_relaxes.bind fun _ =>
    sp_relaxes.bind fun _ => .pure _)) (Relaxes.on (.pure _))) [] fun b hb => ?_
  rw [Octet.ite_of_isBlank hb rfl]
  exact ⟨rfl, rfl⟩

theorem decodeAppendDate_relaxes {trims : Option DateTime → Prop} :
    Relaxes trims decodeAppendDate decodeAppendDate := by
  refine .lookOr (fun b => .ite (fun _ => Relaxes.on (DateTime.decode_relaxes.bind fun _ =>
    sp_relaxes.bind fun _ => .pure _)) (Relaxes.on (.pure _))) none fun b hb => ?_
  rw [Octet.ite_of_isBlank hb rfl]
  exact ⟨rfl, rfl⟩

/-- The arguments of every verb.  Only behind those of a SEARCH command a space may go. -/
theorem decodeArguments_relaxes (h : ctx.Loosens ctx') (byUid : Bool) (verb : Verb) :
    Relaxes IsSearch (decodeArguments ctx byUid verb) (decodeArguments ctx' byUid verb) := by
  cases verb with
  | capability | noop | logout | check | close => exact .pure _
  | login =>
    exact sp_relaxes.bind fun _ => (astring_relaxes h).bind fun _ => sp_relaxes.bind fun _ =>
      .map _ (astring_relaxes h)
  | select | examine | create | delete | subscribe | unsubscribe =>
    exact .map _ (decodeMailbox_relaxes h)
  | rename => exact (decodeMailbox_relaxes h).bind fun _ => .map _ (decodeMailbox_relaxes h)
  | list | lsub =>
    exact (decodeMailbox_relaxes h).bind fun _ => sp_relaxes.bind fun _ =>
      .map _ (MailboxPattern.decode_relaxes h)
  | status =>
    exact (decodeMailbox_relaxes h).bind fun _ => sp_relaxes.bind fun _ =>
      .map _ StatusItem.decodeList_relaxes
  | append =>
    exact (decodeMailbox_relaxes h).bind fun _ => sp_relaxes.bind fun _ =>
      decodeAppendFlags_relaxes.bind fun _ => decodeAppendDate_relaxes.bind fun _ =>
        .map _ (literalOctets_relaxes h.maxLiteral_eq h.within)
  | expunge => exact .ite (.map _ decodeMessages_relaxes) (.pure _)
  | search =>
    exact sp_relaxes.bind fun _ =>
      .map (fun found : Option Charset × SearchKey => search found.1 found.2 byUid)
        (SearchKey.decodeCriteria_relaxes h)
  | fetch =>
    exact decodeMessages_relaxes.bind fun _ => sp_relaxes.bind fun _ =>
      (FetchData.decode_relaxes h).bind fun _ => .pure _
  | store =>
    exact decodeMessages_relaxes.bind fun _ => sp_relaxes.bind fun _ =>
      .map _ StoreRequest.decode_relaxes
  | copy => exact decodeMessages_relaxes.bind fun _ => .map _ (decodeMailbox_relaxes h)

theorem decodeUnended_relaxes (h : ctx.Loosens ctx') (byUid : Bool) (verb : Verb) :
    Relaxes IsSearch (decodeUnended ctx byUid verb) (decodeUnended ctx' byUid verb) :=
  .ite (.reject _) (decodeArguments_relaxes h byUid verb)

end CommandBody

theorem Command.decodeUnended_relaxes (h : ctx.Loosens ctx') (tag : Tag) (byUid : Bool)
    (name : String) : Relaxes (fun command => command.body.IsSearch)
      (Command.decodeUnended ctx tag byUid name) (Command.decodeUnended ctx' tag byUid name) := by
  unfold Command.decodeUnended
  split
  · exact .map _ (CommandBody.decodeUnended_relaxes h byUid _)
  · exact .reject _

namespace Request

theorem parse_relaxes (h : ctx.Loosens ctx') :
    Relaxes (fun command => command.body.IsSearch) (parse ctx) (parse ctx') :=
  Tag.decode_relaxes.bind fun tag => sp_relaxes.bind fun _ => keyword_relaxes.bind fun _ => .ite
    (sp_relaxes.bind fun _ => keyword_relaxes.bind fun _ =>
      Command.decodeUnended_relaxes h tag true _)
    (Command.decodeUnended_relaxes h tag false _)

theorem read_keeps (h : ctx.Loosens ctx') : Keeps (read ctx) (read ctx') :=
  (parse_relaxes h).keeps.bind fun _ => (Keeps.eol h.within).bind fun _ => .refl _

section Read

variable {c e : Cursor} {r : Except Failure Request} {command : Command}

/-- A request that is not rejected is answered as it is read. -/
theorem decode_eq_of_read (h : ∀ error d, read ctx c ≠ (.error (.rejected error), d)) :
    decode ctx c = ((read ctx c).1.map .command, (read ctx c).2) := by
  rcases hrun : read ctx c with ⟨f | command, d⟩
  · cases f with
    | rejected error => exact absurd hrun (h error d)
    | io error => exact decode_of_fatal hrun rfl
    | literalTooLarge length limit => exact decode_of_fatal hrun rfl
  · exact decode_of_ok hrun

/-- What becomes a command, or is refused, is not rejected. -/
theorem not_rejected_of_decode (h : decode ctx c = (r, e))
    (hr : (∃ command, r = .ok (.command command)) ∨ Refused r) (error : DecodingError)
    (d : Cursor) :
    read ctx c ≠ (.error (.rejected error), d) := by
  intro hrun
  have hc : c.Steady := by
    rcases hr with ⟨command, rfl⟩ | ⟨length, limit, rfl⟩
    · exact steady_of_settled h trivial
    · exact steady_of_settled h trivial
  have hd : d.Steady := (read_forward ctx).steady_of_run hc hrun
  rw [decode_of_rejected hrun] at h
  -- Discarding ends in a malformed request, or fails for lack of octets.
  rcases hline : discardLine d with ⟨f | u, d'⟩
  · obtain ⟨io, rfl⟩ := discardFrom_error _ hd (Nat.le_refl _) hline
    rw [discard_of_error hline] at h
    obtain rfl : .error (.io io) = r := congrArg Prod.fst h
    rcases hr with ⟨command, hr⟩ | hr
    · simp at hr
    · exact not_refused_io io hr
  · rw [discard_of_ok hline] at h
    obtain rfl : .ok (.malformed _ error) = r := congrArg Prod.fst h
    rcases hr with ⟨command, hr⟩ | hr
    · simp at hr
    · exact not_refused_ok _ hr

theorem read_of_decode (h : decode ctx c = (.ok (.command command), e)) :
    read ctx c = (.ok command, e) := by
  have hread := decode_eq_of_read (not_rejected_of_decode h (Or.inl ⟨command, rfl⟩))
  rw [h] at hread
  rcases hrun : read ctx c with ⟨f | command', d⟩ <;> rw [hrun] at hread
  · simp [Except.map] at hread
  · obtain ⟨rfl, rfl⟩ : command = command' ∧ e = d := by simpa [Except.map] using hread
    rfl

/-- Behind a command that was read there was a line break. -/
theorem rest_of_read (hc : c.Steady) (h : read ctx c = (.ok command, e)) :
    ∃ d tail, parse ctx c = (.ok command, d) ∧ Octet.IsLineTail tail ∧
      d.rest = tail ++ Octet.lf :: e.rest ∧ d.Reaches (tail ++ [Octet.lf]) e := by
  rw [read] at h
  obtain ⟨command', d, hparse, h⟩ := exists_of_bind h
  have hd : d.Steady := (parse_inline ctx).forward.steady_of_run hc hparse
  obtain ⟨_, d', heol, h⟩ := exists_of_bind h
  obtain ⟨brk, s, hbrk, hrest, rfl⟩ := rest_of_eol hd heol
  obtain ⟨tail, htail, rfl⟩ := hbrk.exists_tail
  obtain ⟨rfl, rfl⟩ : command' = command ∧ d.advance (tail ++ [Octet.lf]).length = e := by
    simpa [pure_apply] using h
  have hend : d.Reaches (tail ++ [Octet.lf]) (d.advance (tail ++ [Octet.lf]).length) := .front hrest
  exact ⟨d, tail, hparse, htail, by rw [hend.rest_eq]; simp, hend⟩

theorem read_of_crlf {d : Cursor} {s : List UInt8} (hd : d.Steady)
    (h : parse ctx c = (.ok command, d)) (hrest : d.rest = Octet.cr :: Octet.lf :: s) :
    read ctx c = (.ok command, d.advance 2) := by
  rw [read, bind_of_ok h, bind_of_ok (eol_of_crlf hd hrest)]
  rfl

end Read

/-- **Accepting more.**  Where more is accepted, a command and a refused literal stay what they are,
at the same position and with the same requests for data.  And what is read as a command is read as
the same command where nothing is accepted beyond the grammar, once its line feeds alone behind
announcements and at its end become proper line breaks and, if it is a SEARCH command, a space in
front of its end may go. -/
theorem decode_accepting (ctx : Context) :
    (∀ loose c r e, ctx.leniency.Within loose → decode ctx c = (r, e) →
      (∃ command, r = .ok (.command command)) ∨ Refused r →
        decode (ctx.accepting loose) c = (r, e)) ∧
    ∀ c command e, decode ctx c = (.ok (.command command), e) →
      ∃ w tail w', c.Reaches (w ++ (tail ++ [Octet.lf])) e ∧ Octet.IsLineTail tail ∧
        Trimmed command.body.IsSearch (tail ++ Octet.lf :: e.rest) w w' ∧
        ∀ c' s, c'.Listens → c'.rest = w' ++ Octet.cr :: Octet.lf :: s →
          ∃ e', decode (ctx.accepting .strict) c' = (.ok (.command command), e') ∧
            c'.Reaches (w' ++ [Octet.cr, Octet.lf]) e' := by
  refine ⟨fun loose c r e hwithin h hr => ?_, fun c command e h => ?_⟩
  · have hread := not_rejected_of_decode h hr
    have hloosens : ctx.Loosens (ctx.accepting loose) := ⟨rfl, rfl, hwithin⟩
    have hkeeps := read_keeps hloosens c hread
    rw [decode_eq_of_read (by rw [hkeeps]; exact hread), hkeeps, ← decode_eq_of_read hread, h]
  · have hc : c.Steady := steady_of_settled h trivial
    have hrel : Relaxes (fun command => command.body.IsSearch) (parse (ctx.accepting .strict))
        (parse ctx) := parse_relaxes ⟨rfl, rfl, by simp [Context.accepting, Leniency.strict],
          by simp [Context.accepting, Leniency.strict]⟩
    obtain ⟨d, tail, hparse, htail, hrest, hend⟩ := rest_of_read hc (read_of_decode h)
    obtain ⟨w, t, hw, htrimmed, hread⟩ := hrel.tidiesAt c hc command d hparse
    refine ⟨w, tail, Sent.octets t, hw.trans hend, htail, hrest ▸ htrimmed,
      fun c' s hc' hc'rest => ?_⟩
    -- A proper line break may follow in place of the one that was read.
    have hfollows : Follows d.rest (Octet.cr :: Octet.lf :: s) := hrest ▸ .line_break htail _ _
    have hparse' := hread t rfl _ hfollows c' hc' hc'rest
    have hc'after := Cursor.rest_after t hc'rest
    exact ⟨(c'.after t).advance 2,
      decode_of_ok (read_of_crlf (hc'.after t).steady hparse' hc'after),
      (Cursor.reaches_after hc'rest).trans (.front (w := [Octet.cr, Octet.lf]) hc'after)⟩

/-- A space at the end of a SEARCH command stays accepted where a line feed alone is accepted as
well; and a command that ends in both is read again where neither is accepted. -/
theorem decode_accepting_search :
    decode { leniency := ⟨true, true⟩ } (.ofOctets (Octet.ofText "A SEARCH ALL \r\n")) =
        (.ok (.command ⟨⟨"A"⟩, .search none .all false⟩), ⟨[], 15, [], .memory⟩) ∧
      ∃ w e, decode { leniency := .strict } (.ofOctets (w ++ [Octet.cr, Octet.lf])) =
        (.ok (.command ⟨⟨"A"⟩, .search none .all false⟩), e) ∧ e.rest = [] := by
  constructor
  · have hrun : decode {} (.ofOctets (Octet.ofText "A SEARCH ALL \r\n")) =
        (.ok (.command ⟨⟨"A"⟩, .search none .all false⟩), ⟨[], 15, [], .memory⟩) := by cbv
    exact (decode_accepting {}).1 ⟨true, true⟩ _ _ _ ⟨by decide, by decide⟩ hrun (Or.inl ⟨_, rfl⟩)
  · have hrun : decode { leniency := ⟨true, true⟩ } (.ofOctets (Octet.ofText "A SEARCH ALL \n")) =
        (.ok (.command ⟨⟨"A"⟩, .search none .all false⟩), ⟨[], 14, [], .memory⟩) := by cbv
    obtain ⟨-, -, w, -, -, -, hread⟩ :=
      (decode_accepting { leniency := ⟨true, true⟩ }).2 _ _ _ hrun
    have hlistens : (Cursor.ofOctets (w ++ [Octet.cr, Octet.lf])).Listens := by
      constructor <;> intro link hlink <;> simp [Cursor.ofOctets] at hlink
    obtain ⟨e, he, hreaches⟩ := hread _ [] hlistens rfl
    refine ⟨w, e, he, ?_⟩
    have hrest : w ++ [Octet.cr, Octet.lf] = w ++ [Octet.cr, Octet.lf] ++ e.rest := hreaches.rest_eq
    exact List.self_eq_append_right.1 hrest

end Request

end ImapRequest
