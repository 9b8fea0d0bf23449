import ImapRequest.Proofs.Written.Dates
import ImapRequest.Proofs.Written.Items
import ImapRequest.Proofs.Written.Sets

/-!
# Renderings of search criteria

A search key is written with its keyword, as a set of sequence numbers, or in parentheses, where
keys that have to match together have spaces between them.  Parentheses may also be around a single
key, and then around it again, as long as keys are nested at most `SearchKey.maxLevel` deep.  The
outermost keys of a command need no parentheses.

* `SearchKey.named`, `SearchKey.written`, `SearchKey.criteria` : the renderings;
* `SearchKey.decodeWithin_reads`, `SearchKey.decodeCriteria_reads` : all of them are read as the
  key, by induction on the levels that are left.
-/

namespace ImapRequest

open Sent

namespace SearchKey

/-! ### Renderings -/

/-- The keyword of a key and what is written after it, where `inner` are the renderings of the keys
in it.  Sequence numbers and keys that have to match together have no keyword. -/
def named (limit : Nat) (inner : SearchKey → Language Sent) :
    SearchKey → Option (String × Language Sent)
  | .and _ => none
  | .sequenceSet _ => none
  | .all => some ("ALL", 1)
  | .answered => some ("ANSWERED", 1)
  | .bcc value => some ("BCC", Written.sp * Written.astring limit value)
  | .before date => some ("BEFORE", Written.sp * date.written)
  | .body value => some ("BODY", Written.sp * Written.astring limit value)
  | .cc value => some ("CC", Written.sp * Written.astring limit value)
  | .deleted => some ("DELETED", 1)
  | .draft => some ("DRAFT", 1)
  | .flagged => some ("FLAGGED", 1)
  | .from value => some ("FROM", Written.sp * Written.astring limit value)
  | .header field value => some ("HEADER",
      Written.sp * (Written.astring limit field * (Written.sp * Written.astring limit value)))
  | .keyword flag => some ("KEYWORD", Written.sp * Written.word Octet.isAtomChar flag.text)
  | .larger octets => some ("LARGER", Written.sp * Written.number octets)
  | .new => some ("NEW", 1)
  | .not key => some ("NOT", Written.sp * inner key)
  | .old => some ("OLD", 1)
  | .older seconds =>
    some ("OLDER", Written.sp * Written.provided (seconds ≠ 0) (Written.number seconds))
  | .on date => some ("ON", Written.sp * date.written)
  | .or left right => some ("OR", Written.sp * (inner left * (Written.sp * inner right)))
  | .recent => some ("RECENT", 1)
  | .seen => some ("SEEN", 1)
  | .sentBefore date => some ("SENTBEFORE", Written.sp * date.written)
  | .sentOn date => some ("SENTON", Written.sp * date.written)
  | .sentSince date => some ("SENTSINCE", Written.sp * date.written)
  | .since date => some ("SINCE", Written.sp * date.written)
  | .smaller octets => some ("SMALLER", Written.sp * Written.number octets)
  | .subject value => some ("SUBJECT", Written.sp * Written.astring limit value)
  | .text value => some ("TEXT", Written.sp * Written.astring limit value)
  | .to value => some ("TO", Written.sp * Written.astring limit value)
  | .uid set => some ("UID", Written.sp * set.written)
  | .unanswered => some ("UNANSWERED", 1)
  | .undeleted => some ("UNDELETED", 1)
  | .undraft => some ("UNDRAFT", 1)
  | .unflagged => some ("UNFLAGGED", 1)
  | .unkeyword flag => some ("UNKEYWORD", Written.sp * Written.word Octet.isAtomChar flag.text)
  | .unseen => some ("UNSEEN", 1)
  | .younger seconds =>
    some ("YOUNGER", Written.sp * Written.provided (seconds ≠ 0) (Written.number seconds))

/-- Keys that match together when `key` does: the key alone, or at least two. -/
def Together (key : SearchKey) (keys : List SearchKey) : Prop :=
  keys = [key] ∨ 2 ≤ keys.length ∧ key = .and keys

/-- The renderings of a key, in which keys are nested at most `levels` deep. -/
def written (limit : Nat) : Nat → SearchKey → Language Sent
  | 0 => fun _ => 0
  | levels + 1 => fun key t =>
    (∃ set, key = .sequenceSet set ∧ t ∈ set.written) ∨
    (∃ word L, key.named limit (written limit levels) = some (word, L) ∧
      t ∈ Written.keyword word * L) ∨
    ∃ keys : OneOrMore SearchKey, key.Together keys.toList ∧
      t ∈ Written.inParens (written limit levels) keys

/-- The renderings of a key as all keys of a command, of which none needs parentheses. -/
def criteria (limit : Nat) (key : SearchKey) : Language Sent :=
  fun t => ∃ keys : OneOrMore SearchKey, key.Together keys.toList ∧
    t ∈ written limit maxLevel keys.head * Written.spaced (written limit maxLevel) keys.tail

/-- The renderings of all keys of a command and the character set of their strings.  It is one in
which the octets of US-ASCII stand for themselves. -/
def writtenCriteria (limit : Nat) (charset : Option Charset) (key : SearchKey) : Language Sent :=
  match charset with
  | none => criteria limit key
  | some charset => Written.provided charset.ReadsAscii
      (Written.keyword "CHARSET" * (Written.sp * (Written.charset limit charset *
        (Written.sp * criteria limit key))))

/-! ### Keys with keywords -/

/-- The keyword of a search key, which is no announcement of a character set. -/
def IsName (word : String) : Prop :=
  Octet.IsKeyword word ∧ (Octet.ofText word).head?.any Octet.isLetter = true ∧ word ≠ "CHARSET"

instance (word : String) : Decidable (IsName word) := inferInstanceAs (Decidable (_ ∧ _))

theorem starts_name {word : String} (h : IsName word) :
    Starts (Octet.isLetter · = true) (Written.keyword word) := by
  have hupper : ∀ b, Octet.isLetter (Octet.upper b) = Octet.isLetter b :=
    Octet.forall_octet (by decide +kernel)
  obtain ⟨a, as, has⟩ := List.exists_cons_of_ne_nil h.1.1
  have ha : Octet.isLetter a = true := by simpa [has] using h.2.1
  refine (Written.starts_keyword has).imp fun b hb => ?_
  rw [← hupper, hb, hupper, ha]

/-- A key is read from its keyword and what is written after it. -/
structure Named (ctx : Context) (inner : Decoder SearchKey) (key : SearchKey) (word : String)
    (L : Language Sent) : Prop where
  isName : IsName word
  ends : ∀ u ∈ L, ∀ s, Delimited s → Delimited (octets u ++ s)
  reads : Decoder.Reads (decodeNamed ctx inner word) L Delimited key

section Named

variable {ctx : Context} {inner : Decoder SearchKey} {key : SearchKey} {word w : String}
  {L M : Language Sent}

theorem Named.alone (h : some (w, 1) = some (word, L)) (hname : IsName w)
    (hform : forms.lookup w = some (.plain key)) : Named ctx inner key word L := by
  cases h
  refine ⟨hname, fun u hu s hs => Decoder.delimited_of_mem_one hu hs, ?_⟩
  rw [decodeNamed, hform]
  exact .pure key

/-- The arguments of a form are read after a space. -/
theorem Named.intro {form : SearchForm} (h : some (w, Written.sp * M) = some (word, L))
    (hname : IsName w) (hform : forms.lookup w = some form)
    (hread : Decoder.Reads (decodeForm ctx inner form) (Written.sp * M) Delimited key) :
    Named ctx inner key word L := by
  cases h
  refine ⟨hname, fun u hu s _ => Decoder.delimited_of_mem_sp hu s, ?_⟩
  rw [decodeNamed, hform]
  exact hread

variable {limit : Nat} {rendered : SearchKey → Language Sent}

theorem named_of_eq (hctx : ctx.charset.ReadsAscii)
    (hinner : ∀ key, Decoder.Reads inner (rendered key) Delimited key)
    (h : key.named ctx.maxLiteral rendered = some (word, L)) : Named ctx inner key word L := by
  have htext (make : String → SearchKey) (value : String) :
      Decoder.Reads (decodeForm ctx inner (.text make))
        (Written.sp * Written.astring ctx.maxLiteral value) Delimited (make value) :=
    Decoder.sp_reads.andThen ((Decoder.astring_reads hctx value).map make)
  have hflag (make : Atom → SearchKey) (flag : Atom) :
      Decoder.Reads (decodeForm ctx inner (.flag make))
        (Written.sp * Written.word Octet.isAtomChar flag.text) Delimited (make flag) :=
    Decoder.sp_reads.andThen ((Atom.decode_reads flag).map make)
  have hdate (make : Date → SearchKey) (date : Date) :
      Decoder.Reads (decodeForm ctx inner (.date make)) (Written.sp * date.written) Delimited
        (make date) :=
    Decoder.sp_reads.andThen (date.decode_reads.map make)
  have hnumber (make : Nat → SearchKey) (n : Nat) :
      Decoder.Reads (decodeForm ctx inner (.number make)) (Written.sp * Written.number n) Delimited
        (make n) :=
    Decoder.sp_reads.andThen
      (((Decoder.number_reads n).imp fun s (hs : Delimited s) => hs.numberEnds).map make)
  have hpositive (make : Nat → SearchKey) (n : Nat) :
      Decoder.Reads (decodeForm ctx inner (.positive make))
        (Written.sp * Written.provided (n ≠ 0) (Written.number n)) Delimited (make n) :=
    Decoder.sp_reads.andThen (Decoder.Reads.provided fun hn =>
      ((Decoder.positive_reads hn).imp fun s (hs : Delimited s) => hs.numberEnds).map make)
  cases key with
  | and keys => exact absurd h (by simp [named])
  | sequenceSet set => exact absurd h (by simp [named])
  | all | answered | deleted | draft | flagged | new | old | recent | seen | unanswered | undeleted
  | undraft | unflagged | unseen => exact .alone h (by decide) rfl
  | bcc value | body value | cc value | «from» value | subject value | text value | «to» value =>
    exact .intro h (by decide) rfl (htext _ value)
  | header field value =>
    refine .intro h (by decide) rfl (Decoder.sp_reads.andThen ?_)
    exact (Decoder.astring_reads hctx field).spaced ((Decoder.astring_reads hctx value).map _)
  | keyword flag | unkeyword flag => exact .intro h (by decide) rfl (hflag _ flag)
  | before date | on date | since date | sentBefore date | sentOn date | sentSince date =>
    exact .intro h (by decide) rfl (hdate _ date)
  | larger octets | smaller octets => exact .intro h (by decide) rfl (hnumber _ octets)
  | older seconds | younger seconds => exact .intro h (by decide) rfl (hpositive _ seconds)
  | uid set =>
    exact .intro h (by decide) rfl (Decoder.sp_reads.andThen (set.decode_reads.map _))
  | not key => exact .intro h (by decide) rfl (Decoder.sp_reads.andThen ((hinner key).map _))
  | or left right =>
    refine .intro h (by decide) rfl (Decoder.sp_reads.andThen ?_)
    exact (hinner left).spaced ((hinner right).map _)

end Named

/-! ### Keys at some level -/

variable {ctx : Context}

theorem conjunction_of_together {key : SearchKey} {keys : OneOrMore SearchKey}
    (h : key.Together keys.toList) : conjunction keys = key := by
  obtain ⟨head, tail⟩ := keys
  rcases h with hsingle | ⟨hle, rfl⟩
  · obtain ⟨rfl, rfl⟩ : head = key ∧ tail = [] := by simpa [OneOrMore.toList] using hsingle
    rfl
  · cases tail with
    | nil => exact absurd hle (by decide : ¬ 2 ≤ 1)
    | cons next tail => rfl

theorem decodeWithin_forward (ctx : Context) (levels : Nat) :
    Decoder.Forward (decodeWithin ctx levels) :=
  (decodeWithin_inline ctx levels).forward

/-- Sets start with a digit or `*`, names with a letter. -/
theorem decodeWithin_of_set (levels : Nat) (set : SequenceSet) :
    Decoder.Reads (decodeWithin ctx (levels + 1)) set.written Delimited (.sequenceSet set) := by
  refine Decoder.Reads.look set.starts_written fun b hb => ?_
  have hparen : b ≠ Octet.lparen := by
    rintro rfl
    exact absurd hb (by decide)
  rw [if_neg (by simpa using hparen), if_pos (by simpa [SequenceSet.IsRangeStart] using hb)]
  exact set.decode_reads.map _

theorem decodeWithin_of_named {levels : Nat} {key : SearchKey} {word : String} {L : Language Sent}
    (h : Named ctx (decodeWithin ctx levels) key word L) :
    Decoder.Reads (decodeWithin ctx (levels + 1)) (Written.keyword word * L) Delimited key := by
  have hletter : ∀ b, Octet.isLetter b = true →
      b ≠ Octet.lparen ∧ (Octet.isDigit b || b == Octet.star) = false := by
    refine Octet.forall_octet ?_
    decide +kernel
  refine Decoder.Reads.look ((starts_name h.isName).mul L) fun b hb => ?_
  obtain ⟨hparen, hrange⟩ := hletter b hb
  rw [if_neg (by simpa using hparen), if_neg (by simp [hrange]), if_pos hb]
  exact (Decoder.keyword_reads h.isName.1).bind h.reads fun u hu s hs =>
    (h.ends u hu s hs).stops rfl rfl rfl

theorem decodeWithin_of_together {levels : Nat} {rendered : SearchKey → Language Sent}
    (hinner : ∀ key, Decoder.Reads (decodeWithin ctx levels) (rendered key) Delimited key)
    {key : SearchKey} {keys : OneOrMore SearchKey} (h : key.Together keys.toList) :
    Decoder.Reads (decodeWithin ctx (levels + 1)) (Written.inParens rendered keys) Delimited
      key := by
  refine Decoder.Reads.look ((Written.starts_octets _ _).mul _) ?_
  rintro _ rfl
  rw [← conjunction_of_together h]
  refine (Decoder.consume_reads _).andThen (Decoder.Reads.anywhere ?_)
  exact (Decoder.oneOrMore_reads (decodeWithin_forward ctx levels) keys fun key _ =>
    hinner key).map conjunction

/-- Every rendering of a key is read as the key. -/
theorem decodeWithin_reads (hctx : ctx.charset.ReadsAscii) (levels : Nat) : ∀ key : SearchKey,
    Decoder.Reads (decodeWithin ctx levels) (key.written ctx.maxLiteral levels) Delimited key := by
  induction levels with
  | zero => exact fun key t ht => absurd ht (Language.notMem_zero t)
  | succ levels ih =>
    -- The first octet tells the three kinds of renderings apart.
    rintro key t (⟨set, rfl, ht⟩ | ⟨word, L, hnamed, ht⟩ | ⟨keys, hkeys, ht⟩)
    · exact decodeWithin_of_set levels set t ht
    · exact decodeWithin_of_named (named_of_eq hctx ih hnamed) t ht
    · exact decodeWithin_of_together ih hkeys t ht

/-! ### All keys of a command -/

/-- What a key starts with is no line break. -/
def Continues (s : List UInt8) : Prop := ∃ b u, s = b :: u ∧ Octet.isLineBreak b = false

theorem starts_written (hctx : ctx.charset.ReadsAscii) (levels : Nat) (key : SearchKey) :
    Starts (Octet.isLineBreak · = false) (key.written ctx.maxLiteral levels) := by
  have hrange : ∀ b, SequenceSet.IsRangeStart b → Octet.isLineBreak b = false := by
    refine Octet.forall_octet ?_
    decide +kernel
  have hletter : ∀ b, Octet.isLetter b = true → Octet.isLineBreak b = false :=
    Octet.forall_octet (by decide +kernel)
  cases levels with
  | zero => exact fun t ht => absurd ht (Language.notMem_zero t)
  | succ levels =>
    rintro t (⟨set, rfl, ht⟩ | ⟨word, L, hnamed, ht⟩ | ⟨keys, -, ht⟩)
    · exact set.starts_written.imp hrange t ht
    · have hname := (named_of_eq hctx (decodeWithin_reads hctx levels) hnamed).isName
      exact ((starts_name hname).mul L).imp hletter t ht
    · obtain ⟨b, u, hu, rfl⟩ := (Written.starts_octets Octet.lparen []).mul _ t ht
      exact ⟨_, u, hu, rfl⟩

theorem criteriaContinue_of_sp (leniency : Leniency) :
    Decoder.Reads (criteriaContinue leniency) Written.sp Continues true := by
  refine Decoder.Reads.ifNext (Written.starts_octets _ _) ?_
  have hpeek : Decoder.Reads (do
      if Octet.isLineBreak (← Decoder.peek) then
        if leniency.trailingSpace then return false else Decoder.reject .trailingSpace
      else
        return true) 1 Continues true := by
    rintro t ht _ ⟨b, u, rfl, hb⟩ c hc hrest
    obtain rfl := (Language.mem_one t).1 ht
    rw [Decoder.bind_of_ok (Decoder.peek_of_rest hc.steady hrest), if_neg (by simp [hb])]
    rfl
  rw [← mul_one Written.sp]
  exact (Decoder.consume_reads _).andThen hpeek

theorem criteriaContinue_of_ended (leniency : Leniency) :
    Decoder.Reads (criteriaContinue leniency) 1 Ended false := by
  refine Decoder.Reads.ifNotNext (fun t ht s hs b hb => ?_) (.pure false)
  obtain rfl := (Language.mem_one t).1 ht
  obtain rfl : Octet.cr = b := Option.some.inj (hs.symm.trans hb)
  rfl

theorem decodeConjunction_reads (hctx : ctx.charset.ReadsAscii) {key : SearchKey}
    {keys : OneOrMore SearchKey} (h : key.Together keys.toList) :
    Decoder.Reads (decodeConjunction ctx keys.head)
      (Written.spaced (written ctx.maxLiteral maxLevel) keys.tail) Ended key := by
  have htail := Decoder.manyEnded_reads (criteriaContinue_advances ctx.leniency)
    (show Decoder.Inline 0 ctx.leniency _ from criteriaContinue_inline ctx.leniency).forward
    (decodeWithin_forward ctx maxLevel) (criteriaContinue_of_sp _) (criteriaContinue_of_ended _)
    keys.tail fun key _ => ⟨decodeWithin_reads hctx maxLevel key, fun t ht s =>
      (starts_written hctx maxLevel key).append ht s⟩
  rw [← conjunction_of_together h]
  exact htail.map fun more => conjunction { head := keys.head, tail := more }

/-- The first key decides whether a character set is named. -/
theorem decodeCriteria_of_first (hctx : ctx.charset.ReadsAscii) {first key : SearchKey}
    {M : Language Sent} (hmore : Decoder.Reads (decodeConjunction ctx first) M Ended key)
    (hend : ∀ u ∈ M, ∀ s, Ended s → Delimited (octets u ++ s)) :
    Decoder.Reads (decodeCriteria ctx) (first.written ctx.maxLiteral maxLevel * M) Ended
      (none, key) := by
  have hrange : ∀ b, SequenceSet.IsRangeStart b → Octet.isLetter b = false := by
    refine Octet.forall_octet ?_
    decide +kernel
  have hpair := hmore.map fun key => ((none, key) : Option Charset × SearchKey)
  -- A set or a list is read like any other key.
  have hother : ∀ {t : List Sent} {L : Language Sent}, Starts (Octet.isLetter · = false) L →
      Decoder.Reads (decode ctx 1) L Delimited first → t ∈ L → ∀ v ∈ M, ∀ s, Ended s →
      ∀ c : Cursor, c.Listens → c.rest = octets (t ++ v) ++ s →
      decodeCriteria ctx c = (.ok (none, key), c.after (t ++ v)) := by
    intro t L hstarts hread ht v hv
    have hall : Decoder.Reads (decodeCriteria ctx) (L * M) Ended (none, key) := by
      refine Decoder.Reads.look (hstarts.mul M) fun b hb => ?_
      rw [if_neg (by simp [hb])]
      exact hread.bind hpair hend
    exact hall _ (Language.append_mem_mul ht hv)
  rintro _ ⟨t, ⟨set, rfl, ht⟩ | ⟨word, L, hnamed, ht⟩ | ⟨keys, hkeys, ht⟩, v, hv, rfl⟩
  · exact hother (set.starts_written.imp hrange) (decodeWithin_of_set _ set) ht v hv
  · have h := named_of_eq hctx (decodeWithin_reads hctx _) hnamed
    have hread : Decoder.Reads (decodeCriteria ctx) (Written.keyword word * (L * M)) Ended
        (none, key) := by
      refine Decoder.Reads.look ((starts_name h.isName).mul _) fun b hb => ?_
      rw [if_pos hb]
      -- The keyword was read to see whether it names a character set.
      refine (Decoder.keyword_reads h.isName.1).bind ?_ ?_
      · rw [if_neg h.isName.2.2]
        exact h.reads.bind hpair hend
      · rintro _ ⟨u, hu, w, hw, rfl⟩ s hs
        rw [octets_append, List.append_assoc]
        exact (h.ends u hu _ (hend w hw s hs)).stops rfl rfl rfl
    refine hread _ ?_
    rw [← mul_assoc]
    exact Language.append_mem_mul ht hv
  · refine hother (((Written.starts_octets _ _).imp ?_).mul _)
      (decodeWithin_of_together (decodeWithin_reads hctx _) hkeys) ht v hv
    rintro _ rfl
    rfl

theorem decodeCriteria_of_none (hctx : ctx.charset.ReadsAscii) (key : SearchKey) :
    Decoder.Reads (decodeCriteria ctx) (key.criteria ctx.maxLiteral) Ended (none, key) := by
  rintro t ⟨keys, hkeys, ht⟩
  exact decodeCriteria_of_first hctx (decodeConjunction_reads hctx hkeys)
    (fun u hu s hs => Decoder.delimited_of_mem_spacedEnded hu hs) t ht

/-- All keys of a command, where the character set is known. -/
theorem keys_reads (hctx : ctx.charset.ReadsAscii) (key : SearchKey) :
    Decoder.Reads (do decodeConjunction ctx (← decode ctx 1)) (key.criteria ctx.maxLiteral) Ended
      key := by
  rintro t ⟨keys, hkeys, ht⟩
  exact (decodeWithin_reads hctx maxLevel keys.head).bind (decodeConjunction_reads hctx hkeys)
    (fun u hu s hs => Decoder.delimited_of_mem_spacedEnded hu hs) t ht

/-- Every rendering of search criteria is read as the criteria. -/
theorem decodeCriteria_reads (hctx : ctx.charset.ReadsAscii) (charset : Option Charset)
    (key : SearchKey) :
    Decoder.Reads (decodeCriteria ctx) (key.writtenCriteria ctx.maxLiteral charset) Ended
      (charset, key) := by
  cases charset with
  | none => exact decodeCriteria_of_none hctx key
  | some charset =>
    refine Decoder.Reads.provided fun hcharset => ?_
    have hword : Octet.IsKeyword "CHARSET" := by decide
    -- From here on the strings are in the character set that was named.
    have hkeys : Decoder.Reads (do
        let first ← decode { ctx with charset } 1
        return (some charset, ← decodeConjunction { ctx with charset } first))
        (key.criteria ctx.maxLiteral) Ended (some charset, key) := by
      have hread := (@keys_reads { ctx with charset } hcharset key).map
        fun key => (some charset, key)
      rwa [bind_assoc] at hread
    have hletter : Starts (Octet.isLetter · = true) (Written.keyword "CHARSET") := by
      have hupper : ∀ b, Octet.upper b = Octet.upper 0x43 → Octet.isLetter b = true := by
        refine Octet.forall_octet ?_
        decide +kernel
      exact (Written.starts_keyword (a := 0x43) rfl).imp hupper
    refine Decoder.Reads.look (hletter.mul _) fun b hb => ?_
    rw [if_pos hb]
    refine (Decoder.keyword_reads hword).bind ?_ fun u hu s _ =>
      (Decoder.delimited_of_mem_sp hu s).stops rfl rfl rfl
    rw [if_pos rfl]
    exact Decoder.sp_reads.andThen ((Decoder.charset_reads ctx charset).spaced hkeys)

/-! ### What can be rendered -/

mutual

/-- At least two keys have to match together, an age is not zero, and what a key is about can be
rendered. -/
def Expressible (limit : Nat) : SearchKey → Prop
  | .and keys => 2 ≤ keys.length ∧ AllExpressible limit keys
  | .not key => Expressible limit key
  | .or left right => Expressible limit left ∧ Expressible limit right
  | .bcc value | .body value | .cc value | .from value | .subject value | .text value
  | .to value => Text.Expressible limit value
  | .header field value => Text.Expressible limit field ∧ Text.Expressible limit value
  | .keyword flag | .unkeyword flag => Atom.check (Octet.ofText flag.text) = .ok ()
  | .larger octets | .smaller octets => octets ≤ Decimal.maxNumber
  | .older seconds | .younger seconds => seconds ≠ 0 ∧ seconds ≤ Decimal.maxNumber
  | _ => True

/-- All of some keys are expressible. -/
def AllExpressible (limit : Nat) : List SearchKey → Prop
  | [] => True
  | key :: keys => Expressible limit key ∧ AllExpressible limit keys

end

variable {limit : Nat}

theorem expressible_of_mem {keys : List SearchKey} (h : AllExpressible limit keys) :
    ∀ key ∈ keys, key.Expressible limit := by
  induction keys with
  | nil => exact fun key hkey => absurd hkey List.not_mem_nil
  | cons first keys ih =>
    rw [AllExpressible] at h
    intro key hkey
    rcases List.mem_cons.1 hkey with rfl | hkey
    · exact h.1
    · exact ih h.2 key hkey

theorem depth_le_maxDepth {keys : List SearchKey} : ∀ key ∈ keys, key.depth ≤ maxDepth keys := by
  induction keys with
  | nil => exact fun key hkey => absurd hkey List.not_mem_nil
  | cons first keys ih =>
    intro key hkey
    rw [maxDepth]
    rcases List.mem_cons.1 hkey with rfl | hkey
    · exact Nat.le_max_left ..
    · exact Nat.le_trans (ih key hkey) (Nat.le_max_right ..)

theorem depth_ne_zero (key : SearchKey) : key.depth ≠ 0 := by
  cases key <;> simp [depth]

theorem possible_of_named {levels : Nat} {key : SearchKey} {word : String} {L : Language Sent}
    (h : key.named limit (written limit levels) = some (word, L)) (hL : Possible L) :
    Possible (key.written limit (levels + 1)) := by
  obtain ⟨t, ht⟩ := (Possible.keyword word).mul hL
  exact ⟨t, Or.inr (Or.inl ⟨word, L, h, ht⟩)⟩

theorem exists_together {keys : List SearchKey} (h : 2 ≤ keys.length) :
    ∃ all : OneOrMore SearchKey, (SearchKey.and keys).Together all.toList ∧ all.toList = keys := by
  cases keys with
  | nil => exact absurd h (by decide : ¬ 2 ≤ 0)
  | cons first keys => exact ⟨⟨first, keys⟩, Or.inr ⟨h, rfl⟩, rfl⟩

/-- A key can be rendered within as many levels as it is deep. -/
theorem possible_written (levels : Nat) : ∀ key : SearchKey, key.Expressible limit →
    key.depth ≤ levels → Possible (key.written limit levels) := by
  induction levels with
  | zero => exact fun key _ hdepth => absurd (Nat.le_zero.1 hdepth) key.depth_ne_zero
  | succ levels ih =>
    intro key h hdepth
    have hdate (date : Date) : Possible (Written.sp * date.written) :=
      Possible.sp.mul date.possible_written
    have htext {value : String} (h : Text.Expressible limit value) :
        Possible (Written.sp * Written.astring limit value) :=
      Possible.sp.mul (.wordOrString h)
    cases key with
    | all | answered | deleted | draft | flagged | new | old | recent | seen | unanswered
    | undeleted
    | undraft | unflagged | unseen => exact possible_of_named rfl .one
    | bcc value | body value | cc value | «from» value | subject value | text value | «to» value =>
      rw [Expressible] at h
      exact possible_of_named rfl (htext h)
    | header field value =>
      rw [Expressible] at h
      exact possible_of_named rfl (Possible.sp.mul ((Possible.wordOrString h.1).mul (htext h.2)))
    | keyword flag | unkeyword flag =>
      rw [Expressible] at h
      exact possible_of_named rfl (Possible.sp.mul (Atom.possible h))
    | before date | on date | since date | sentBefore date | sentOn date | sentSince date =>
      exact possible_of_named rfl (hdate date)
    | larger octets | smaller octets =>
      rw [Expressible] at h
      exact possible_of_named rfl (Possible.sp.mul (.number h))
    | older seconds | younger seconds =>
      rw [Expressible] at h
      exact possible_of_named rfl (Possible.sp.mul (.provided h.1 (.number h.2)))
    | uid set => exact possible_of_named rfl (Possible.sp.mul set.possible_written)
    | sequenceSet set =>
      obtain ⟨t, ht⟩ := set.possible_written
      exact ⟨t, Or.inl ⟨set, rfl, ht⟩⟩
    | not key =>
      rw [Expressible] at h
      rw [depth] at hdepth
      exact possible_of_named rfl (Possible.sp.mul (ih key h (by omega)))
    | or left right =>
      rw [Expressible] at h
      rw [depth] at hdepth
      have hleft := ih left h.1 (by omega)
      have hright := ih right h.2 (by omega)
      exact possible_of_named rfl (Possible.sp.mul (hleft.mul (Possible.sp.mul hright)))
    | and keys =>
      rw [Expressible] at h
      rw [depth] at hdepth
      obtain ⟨all, hall, rfl⟩ := exists_together h.1
      obtain ⟨t, ht⟩ := Possible.inParens all fun key hkey =>
        ih key (expressible_of_mem h.2 key hkey) (by have := depth_le_maxDepth key hkey; omega)
      exact ⟨t, Or.inr (Or.inr ⟨all, hall, ht⟩)⟩

/-- How deep the keys of a command are nested, where the outermost ones need no parentheses. -/
def criteriaDepth : SearchKey → Nat
  | .and keys => maxDepth keys
  | key => key.depth

theorem possible_criteria {key : SearchKey} (h : key.Expressible limit)
    (hdepth : key.criteriaDepth ≤ maxLevel) : Possible (key.criteria limit) := by
  have hsingle (hdepth : key.depth ≤ maxLevel) : Possible (key.criteria limit) := by
    obtain ⟨t, ht⟩ := possible_written maxLevel key h hdepth
    refine ⟨t, ⟨key, []⟩, Or.inl rfl, ?_⟩
    rwa [Written.spaced, mul_one]
  cases key with
  | and keys =>
    rw [Expressible] at h
    obtain ⟨all, hall, rfl⟩ := exists_together h.1
    have hkeys : ∀ key ∈ all.toList, Possible (key.written limit maxLevel) := fun key hkey =>
      possible_written maxLevel key (expressible_of_mem h.2 key hkey)
        (Nat.le_trans (depth_le_maxDepth key hkey) hdepth)
    obtain ⟨t, ht⟩ := (hkeys all.head (List.mem_cons_self ..)).mul
      (Possible.spaced fun key hkey => hkeys key (List.mem_cons_of_mem _ hkey))
    exact ⟨t, all, hall, ht⟩
  | _ => exact hsingle hdepth

theorem possible_writtenCriteria {charset : Option Charset} {key : SearchKey}
    (hcharset : ∀ c ∈ charset, c.ReadsAscii ∧ Possible (Written.charset limit c))
    (h : key.Expressible limit) (hdepth : key.criteriaDepth ≤ maxLevel) :
    Possible (key.writtenCriteria limit charset) := by
  have hkeys := possible_criteria h hdepth
  cases charset with
  | none => exact hkeys
  | some charset =>
    obtain ⟨hascii, hlabel⟩ := hcharset charset rfl
    exact .provided hascii ((Possible.keyword _).mul (Possible.sp.mul
      (hlabel.mul (Possible.sp.mul hkeys))))

end SearchKey

end ImapRequest
