import ImapRequest.Proofs.Written.Items
import ImapRequest.Proofs.Written.Sections

/-!
# Renderings of what a FETCH command asks for

The attributes of a FETCH command are a single one, a list in parentheses in which an attribute may
stand more than once, or a shorthand.  A part of the content is written as its section, with the
names of header fields where the section has them, and the run of octets that is wanted of it.

* `BodyElement.written`, `FetchItem.written`, `FetchData.written` : the renderings;
* `FetchItem.decode_reads`, `FetchData.decode_reads` : all of them are read as what is asked for.
-/

namespace ImapRequest

open Sent

/-! ### Parts of the content -/

namespace BodyElement

/-- The renderings of the name of a header field, which is no word if it has a bracket. -/
def fieldName (limit : Nat) (name : String) : Language Sent :=
  Written.wordOrString isFieldNameChar limit name

/-- The names of header fields after a section, if it has them. -/
def fieldList (limit : Nat) (kind : SectionKind) : Option (OneOrMore String) → Language Sent
  | some names => Written.provided (kind.hasFieldNames = true)
      (Written.sp * Written.inParens (fieldName limit) names)
  | none => Written.provided (kind.hasFieldNames = false) 1

/-- The run of octets that is wanted, if not all are. -/
def octetRun : Option OctetRun → Language Sent
  | some run => Written.provided (run.octets ≠ 0)
      (Written.octets [Octet.less] * (Written.number run.firstOctet *
        (Written.octets [Octet.dot] * (Written.number run.octets *
          Written.octets [Octet.greater]))))
  | none => 1

/-- A section in brackets and the run of octets that is wanted of it. -/
def bracketed (limit : Nat) (e : BodyElement) : Language Sent :=
  Written.octets [Octet.lbracket] * (Written.token (SectionKind.token e.path e.kind) *
    (fieldList limit e.kind e.fieldNames * (Written.octets [Octet.rbracket] * octetRun e.run)))

/-- The renderings of a part of the content.  The names of RFC 822 stand for whole messages. -/
def written (limit : Nat) (e : BodyElement) : Language Sent :=
  match e.name with
  | .body => Written.keyword "BODY" * bracketed limit e
  | .bodyPeek => Written.keyword "BODY.PEEK" * bracketed limit e
  | .rfc822 => Written.provided (e = whole .rfc822 .content) (Written.keyword "RFC822")
  | .rfc822Header =>
    Written.provided (e = whole .rfc822Header .header) (Written.keyword "RFC822.HEADER")
  | .rfc822Text => Written.provided (e = whole .rfc822Text .text) (Written.keyword "RFC822.TEXT")

variable {ctx : Context}

theorem isWordClass_fieldNameChar : Octet.IsWordClass isFieldNameChar where
  lt := Octet.forall_octet (by decide +kernel)
  quote := rfl
  lbrace := rfl
  sp := rfl
  rparen := rfl
  cr := rfl

theorem decodeFieldNames_reads (hctx : ctx.charset.ReadsAscii) (names : OneOrMore String) :
    Decoder.Reads (decodeFieldNames ctx)
      (Written.inParens (fieldName ctx.maxLiteral) names) Anything names :=
  (Decoder.expect_reads _).andThen (Decoder.oneOrMore_reads
    (decodeFieldName_inline ctx).forward names fun name _ =>
      Decoder.wordOrString_reads isWordClass_fieldNameChar hctx _ name)

/-- The names of header fields after a section, if it has them. -/
def decodeFieldList (ctx : Context) (kind : SectionKind) : Decoder (Option (OneOrMore String)) := do
  if kind.hasFieldNames then
    Decoder.sp
    return some (← decodeFieldNames ctx)
  else
    return none

/-- The run of octets after a section, if there is one. -/
def decodeRun? : Decoder (Option OctetRun) := do
  if ← Decoder.nextIs Octet.less then
    return some (← decodeRun)
  else
    return none

/-- The front part of a section. -/
def decodeSection : Decoder (List Nat × SectionKind) := do
  let octets ← Decoder.takeWhile isSectionChar
  Decoder.token .bodySection SectionKind.ofToken octets

theorem decode_eq (name : BodyName) : decode ctx name = (do
    Decoder.expect Octet.lbracket
    let (path, kind) ← decodeSection
    let fieldNames ← decodeFieldList ctx kind
    Decoder.expect Octet.rbracket
    let run ← decodeRun?
    Decoder.ofExcept ((ofParts name path kind fieldNames run).mapError .invalidElement)) := by
  simp only [decodeSection, bind_assoc]
  rfl

theorem decodeSection_reads (ns : List Nat) (kind : SectionKind) :
    Decoder.Reads decodeSection (Written.token (SectionKind.token ns kind)) (Stops isSectionChar)
      (ns, kind) := by
  rintro _ ⟨bs, hbs, rfl⟩ s hs c hc hrest
  have hread := Decoder.takeWhile_reads (SectionKind.all_of_mem_token hbs) _ rfl s hs c hc hrest
  rw [decodeSection, Decoder.bind_of_ok hread,
    Decoder.token_of_ok (SectionKind.ofToken_of_mem hbs)]
  rfl

theorem decodeFieldList_reads (hctx : ctx.charset.ReadsAscii) (kind : SectionKind)
    (names : Option (OneOrMore String)) :
    Decoder.Reads (decodeFieldList ctx kind) (fieldList ctx.maxLiteral kind names) Anything
      names := by
  cases names with
  | none =>
    refine Decoder.Reads.provided fun hkind => ?_
    rw [decodeFieldList, if_neg (by simp [hkind])]
    exact .pure none
  | some names =>
    refine Decoder.Reads.provided fun hkind => ?_
    rw [decodeFieldList, if_pos hkind]
    exact Decoder.sp_reads.andThen ((decodeFieldNames_reads hctx names).map some)

theorem decodeRun_reads (run : OctetRun) :
    Decoder.Reads decodeRun (octetRun (some run)) Anything run := by
  have hends : ∀ {b : UInt8} {L : Language Sent}, Octet.isNumberEnd b = true → Starts (· = b) L →
      ∀ u ∈ L, ∀ s, NumberEnds (octets u ++ s) := by
    intro b L hb hL u hu s
    refine (hL.imp ?_).of_head hu s
    rintro _ rfl
    exact hb
  refine Decoder.Reads.provided fun hne => ?_
  refine (Decoder.expect_reads _).andThen ?_
  refine (Decoder.number_reads run.firstOctet).bind ?_ fun u hu s _ =>
    hends rfl ((Written.starts_octets _ _).mul _) u hu s
  refine (Decoder.expect_reads _).andThen ?_
  refine (Decoder.number_reads run.octets).bind ?_ fun u hu s _ =>
    hends rfl (Written.starts_octets _ _) u hu s
  rw [if_neg hne]
  exact (Decoder.expect_reads _).map fun _ => run

theorem decodeRun?_reads (run : Option OctetRun) :
    Decoder.Reads decodeRun? (octetRun run) Delimited run := by
  cases run with
  | none =>
    refine Decoder.Reads.ifNotNext (fun t ht s hs => ?_) (.pure none)
    obtain rfl := (Language.mem_one t).1 ht
    exact hs.stops rfl rfl rfl
  | some run =>
    refine Decoder.Reads.ifNext (Starts.provided fun _ => (Written.starts_octets _ _).mul _) ?_
    exact ((decodeRun_reads run).map some).anywhere

/-- A section that can be written fits with its field names. -/
theorem ofParts_of_mem {limit : Nat} {e : BodyElement} {t : List Sent}
    (h : t ∈ bracketed limit e) : ofParts e.name e.path e.kind e.fieldNames e.run = .ok e := by
  obtain ⟨_, -, _, ⟨_, ⟨bs, hbs, -⟩, _, ⟨v, hnames, _, -, rfl⟩, rfl⟩, rfl⟩ := h
  -- Without a part there is no token for a MIME header.
  have hmime : ¬ (e.kind = .mime ∧ e.path = []) := by
    rintro ⟨hkind, hpath⟩
    rw [hkind, hpath] at hbs
    exact Language.notMem_zero bs hbs
  cases hfields : e.fieldNames with
  | none =>
    rw [hfields] at hnames
    rw [ofParts, if_neg (by simp [hnames.1]), if_neg (by simp), if_neg hmime, ← hfields]
  | some names =>
    rw [hfields] at hnames
    rw [ofParts, if_neg (by simp), if_neg (by simp [hnames.1]), if_neg hmime, ← hfields]

theorem decode_reads (hctx : ctx.charset.ReadsAscii) (e : BodyElement) :
    Decoder.Reads (decode ctx e.name) (bracketed ctx.maxLiteral e) Delimited e := by
  -- A section that does not fit with its field names has no renderings.
  by_cases hparts : ofParts e.name e.path e.kind e.fieldNames e.run = .ok e
  case neg => exact fun t ht => absurd (ofParts_of_mem ht) hparts
  have hclose : ∀ u ∈ Written.octets [Octet.rbracket] * octetRun e.run, ∀ s,
      Stops isSectionChar (octets u ++ s) := by
    intro u hu s
    refine (((Written.starts_octets Octet.rbracket []).mul _).imp ?_).of_head hu s
    rintro _ rfl
    rfl
  -- After the front part of the section comes a space or the closing bracket.
  have hend : ∀ u ∈ fieldList ctx.maxLiteral e.kind e.fieldNames *
      (Written.octets [Octet.rbracket] * octetRun e.run),
        ∀ s, Stops isSectionChar (octets u ++ s) := by
    intro u hu s
    cases hfields : e.fieldNames with
    | none =>
      rw [hfields] at hu
      obtain ⟨v, ⟨-, hv⟩, w, hw, rfl⟩ := hu
      obtain rfl := (Language.mem_one v).1 hv
      exact hclose w hw s
    | some names =>
      rw [hfields] at hu
      obtain ⟨v, ⟨-, hv⟩, w, hw, rfl⟩ := hu
      have hsp := Decoder.delimited_of_mem_sp hv (octets w ++ s)
      rw [← List.append_assoc, ← octets_append] at hsp
      exact hsp.stops rfl rfl rfl
  rw [decode_eq]
  refine (Decoder.expect_reads _).andThen ?_
  refine (decodeSection_reads e.path e.kind).bind ?_ fun u hu s _ => hend u hu s
  refine (decodeFieldList_reads hctx e.kind e.fieldNames).andThen ?_
  refine (Decoder.expect_reads _).andThen ?_
  exact (decodeRun?_reads e.run).finish (by rw [hparts]; rfl)

end BodyElement

/-! ### Attributes -/

namespace FetchItem

/-- The renderings of an attribute. -/
def written (limit : Nat) : FetchItem → Language Sent
  | envelope => Written.keyword "ENVELOPE"
  | flags => Written.keyword "FLAGS"
  | internalDate => Written.keyword "INTERNALDATE"
  | size => Written.keyword "RFC822.SIZE"
  | body => Written.keyword "BODY"
  | bodyStructure => Written.keyword "BODYSTRUCTURE"
  | uid => Written.keyword "UID"
  | element e => e.written limit

variable {ctx : Context}

/-- An attribute is read from a keyword, which is no shorthand, and what is written after it. -/
structure Named (ctx : Context) (item : FetchItem) (word : String) (L : Language Sent) : Prop where
  isKeyword : Octet.IsKeyword word
  not_shorthand : FetchShorthand.ofKeyword word = none
  ends : ∀ u ∈ L, ∀ s, Delimited s → Stops Octet.isKeywordChar (octets u ++ s)
  reads : Decoder.Reads (decodeNamed ctx word) L Delimited item

/-- The attributes that a keyword alone stands for. -/
theorem Named.alone {item : FetchItem} {word : String} (hword : Octet.IsKeyword word)
    (hshorthand : FetchShorthand.ofKeyword word = none)
    (hread : Decoder.Reads (decodeNamed ctx word) 1 Delimited item) : Named ctx item word 1 where
  isKeyword := hword
  not_shorthand := hshorthand
  ends _ hu _ hs := (Decoder.delimited_of_mem_one hu hs).stops rfl rfl rfl
  reads := hread

theorem decodeNamed_body_reads : Decoder.Reads (decodeNamed ctx "BODY") 1 Delimited body := by
  change Decoder.Reads (Decoder.nextIs Octet.lbracket >>= _) 1 Delimited body
  refine Decoder.Reads.ifNotNext (fun t ht s hs => ?_) (.pure _)
  obtain rfl := (Language.mem_one t).1 ht
  exact hs.stops rfl rfl rfl

theorem starts_bracketed (limit : Nat) (e : BodyElement) :
    Starts (· = Octet.lbracket) (e.bracketed limit) :=
  (Written.starts_octets _ _).mul _

theorem stops_bracketed {limit : Nat} {e : BodyElement} {u : List Sent}
    (hu : u ∈ e.bracketed limit) (s : List UInt8) : Stops Octet.isKeywordChar (octets u ++ s) := by
  refine ((starts_bracketed limit e).imp ?_).of_head hu s
  rintro _ rfl
  rfl

theorem exists_named_element (hctx : ctx.charset.ReadsAscii) {e : BodyElement} {t : List Sent}
    (ht : t ∈ e.written ctx.maxLiteral) :
    ∃ word L, Named ctx (element e) word L ∧ t ∈ Written.keyword word * L := by
  have hread := BodyElement.decode_reads hctx e
  have halone : ∀ {word : String} {e' : BodyElement}, Octet.IsKeyword word →
      FetchShorthand.ofKeyword word = none →
      Decoder.Reads (decodeNamed ctx word) 1 Delimited (element e') →
      t ∈ Written.provided (e = e') (Written.keyword word) →
      ∃ word L, Named ctx (element e) word L ∧ t ∈ Written.keyword word * L := by
    rintro word e' hword hshorthand hread ⟨rfl, ht⟩
    exact ⟨word, 1, .alone hword hshorthand hread, by rwa [mul_one]⟩
  rw [BodyElement.written] at ht
  cases hname : e.name with
  | body =>
    rw [hname] at ht hread
    refine ⟨"BODY", _, ⟨by decide, by decide, fun u hu s _ => stops_bracketed hu s, ?_⟩, ht⟩
    change Decoder.Reads (Decoder.nextIs Octet.lbracket >>= _) _ Delimited _
    exact Decoder.Reads.ifNext (starts_bracketed _ e) (hread.map FetchItem.element)
  | bodyPeek =>
    rw [hname] at ht hread
    exact ⟨"BODY.PEEK", _, ⟨by decide, by decide, fun u hu s _ => stops_bracketed hu s,
      hread.map FetchItem.element⟩, ht⟩
  | rfc822 =>
    rw [hname] at ht
    exact halone (by decide) (by decide) (.pure _) ht
  | rfc822Header =>
    rw [hname] at ht
    exact halone (by decide) (by decide) (.pure _) ht
  | rfc822Text =>
    rw [hname] at ht
    exact halone (by decide) (by decide) (.pure _) ht

theorem exists_named (hctx : ctx.charset.ReadsAscii) {item : FetchItem} {t : List Sent}
    (ht : t ∈ item.written ctx.maxLiteral) :
    ∃ word L, Named ctx item word L ∧ t ∈ Written.keyword word * L := by
  have halone : ∀ {word : String}, Octet.IsKeyword word → FetchShorthand.ofKeyword word = none →
      Decoder.Reads (decodeNamed ctx word) 1 Delimited item → t ∈ Written.keyword word →
      ∃ word L, Named ctx item word L ∧ t ∈ Written.keyword word * L := by
    intro word hword hshorthand hread ht
    exact ⟨word, 1, .alone hword hshorthand hread, by rwa [mul_one]⟩
  cases item with
  | envelope => exact halone (by decide) (by decide) (.pure _) ht
  | flags => exact halone (by decide) (by decide) (.pure _) ht
  | internalDate => exact halone (by decide) (by decide) (.pure _) ht
  | size => exact halone (by decide) (by decide) (.pure _) ht
  | body => exact halone (by decide) (by decide) decodeNamed_body_reads ht
  | bodyStructure => exact halone (by decide) (by decide) (.pure _) ht
  | uid => exact halone (by decide) (by decide) (.pure _) ht
  | element e => exact exists_named_element hctx ht

theorem decode_reads (hctx : ctx.charset.ReadsAscii) (item : FetchItem) :
    Decoder.Reads (decode ctx) (item.written ctx.maxLiteral) Delimited item := by
  intro t ht
  obtain ⟨word, L, hnamed, ht⟩ := exists_named hctx ht
  exact (Decoder.keyword_reads hnamed.isKeyword).bind hnamed.reads hnamed.ends t ht

end FetchItem

/-! ### All attributes -/

namespace FetchData

/-- What is asked for by attributes in a list, or by `UID` in front of the command. -/
structure AskedBy (d : FetchData) (byUid : Bool) (items : List FetchItem) : Prop where
  flags : d.flags = true ↔ .flags ∈ items
  envelope : d.envelope = true ↔ .envelope ∈ items
  body : d.body = true ↔ .body ∈ items
  bodyStructure : d.bodyStructure = true ↔ .bodyStructure ∈ items
  internalDate : d.internalDate = true ↔ .internalDate ∈ items
  size : d.size = true ↔ .size ∈ items
  uid : d.uid = true ↔ byUid = true ∨ .uid ∈ items
  elements : d.elements = items.filterMap fun
    | .element e => some e
    | _ => none

/-- One more attribute is asked for by one more element. -/
theorem AskedBy.add {d : FetchData} {byUid : Bool} {items : List FetchItem}
    (h : d.AskedBy byUid items)
    (item : FetchItem) : (d.add item).AskedBy byUid (items ++ [item]) := by
  obtain ⟨hflags, henvelope, hbody, hstructure, hdate, hsize, huid, helements⟩ := h
  cases item <;> constructor <;> simp_all [FetchData.add]

/-- The attributes of a list are asked for by its elements. -/
theorem ofItems_askedBy (items : List FetchItem) : (ofItems items).AskedBy false items := by
  induction items using List.reverseRecOn with
  | nil => constructor <;> simp [ofItems]
  | append_singleton items item ih =>
    have happend : ofItems (items ++ [item]) = (ofItems items).add item := List.foldl_append
    rw [happend]
    exact ih.add item

/-- What is asked for is determined by the elements. -/
theorem AskedBy.eq_ofItems {d : FetchData} {byUid : Bool} {items : List FetchItem}
    (h : d.AskedBy byUid items) :
    { ofItems items with uid := (ofItems items).uid || byUid } = d := by
  have hitems := ofItems_askedBy items
  have huid : ((ofItems items).uid || byUid) = d.uid := by
    rw [Bool.eq_iff_iff, h.uid, Bool.or_eq_true, hitems.uid]
    simp [or_comm]
  have hflags := Bool.eq_iff_iff.2 (hitems.flags.trans h.flags.symm)
  have henvelope := Bool.eq_iff_iff.2 (hitems.envelope.trans h.envelope.symm)
  have hbody := Bool.eq_iff_iff.2 (hitems.body.trans h.body.symm)
  have hstructure := Bool.eq_iff_iff.2 (hitems.bodyStructure.trans h.bodyStructure.symm)
  have hdate := Bool.eq_iff_iff.2 (hitems.internalDate.trans h.internalDate.symm)
  have hsize := Bool.eq_iff_iff.2 (hitems.size.trans h.size.symm)
  have helements := hitems.elements.trans h.elements.symm
  dsimp only
  rw [hflags, henvelope, hbody, hstructure, hdate, hsize, huid, helements]

end FetchData

/-- A word and the list of attributes that it abbreviates. -/
inductive FetchShorthand.Abbreviates : FetchShorthand → String → List FetchItem → Prop
  | fast : Abbreviates .fast "FAST" [.flags, .internalDate, .size]
  | all : Abbreviates .all "ALL" [.flags, .internalDate, .size, .envelope]
  | full : Abbreviates .full "FULL" [.flags, .internalDate, .size, .envelope, .body]

namespace FetchShorthand

variable {shorthand : FetchShorthand} {word : String} {items : List FetchItem}

theorem Abbreviates.isKeyword (h : Abbreviates shorthand word items) : Octet.IsKeyword word := by
  cases h <;> decide

theorem Abbreviates.ofKeyword_eq (h : Abbreviates shorthand word items) :
    ofKeyword word = some shorthand := by
  cases h <;> rfl

/-- The switches that a shorthand sets are those that its list sets one by one. -/
theorem Abbreviates.expand_eq (h : Abbreviates shorthand word items) :
    shorthand.expand = FetchData.ofItems items := by
  cases h <;> rfl

theorem abbreviates_of_ofKeyword (h : ofKeyword word = some shorthand) :
    ∃ items, Abbreviates shorthand word items := by
  obtain rfl : shorthand.toText = word := by simpa using List.find?_some h
  cases shorthand with
  | fast => exact ⟨_, .fast⟩
  | all => exact ⟨_, .all⟩
  | full => exact ⟨_, .full⟩

end FetchShorthand

namespace FetchData

/-- The renderings of all attributes: one, a list in parentheses, or a shorthand. -/
def written (limit : Nat) (byUid : Bool) (d : FetchData) : Language Sent :=
  fun t => (∃ item, d.AskedBy byUid [item] ∧ t ∈ item.written limit) ∨
    (∃ items, d.AskedBy byUid items.toList ∧ t ∈ Written.inParens (FetchItem.written limit) items) ∨
    ∃ shorthand word items, FetchShorthand.Abbreviates shorthand word items ∧
      d.AskedBy byUid items ∧ t ∈ Written.keyword word

variable {ctx : Context}

theorem starts_written_item (hctx : ctx.charset.ReadsAscii) (item : FetchItem) :
    Starts (· ≠ Octet.lparen) (item.written ctx.maxLiteral) := by
  intro t ht
  obtain ⟨word, L, hnamed, ht⟩ := FetchItem.exists_named hctx ht
  have hstarts : Starts (· ≠ Octet.lparen) (Written.keyword word * L) := by
    refine Starts.mul ((Decoder.starts_keywordChar hnamed.isKeyword).imp ?_) L
    rintro b hb rfl
    exact absurd hb (by decide)
  exact hstarts t ht

/-- The attributes after their first keyword, which is not in a list. -/
def decodeUnlisted (ctx : Context) : Decoder FetchData := do
  let word ← Decoder.keyword
  match FetchShorthand.ofKeyword word with
  | some shorthand => return shorthand.expand
  | none => return ofItems [← FetchItem.decodeNamed ctx word]

theorem decodeUnlisted_of_item (hctx : ctx.charset.ReadsAscii) (item : FetchItem) :
    Decoder.Reads (decodeUnlisted ctx) (item.written ctx.maxLiteral) Delimited
      (ofItems [item]) := by
  intro t ht
  obtain ⟨word, L, hnamed, ht⟩ := FetchItem.exists_named hctx ht
  have hread : Decoder.Reads (decodeUnlisted ctx) (Written.keyword word * L) Delimited
      (ofItems [item]) := by
    refine (Decoder.keyword_reads hnamed.isKeyword).bind ?_ hnamed.ends
    rw [hnamed.not_shorthand]
    exact hnamed.reads.map fun item => ofItems [item]
  exact hread t ht

theorem decodeUnlisted_of_abbreviates {shorthand : FetchShorthand} {word : String}
    {items : List FetchItem} (h : FetchShorthand.Abbreviates shorthand word items) :
    Decoder.Reads (decodeUnlisted ctx) (Written.keyword word) Delimited (ofItems items) := by
  refine Decoder.Reads.finish ((Decoder.keyword_reads h.isKeyword).imp
    fun s hs => hs.stops rfl rfl rfl) ?_
  rw [h.ofKeyword_eq, ← h.expand_eq]

theorem decode_of_unlisted {L : Language Sent} {d : FetchData} (hL : Starts (· ≠ Octet.lparen) L)
    (h : Decoder.Reads (decodeUnlisted ctx) L Delimited d) :
    Decoder.Reads (decode ctx) L Delimited d := by
  refine Decoder.Reads.look hL fun b hb => ?_
  rw [if_neg (by simpa using hb)]
  exact h

/-- Every rendering is read as elements that ask for just these attributes. -/
theorem decode_reads (hctx : ctx.charset.ReadsAscii) {byUid : Bool} {d : FetchData} {t : List Sent}
    (ht : t ∈ d.written ctx.maxLiteral byUid) :
    ∃ data : FetchData, { data with uid := data.uid || byUid } = d ∧
      Decoder.Reads (decode ctx) {t} Delimited data := by
  have hsingle : ∀ {L : Language Sent} {data : FetchData}, t ∈ L →
      Decoder.Reads (decode ctx) L Delimited data →
        Decoder.Reads (decode ctx) {t} Delimited data := by
    rintro L data ht hread _ rfl
    exact hread _ ht
  rcases ht with ⟨item, hasked, ht⟩ | ⟨items, hasked, ht⟩ |
    ⟨shorthand, word, items, habbreviates, hasked, ht⟩
  · exact ⟨_, hasked.eq_ofItems, hsingle ht (decode_of_unlisted (starts_written_item hctx item)
      (decodeUnlisted_of_item hctx item))⟩
  · refine ⟨_, hasked.eq_ofItems, hsingle ht ?_⟩
    refine Decoder.Reads.look ((Written.starts_octets _ _).mul _) ?_
    rintro _ rfl
    refine (Decoder.consume_reads _).andThen (Decoder.Reads.anywhere ?_)
    exact (Decoder.oneOrMore_reads (FetchItem.decode_inline ctx).forward items fun item _ =>
      FetchItem.decode_reads hctx item).map fun items => ofItems items.toList
  · refine ⟨_, hasked.eq_ofItems, hsingle ht (decode_of_unlisted ?_
      (decodeUnlisted_of_abbreviates habbreviates))⟩
    refine (Decoder.starts_keywordChar habbreviates.isKeyword).imp ?_
    rintro b hb rfl
    exact absurd hb (by decide)

end FetchData

/-! ### What can be rendered -/

namespace BodyElement

/-- A section with its numbers in 32 bits, its field names exactly where it has them, and a part
where only parts have the section. -/
structure IsSection (limit : Nat) (e : BodyElement) : Prop where
  path : ∀ n ∈ e.path, 1 ≤ n ∧ n ≤ Decimal.maxNumber
  path_ne_nil : e.kind = .mime → e.path ≠ []
  fieldNames : e.fieldNames.isSome = e.kind.hasFieldNames
  names : ∀ names ∈ e.fieldNames, ∀ name ∈ names.toList, Text.Expressible limit name
  run : ∀ run ∈ e.run, run.firstOctet ≤ Decimal.maxNumber ∧ run.octets ≠ 0 ∧
    run.octets ≤ Decimal.maxNumber

/-- A part of the content that a request can ask for. -/
def Expressible (limit : Nat) (e : BodyElement) : Prop :=
  match e.name with
  | .body | .bodyPeek => e.IsSection limit
  | .rfc822 => e = whole .rfc822 .content
  | .rfc822Header => e = whole .rfc822Header .header
  | .rfc822Text => e = whole .rfc822Text .text

variable {limit : Nat} {e : BodyElement}

theorem IsSection.exists_mem_token (h : e.IsSection limit) :
    ∃ bs, bs ∈ SectionKind.token e.path e.kind := by
  have hspelled : ∀ kind, ∃ bs, bs ∈ SectionKind.spelled kind := fun kind => ⟨_, rfl⟩
  cases hpath : e.path with
  | nil =>
    cases hkind : e.kind with
    | mime => exact absurd hpath (h.path_ne_nil hkind)
    | _ => exact hspelled _
  | cons n ns =>
    obtain ⟨as, has⟩ := SectionKind.exists_mem_path (List.cons_ne_nil n ns) (hpath ▸ h.path)
    cases e.kind with
    | content => exact ⟨as, has⟩
    | _ =>
      exact ⟨_, Language.append_mem_mul has (Language.append_mem_mul rfl (hspelled _).choose_spec)⟩

theorem IsSection.possible (h : e.IsSection limit) : Possible (bracketed limit e) := by
  have hfields : Possible (fieldList limit e.kind e.fieldNames) := by
    have hsome := h.fieldNames
    cases hnames : e.fieldNames with
    | none =>
      rw [hnames] at hsome
      exact .provided hsome.symm .one
    | some names =>
      rw [hnames] at hsome
      exact .provided hsome.symm (Possible.sp.mul (.inParens names fun name hname =>
        .wordOrString (h.names names hnames name hname)))
  have hrun : Possible (octetRun e.run) := by
    cases hrun : e.run with
    | none => exact .one
    | some run =>
      obtain ⟨hfirst, hne, hoctets⟩ := h.run run hrun
      exact .provided hne ((Possible.octets _).mul ((Possible.number hfirst).mul
        ((Possible.octets _).mul ((Possible.number hoctets).mul (.octets _)))))
  obtain ⟨bs, hbs⟩ := h.exists_mem_token
  have htoken : Possible (Written.token (SectionKind.token e.path e.kind)) := ⟨_, bs, hbs, rfl⟩
  exact (Possible.octets _).mul (htoken.mul (hfields.mul ((Possible.octets _).mul hrun)))

theorem possible_written (h : e.Expressible limit) : Possible (e.written limit) := by
  rw [Expressible] at h
  rw [written]
  cases hname : e.name with
  | body =>
    rw [hname] at h
    exact (Possible.keyword _).mul h.possible
  | bodyPeek =>
    rw [hname] at h
    exact (Possible.keyword _).mul h.possible
  | rfc822 =>
    rw [hname] at h
    exact .provided h (.keyword _)
  | rfc822Header =>
    rw [hname] at h
    exact .provided h (.keyword _)
  | rfc822Text =>
    rw [hname] at h
    exact .provided h (.keyword _)

end BodyElement

namespace FetchData

/-- The attributes as a list. -/
def items (d : FetchData) : List FetchItem :=
  (if d.flags then [FetchItem.flags] else []) ++
    (if d.envelope then [FetchItem.envelope] else []) ++
    (if d.body then [FetchItem.body] else []) ++
    (if d.bodyStructure then [FetchItem.bodyStructure] else []) ++
    (if d.internalDate then [FetchItem.internalDate] else []) ++
    (if d.size then [FetchItem.size] else []) ++ (if d.uid then [FetchItem.uid] else []) ++
    d.elements.map FetchItem.element

/-- Something is asked for, by `UID` in front of the command also the unique identifier, and all
parts of the content can be rendered. -/
def Expressible (limit : Nat) (byUid : Bool) (d : FetchData) : Prop :=
  d.isEmpty = false ∧ (byUid = true → d.uid = true) ∧ ∀ e ∈ d.elements, e.Expressible limit

theorem items_askedBy {byUid : Bool} {d : FetchData} (h : byUid = true → d.uid = true) :
    d.AskedBy byUid d.items where
  flags := by simp [items]
  envelope := by simp [items]
  body := by simp [items]
  bodyStructure := by simp [items]
  internalDate := by simp [items]
  size := by simp [items]
  uid := by simpa [items] using h
  elements := by
    have hmap : ∀ es : List BodyElement, (es.map FetchItem.element).filterMap (fun
        | .element e => some e
        | _ => none) = es := by
      intro es
      rw [List.filterMap_map]
      exact List.filterMap_some
    simp only [items, List.filterMap_append, hmap, apply_ite (List.filterMap _),
      List.filterMap_cons, List.filterMap_nil, ite_self, List.nil_append]

theorem items_ne_nil {d : FetchData} (h : d.isEmpty = false) : d.items ≠ [] := by
  intro hitems
  have hasked := @items_askedBy false d (by simp)
  have heq := hasked.eq_ofItems
  rw [hitems] at heq
  rw [← heq] at h
  exact absurd h (by decide)

theorem possible_written {limit : Nat} {byUid : Bool} {d : FetchData}
    (h : d.Expressible limit byUid) : Possible (d.written limit byUid) := by
  obtain ⟨hempty, huid, helements⟩ := h
  have hitems : ∀ item ∈ d.items, Possible (item.written limit) := by
    intro item hitem
    cases item with
    | element e =>
      have he : e ∈ d.elements := by simpa [items] using hitem
      exact BodyElement.possible_written (helements e he)
    | _ => exact .keyword _
  -- As a list in parentheses.
  obtain ⟨item, rest, heq⟩ := List.exists_cons_of_ne_nil (items_ne_nil hempty)
  have hasked := items_askedBy huid
  rw [heq] at hitems hasked
  obtain ⟨t, ht⟩ := Possible.inParens ⟨item, rest⟩ hitems
  exact ⟨t, Or.inr (Or.inl ⟨⟨item, rest⟩, hasked, ht⟩)⟩

end FetchData

end ImapRequest
