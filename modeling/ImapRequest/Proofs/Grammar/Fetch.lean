import ImapRequest.Proofs.Grammar.Sections

/-!
# The grammar of what a FETCH command asks for

```
fetch = attribute / "(" attribute *(SP attribute) ")" / "ALL" / "FAST" / "FULL"
attribute = "ENVELOPE" / "FLAGS" / ... / "BODY" / "BODY" element / "BODY.PEEK" element
```

Keywords are written in any letter case, and what is behind `BODY` tells an element from the
structure of the content.  The attributes of a list are added up: most are there or not, and
elements stay in order.

* `FetchItem.Spelled`, `FetchData.Spelled` : the octets of attributes, and of all that is asked for;
* `FetchItem.decode_recognizes`, `FetchData.decode_recognizes` : these are what is decoded;
* `FetchData.ofItems_congr` : the order of attributes does not matter, but for that of elements;
* `FetchData.attributes_accumulate` : what a FETCH command asks for, in a list or alone.
-/

namespace ImapRequest

namespace FetchItem

/-! ### Attributes -/

/-- The attributes that a keyword alone stands for. -/
inductive Keyword : FetchItem → String → Prop
  | envelope : Keyword .envelope "ENVELOPE"
  | flags : Keyword .flags "FLAGS"
  | internalDate : Keyword .internalDate "INTERNALDATE"
  | size : Keyword .size "RFC822.SIZE"
  | body : Keyword .body "BODY"
  | bodyStructure : Keyword .bodyStructure "BODYSTRUCTURE"
  | uid : Keyword .uid "UID"
  | rfc822 : Keyword (.element (.whole .rfc822 .content)) "RFC822"
  | rfc822Header : Keyword (.element (.whole .rfc822Header .header)) "RFC822.HEADER"
  | rfc822Text : Keyword (.element (.whole .rfc822Text .text)) "RFC822.TEXT"

/-- The octets of an attribute: a keyword, or a keyword and a part of the content. -/
inductive Spelled (ctx : Context) : List UInt8 → FetchItem → Prop
  | keyword {u : List UInt8} {item : FetchItem} {word : String} (hitem : Keyword item word)
    (hu : Octet.sameLetters u (Octet.ofText word) = true) : Spelled ctx u item
  | element {u v : List UInt8} {name : BodyName} {e : BodyElement}
    (hname : name = .body ∨ name = .bodyPeek)
    (hu : Octet.sameLetters u (Octet.ofText name.toText) = true)
    (he : BodyElement.Spelled ctx name v e) : Spelled ctx (u ++ v) (.element e)

/-- The elements of a list are spelled by their octets. -/
def AllSpelled (ctx : Context) (parts : OneOrMore (Part FetchItem)) : Prop :=
  ∀ p ∈ parts.toList, Spelled ctx p.octets p.value

/-- What is behind the keyword of an attribute. -/
inductive Rest (ctx : Context) (word : String) : List UInt8 → FetchItem → Prop
  | nothing {item : FetchItem} (hitem : Keyword item word) : Rest ctx word [] item
  | element {v : List UInt8} {name : BodyName} {e : BodyElement}
    (hname : name = .body ∨ name = .bodyPeek) (hword : name.toText = word)
    (he : BodyElement.Spelled ctx name v e) : Rest ctx word v (.element e)

/-- The octets that an attribute may go on with. -/
def continues (b : UInt8) : Bool :=
  Octet.isKeywordChar b || b == Octet.lbracket || b == Octet.less

variable {ctx : Context} {word : String} {item : FetchItem} {u v w s : List UInt8} {c : Cursor}

/-- What ends an attribute ends its keyword and its element. -/
theorem ends_of_stops (h : Stops continues s) : Stops Octet.isKeywordChar s ∧
    s.head? ≠ some Octet.lbracket ∧ s.head? ≠ some Octet.less := by
  refine ⟨fun b hb => ?_, fun hb => ?_, fun hb => ?_⟩
  · have hno := h b hb
    simp only [continues, Bool.or_eq_false_iff] at hno
    exact hno.1.1
  · exact absurd (h _ hb) (by decide)
  · exact absurd (h _ hb) (by decide)

theorem Keyword.eq_body (h : Keyword item "BODY") : item = .body := by
  generalize hword : "BODY" = word at h
  cases h with
  | body => rfl
  | _ => exact absurd hword (by decide)

theorem Keyword.isKeyword (h : Keyword item word) : Octet.IsKeyword word := by
  cases h <;> decide

theorem Rest.isKeyword (h : Rest ctx word v item) : Octet.IsKeyword word := by
  cases h with
  | nothing hitem => exact hitem.isKeyword
  | element hname hword =>
    subst hword
    rcases hname with rfl | rfl <;> decide

theorem exists_cons_of_element {name : BodyName} {e : BodyElement}
    (h : BodyElement.Spelled ctx name v e) : ∃ t, v = Octet.lbracket :: t := by
  obtain ⟨-, token, fields, run, -, -, -, rfl⟩ := h
  exact ⟨_, rfl⟩

theorem Rest.stops (h : Rest ctx word v item) (hs : Stops continues s) :
    Stops Octet.isKeywordChar (v ++ s) := by
  cases h with
  | nothing => exact (ends_of_stops hs).1
  | element _ _ he =>
    obtain ⟨t, rfl⟩ := exists_cons_of_element he
    exact .cons rfl _

theorem keyword_of_lookup (h : named.lookup word = some item) : Keyword item word := by
  obtain ⟨before, after, hnamed, -⟩ := List.lookup_eq_some_iff.1 h
  have hmem : (word, item) ∈ named := by simp [hnamed]
  simp only [named, List.mem_cons, Prod.mk.injEq, List.not_mem_nil, or_false] at hmem
  rcases hmem with ⟨rfl, rfl⟩ | ⟨rfl, rfl⟩ | ⟨rfl, rfl⟩ | ⟨rfl, rfl⟩ | ⟨rfl, rfl⟩ | ⟨rfl, rfl⟩ |
    ⟨rfl, rfl⟩ | ⟨rfl, rfl⟩ | ⟨rfl, rfl⟩ <;> constructor

/-- The table has all attributes with a keyword but `BODY`, behind which an element may stand. -/
theorem lookup_of_keyword (h : Keyword item word) (hbody : word ≠ "BODY") :
    named.lookup word = some item := by
  cases h with
  | body => exact absurd rfl hbody
  | _ => rfl

theorem lookup_of_element {name : BodyName} (h : name = .body ∨ name = .bodyPeek) :
    named.lookup name.toText = none := by
  rcases h with rfl | rfl <;> rfl

theorem decodeElement_recognizes (ctx : Context) (name : BodyName) :
    Decoder.Recognizes (do return FetchItem.element (← BodyElement.decode ctx name))
      (fun v item => ∃ e, BodyElement.Spelled ctx name v e ∧ item = .element e)
      (Stops continues) :=
  ((BodyElement.decode_recognizes ctx name).imp fun _ hs => (ends_of_stops hs).2.2).map _

theorem decodeNamed_body (ctx : Context) (hc : c.Steady) : decodeNamed ctx "BODY" c =
    if c.rest.head? = some Octet.lbracket then
      (do return FetchItem.element (← BodyElement.decode ctx .body)) c
    else (.ok .body, c) := by
  change (Decoder.nextIs Octet.lbracket >>= _) c = _
  rw [Decoder.bind_of_ok (Decoder.nextIs_apply hc _)]
  by_cases hbracket : c.rest.head? = some Octet.lbracket
  · rw [if_pos (by simp [hbracket]), if_pos hbracket]
  · rw [if_neg (by simpa using hbracket), if_neg hbracket]
    rfl

/-- Behind `BODY` a bracket opens an element, and nothing else does. -/
theorem decodeNamed_body_recognizes (ctx : Context) :
    Decoder.Recognizes (decodeNamed ctx "BODY") (Rest ctx "BODY") (Stops continues) := by
  intro c
  constructor
  · intro item e hc hrun
    rw [decodeNamed_body ctx hc] at hrun
    split_ifs at hrun
    · obtain ⟨v, ⟨e, he, rfl⟩, hreaches⟩ := (decodeElement_recognizes ctx .body c).sound hc hrun
      exact ⟨v, .element (Or.inl rfl) rfl he, hreaches⟩
    · obtain ⟨rfl, rfl⟩ : FetchItem.body = item ∧ c = e := by simpa using hrun
      exact ⟨[], .nothing .body, .refl c⟩
  · intro v s item hc hv hs hrest
    rw [decodeNamed_body ctx hc.steady]
    cases hv with
    | nothing hitem =>
      obtain rfl := hitem.eq_body
      have hbracket : c.rest.head? ≠ some Octet.lbracket := by
        rw [hrest]
        exact (ends_of_stops hs).2.1
      rw [if_neg hbracket]
      exact ⟨c, rfl, .refl c, hc⟩
    | @element v name e hname hword he =>
      obtain rfl : name = .body :=
        hname.resolve_right (by rintro rfl; exact absurd hword (by decide))
      obtain ⟨t, rfl⟩ := exists_cons_of_element he
      rw [if_pos (by rw [hrest]; rfl)]
      exact (decodeElement_recognizes ctx .body c).complete hc ⟨e, he, rfl⟩ hs hrest

theorem decodeNamed_recognizes (ctx : Context) (word : String) :
    Decoder.Recognizes (decodeNamed ctx word) (Rest ctx word) (Stops continues) := by
  by_cases hbody : word = "BODY"
  · subst hbody
    exact decodeNamed_body_recognizes ctx
  intro c
  rw [decodeNamed]
  split
  · rename_i item hlookup
    refine (Decoder.RecognizesAt.pure item).congr fun v s item' _ => ?_
    constructor
    · rintro ⟨rfl, rfl⟩
      exact .nothing (keyword_of_lookup hlookup)
    · rintro (hitem | ⟨hname, rfl, -⟩)
      · exact ⟨rfl, Option.some.inj ((lookup_of_keyword hitem hbody).symm.trans hlookup)⟩
      · simp [lookup_of_element hname] at hlookup
  · rename_i hlookup
    rw [if_neg hbody]
    have hitem : ∀ item, ¬ Keyword item word := by
      intro item h
      simp [lookup_of_keyword h hbody] at hlookup
    split
    · rename_i hpeek
      refine (decodeElement_recognizes ctx .bodyPeek c).congr fun v s item _ => ?_
      constructor
      · rintro ⟨e, he, rfl⟩
        exact .element (Or.inr rfl) hpeek.symm he
      · rintro (h | ⟨rfl | rfl, hword, he⟩)
        · exact absurd h (hitem _)
        · exact absurd hword.symm hbody
        · exact ⟨_, he, rfl⟩
    · rename_i hpeek
      refine .reject ?_
      rintro v item (h | ⟨rfl | rfl, hword, -⟩)
      · exact hitem _ h
      · exact hbody hword.symm
      · exact hpeek hword.symm

/-- Attributes by their keyword. -/
theorem spelled_iff : Spelled ctx w item ↔ ∃ u word v,
    Octet.sameLetters u (Octet.ofText word) = true ∧ Rest ctx word v item ∧ w = u ++ v := by
  constructor
  · rintro (⟨hitem, hu⟩ | ⟨hname, hu, he⟩)
    · exact ⟨w, _, [], hu, .nothing hitem, (List.append_nil w).symm⟩
    · exact ⟨_, _, _, hu, .element hname rfl he, rfl⟩
  · rintro ⟨u, _, v, hu, hitem | ⟨hname, rfl, he⟩, rfl⟩
    · rw [List.append_nil]
      exact .keyword hitem hu
    · exact .element hname hu he

theorem decode_recognizes (ctx : Context) :
    Decoder.Recognizes (decode ctx) (Spelled ctx) (Stops continues) :=
  (Decoder.named_recognizes (decodeNamed_recognizes ctx) (fun _ _ _ h => h.isKeyword)
    fun _ _ _ _ h hs => h.stops hs).congr fun _ _ => spelled_iff.symm

/-- Attributes start with an octet of a keyword. -/
theorem Spelled.exists_cons (h : Spelled ctx w item) :
    ∃ b v, w = b :: v ∧ Octet.isKeywordChar b = true := by
  obtain ⟨u, word, v, hu, hrest, rfl⟩ := spelled_iff.1 h
  obtain ⟨hne, hall, -⟩ := Decoder.spelling_of_keyword hrest.isKeyword (beq_iff_eq.1 hu)
  obtain ⟨b, u, rfl⟩ := List.exists_cons_of_ne_nil hne
  exact ⟨b, u ++ v, rfl, List.all_eq_true.1 hall b (List.mem_cons_self ..)⟩

/-- A shorthand is refused where an attribute has to be. -/
theorem decode_refuses_shorthand (ctx : Context) {shorthand : FetchShorthand}
    {items : List FetchItem} (h : FetchShorthand.Abbreviates shorthand word items) :
    Decoder.Refuses (decode ctx) (fun u => Octet.sameLetters u (Octet.ofText word) = true)
      (Stops Octet.isKeywordChar) (.rejected (.unknownFetchItem word)) := by
  intro c u s hc hu hs hrest
  have hkeyword := Decoder.keyword_of_sameLetters h.isKeyword hu hs hc.steady hrest
  refine ⟨c.advance u.length, ?_⟩
  rw [decode, Decoder.bind_of_ok hkeyword]
  cases h <;> rfl

/-- The part of the content that an attribute asks for. -/
def element? : FetchItem → Option BodyElement
  | element e => some e
  | _ => none

end FetchItem

namespace FetchData

/-! ### What is asked for -/

/-- The octets of attributes in a list, which may be asked for more than once. -/
def inParens (parts : OneOrMore (Part FetchItem)) : List UInt8 :=
  Octet.lparen :: (Part.joined parts ++ [Octet.rparen])

/-- The octets of attributes that are in no list: a single one, or a shorthand. -/
inductive Unlisted (ctx : Context) : List UInt8 → List FetchItem → Prop
  | single {w : List UInt8} {item : FetchItem} (hitem : FetchItem.Spelled ctx w item) :
    Unlisted ctx w [item]
  | shorthand {u : List UInt8} {shorthand : FetchShorthand} {word : String}
    {items : List FetchItem} (habbreviates : FetchShorthand.Abbreviates shorthand word items)
    (hu : Octet.sameLetters u (Octet.ofText word) = true) : Unlisted ctx u items

/-- The octets of all that is asked for, and the attributes in their order. -/
inductive Spelled (ctx : Context) : List UInt8 → List FetchItem → Prop
  | listed {parts : OneOrMore (Part FetchItem)}
    (hparts : FetchItem.AllSpelled ctx parts) :
    Spelled ctx (inParens parts) (Part.values parts)
  | alone {w : List UInt8} {items : List FetchItem} (h : Unlisted ctx w items) : Spelled ctx w items

variable {ctx : Context} {c : Cursor} {b : UInt8} {u w s : List UInt8}
  {items items' : List FetchItem}
  {d : FetchData}

theorem Unlisted.exists_cons (h : Unlisted ctx w items) :
    ∃ b v, w = b :: v ∧ Octet.isKeywordChar b = true := by
  cases h with
  | single hitem => exact hitem.exists_cons
  | shorthand habbreviates hu =>
    obtain ⟨hne, hall, -⟩ := Decoder.spelling_of_keyword habbreviates.isKeyword (beq_iff_eq.1 hu)
    obtain ⟨b, v, rfl⟩ := List.exists_cons_of_ne_nil hne
    exact ⟨b, v, rfl, List.all_eq_true.1 hall b (List.mem_cons_self ..)⟩

theorem Spelled.ne_nil (h : Spelled ctx w items) : w ≠ [] := by
  cases h with
  | listed => exact List.cons_ne_nil _ _
  | alone h =>
    obtain ⟨b, v, rfl, -⟩ := h.exists_cons
    exact List.cons_ne_nil b v

theorem Spelled.items_ne_nil (h : Spelled ctx w items) : items ≠ [] := by
  rcases h with h | ⟨h | ⟨habbreviates, -⟩⟩
  · exact List.cons_ne_nil _ _
  · exact List.cons_ne_nil _ _
  · cases habbreviates <;> exact List.cons_ne_nil _ _

/-! ### Attributes are added up -/

/-- What is asked for does not depend on the order of the attributes or on how often they stand
there, but for the elements. -/
theorem ofItems_congr (hmem : ∀ item, item ∈ items ↔ item ∈ items')
    (helements : items.filterMap FetchItem.element? = items'.filterMap FetchItem.element?) :
    ofItems items = ofItems items' := by
  obtain ⟨hflags, henvelope, hbody, hstructure, hdate, hsize, huid, hasked⟩ := ofItems_askedBy items
  have hasked' : (ofItems items).AskedBy false items' := by
    constructor
    case elements => exact hasked.trans helements
    all_goals rw [← hmem]; assumption
  simpa using hasked'.eq_ofItems.symm

theorem AskedBy.isEmpty_eq_false {byUid : Bool} (h : d.AskedBy byUid items) (hne : items ≠ []) :
    d.isEmpty = false := by
  refine Bool.eq_false_iff.2 fun hempty => ?_
  obtain rfl : d = {} := by simpa [isEmpty] using hempty
  obtain ⟨item, items, rfl⟩ := List.exists_cons_of_ne_nil hne
  have hmem := List.mem_cons_self (a := item) (l := items)
  -- An attribute of the list is asked for.
  cases item with
  | envelope => exact absurd (h.envelope.2 hmem) Bool.false_ne_true
  | flags => exact absurd (h.flags.2 hmem) Bool.false_ne_true
  | internalDate => exact absurd (h.internalDate.2 hmem) Bool.false_ne_true
  | size => exact absurd (h.size.2 hmem) Bool.false_ne_true
  | body => exact absurd (h.body.2 hmem) Bool.false_ne_true
  | bodyStructure => exact absurd (h.bodyStructure.2 hmem) Bool.false_ne_true
  | uid => exact absurd (h.uid.2 (Or.inr hmem)) Bool.false_ne_true
  | element e => exact absurd h.elements (List.cons_ne_nil e _).symm

/-- Messages count as read when an element is asked for by a name that shows them. -/
theorem AskedBy.setsSeen_iff {byUid : Bool} (h : d.AskedBy byUid items) :
    d.setsSeen = true ↔ ∃ e, FetchItem.element e ∈ items ∧
      (e.name = .body ∨ e.name = .rfc822 ∨ e.name = .rfc822Text) := by
  have hname : ∀ name : BodyName, (!name.isPeek) = true ↔
      name = .body ∨ name = .rfc822 ∨ name = .rfc822Text := by
    intro name
    cases name <;> decide
  have hmem : ∀ e, e ∈ d.elements ↔ FetchItem.element e ∈ items := by
    intro e
    rw [h.elements, List.mem_filterMap]
    constructor
    · rintro ⟨item, hitem, he⟩
      cases item with
      | element e' => exact Option.some.inj he ▸ hitem
      | _ => cases he
    · exact fun he => ⟨_, he, rfl⟩
  simp only [setsSeen, List.any_eq_true, hname, hmem]

/-! ### Decoding -/

theorem decode_of_lparen (hc : c.Steady) (hrest : c.rest = Octet.lparen :: s) :
    decode ctx c = (do
      Decoder.expect Octet.lparen
      let items ← Decoder.oneOrMore Decoder.listContinues (FetchItem.decode ctx)
      return ofItems items.toList) c := by
  rw [decode, Decoder.bind_of_ok (Decoder.peek_of_rest hc hrest), if_pos (beq_self_eq_true _),
    Decoder.bind_of_ok (Decoder.consume_of_rest hc hrest),
    Decoder.bind_of_ok (Decoder.expect_of_rest hc hrest)]

theorem decode_of_ne_lparen (hc : c.Steady) (hrest : c.rest = b :: s) (hb : b ≠ Octet.lparen) :
    decode ctx c = decodeUnlisted ctx c := by
  rw [decode, Decoder.bind_of_ok (Decoder.peek_of_rest hc hrest), if_neg (by simpa using hb)]
  rfl

/-- What starts like a keyword starts with no line break. -/
theorem exists_of_keywordChar (h : ∃ b v, w = b :: v ∧ Octet.isKeywordChar b = true) :
    ∃ b ∈ w.head?, Octet.isLineBreak b = false := by
  have hbreak : ∀ b, Octet.isKeywordChar b = true → Octet.isLineBreak b = false :=
    Octet.forall_octet (by decide +kernel)
  obtain ⟨b, v, rfl, hb⟩ := h
  exact ⟨b, rfl, hbreak b hb⟩

theorem decodeList_recognizes (ctx : Context) {F : List UInt8 → Prop} :
    Decoder.Recognizes (do
      Decoder.expect Octet.lparen
      let items ← Decoder.oneOrMore Decoder.listContinues (FetchItem.decode ctx)
      return ofItems items.toList)
      (fun w d => ∃ parts, FetchItem.AllSpelled ctx parts ∧
        d = ofItems (Part.values parts) ∧ w = inParens parts) F := by
  have hitems := Decoder.oneOrMore_recognizes (G := F) (FetchItem.decode_inline ctx).forward
    (FetchItem.decode_recognizes ctx) (fun w item h => exists_of_keywordChar h.exists_cons)
    (Stops.cons rfl) (Stops.cons rfl)
  refine ((hitems.map fun items => ofItems items.toList).behind Octet.lparen).congr fun w d => ?_
  constructor
  · rintro ⟨_, ⟨items, ⟨parts, hparts, hvalues, rfl⟩, rfl⟩, rfl⟩
    exact ⟨parts, hparts, by rw [hvalues], rfl⟩
  · rintro ⟨parts, hparts, rfl, rfl⟩
    exact ⟨_, ⟨⟨parts.head.value, parts.tail.map Part.value⟩, ⟨parts, hparts, rfl, rfl⟩, rfl⟩, rfl⟩

/-- What is behind a keyword that is in no list. -/
inductive UnlistedRest (ctx : Context) : String → List UInt8 → FetchData → Prop
  | single {word : String} {v : List UInt8} {item : FetchItem}
    (hitem : FetchItem.Rest ctx word v item) : UnlistedRest ctx word v (ofItems [item])
  | shorthand {word : String} {shorthand : FetchShorthand} {items : List FetchItem}
    (habbreviates : FetchShorthand.Abbreviates shorthand word items) :
    UnlistedRest ctx word [] shorthand.expand

/-- No attribute has the keyword of a shorthand. -/
theorem ofKeyword_of_rest {word : String} {v : List UInt8} {item : FetchItem}
    (h : FetchItem.Rest ctx word v item) : FetchShorthand.ofKeyword word = none := by
  cases h with
  | nothing hitem => cases hitem <;> rfl
  | element hname hword =>
    subst hword
    rcases hname with rfl | rfl <;> rfl

theorem decodeUnlisted_recognizes (ctx : Context) :
    Decoder.Recognizes (decodeUnlisted ctx)
      (fun w d => ∃ items, Unlisted ctx w items ∧ d = ofItems items)
      (Stops FetchItem.continues) := by
  rw [decodeUnlisted]
  refine (Decoder.named_recognizes (S := UnlistedRest ctx) (fun word => ?_) ?_ ?_).congr
    fun w d => ?_
  · cases hword : FetchShorthand.ofKeyword word with
    | some shorthand =>
      refine fun c => (Decoder.RecognizesAt.pure shorthand.expand).congr fun v s d _ => ?_
      constructor
      · rintro ⟨rfl, rfl⟩
        obtain ⟨items, habbreviates⟩ := FetchShorthand.abbreviates_of_ofKeyword hword
        exact .shorthand habbreviates
      · rintro (hitem | habbreviates)
        · simp [ofKeyword_of_rest hitem] at hword
        · obtain rfl := Option.some.inj (habbreviates.ofKeyword_eq.symm.trans hword)
          exact ⟨rfl, rfl⟩
    | none =>
      refine ((FetchItem.decodeNamed_recognizes ctx word).map fun item => ofItems [item]).congr
        fun v d => ?_
      constructor
      · rintro ⟨item, hitem, rfl⟩
        exact .single hitem
      · rintro (hitem | habbreviates)
        · exact ⟨_, hitem, rfl⟩
        · simp [habbreviates.ofKeyword_eq] at hword
  · rintro word v d (hitem | habbreviates)
    · exact hitem.isKeyword
    · exact habbreviates.isKeyword
  · rintro word v d s (hitem | -) hs
    · exact hitem.stops hs
    · exact (FetchItem.ends_of_stops hs).1
  · constructor
    · rintro ⟨u, word, v, hu, hitem | habbreviates, rfl⟩
      · exact ⟨_, .single (FetchItem.spelled_iff.2 ⟨u, word, v, hu, hitem, rfl⟩), rfl⟩
      · exact ⟨_, .shorthand habbreviates (by rwa [List.append_nil]), habbreviates.expand_eq⟩
    · rintro ⟨_, hitem | ⟨habbreviates, hu⟩, rfl⟩
      · obtain ⟨u, word, v, hu, hrest, rfl⟩ := FetchItem.spelled_iff.1 hitem
        exact ⟨u, word, v, hu, .single hrest, rfl⟩
      · rw [← habbreviates.expand_eq]
        exact ⟨w, _, [], hu, .shorthand habbreviates, (List.append_nil w).symm⟩

theorem decode_recognizes (ctx : Context) :
    Decoder.Recognizes (decode ctx) (fun w d => ∃ items, Spelled ctx w items ∧ d = ofItems items)
      (Stops FetchItem.continues) := by
  intro c
  refine .look (fun w d ⟨items, h, _⟩ => h.ne_nil) fun b s hrest => ?_
  have heq : c.Steady → decode ctx c = _ := fun hc =>
    Decoder.bind_of_ok (Decoder.peek_of_rest hc hrest)
  by_cases hb : b = Octet.lparen
  · subst hb
    refine .of_eq (y := do
      Decoder.expect Octet.lparen
      let items ← Decoder.oneOrMore Decoder.listContinues (FetchItem.decode ctx)
      return ofItems items.toList) ?_ fun hc => (heq hc).symm.trans (decode_of_lparen hc hrest)
    refine (decodeList_recognizes ctx c).congr_cons hrest ?_ (fun w d ⟨items, h, _⟩ => h.ne_nil)
      fun v d => ?_
    · rintro _ _ ⟨parts, -, -, rfl⟩
      exact List.cons_ne_nil _ _
    · constructor
      · rintro ⟨parts, hparts, rfl, hw⟩
        exact ⟨_, hw ▸ .listed hparts, rfl⟩
      · rintro ⟨items, h, rfl⟩
        generalize hw : Octet.lparen :: v = w at h
        rcases h with hparts | h
        · exact ⟨_, hparts, rfl, rfl⟩
        · obtain ⟨b, v, rfl, hb⟩ := h.exists_cons
          obtain rfl := (List.cons.inj hw).1
          exact absurd hb (by decide)
  · refine .of_eq (y := decodeUnlisted ctx) ?_ fun hc =>
      (heq hc).symm.trans (decode_of_ne_lparen hc hrest hb)
    refine (decodeUnlisted_recognizes ctx c).congr_cons hrest ?_ (fun w d ⟨items, h, _⟩ => h.ne_nil)
      fun v d => ?_
    · rintro _ _ ⟨items, h, -⟩
      exact (Spelled.alone h).ne_nil
    · refine exists_congr fun items => and_congr_left' ⟨.alone, fun h => ?_⟩
      generalize hw : b :: v = w at h
      rcases h with - | h
      · exact absurd (List.cons.inj hw).1 hb
      · exact h

/-! ### Lists, single attributes and shorthands -/

theorem gives_inParens {parts : OneOrMore (Part FetchItem)}
    (hparts : FetchItem.AllSpelled ctx parts) :
    Decoder.Gives (decode ctx) (inParens parts) Anything (ofItems (Part.values parts)) := by
  intro c s hc hs hrest
  obtain ⟨e, hrun, hreaches⟩ :=
    (decodeList_recognizes ctx).gives ⟨parts, hparts, rfl, rfl⟩ hc hs hrest
  exact ⟨e, (decode_of_lparen hc.steady hrest).trans hrun, hreaches⟩

/-- What is in no list is read from its keyword. -/
theorem decode_of_keyword {word : String} (hword : Octet.IsKeyword word)
    (hu : Octet.sameLetters u (Octet.ofText word) = true) (hs : Stops Octet.isKeywordChar s)
    (hc : c.Steady) (hrest : c.rest = u ++ s) : decode ctx c = (do
      match FetchShorthand.ofKeyword word with
      | some shorthand => return shorthand.expand
      | none => return ofItems [← FetchItem.decodeNamed ctx word]) (c.advance u.length) := by
  obtain ⟨hne, hall, -⟩ := Decoder.spelling_of_keyword hword (beq_iff_eq.1 hu)
  obtain ⟨b, v, rfl⟩ := List.exists_cons_of_ne_nil hne
  have hb : b ≠ Octet.lparen := by
    rintro rfl
    exact absurd (List.all_eq_true.1 hall _ (List.mem_cons_self ..)) (by decide)
  exact (decode_of_ne_lparen hc hrest hb).trans
    (Decoder.bind_of_ok (Decoder.keyword_of_sameLetters hword hu hs hc hrest))

theorem gives_shorthand {shorthand : FetchShorthand} {word : String}
    (h : FetchShorthand.Abbreviates shorthand word items)
    (hu : Octet.sameLetters u (Octet.ofText word) = true) :
    Decoder.Gives (decode ctx) u (Stops Octet.isKeywordChar) shorthand.expand := by
  intro c s hc hs hrest
  refine ⟨c.advance u.length, ?_, .front hrest⟩
  rw [decode_of_keyword h.isKeyword hu hs hc.steady hrest, h.ofKeyword_eq]
  rfl

/-- A list is refused at a shorthand, whatever stands behind it. -/
theorem decode_refuses_shorthand {shorthand : FetchShorthand} {word : String}
    (h : FetchShorthand.Abbreviates shorthand word items) {before : List (Part FetchItem)}
    (hbefore : ∀ p ∈ before, FetchItem.Spelled ctx p.octets p.value)
    (hu : Octet.sameLetters u (Octet.ofText word) = true) :
    Decoder.Refuses (decode ctx) (· = Octet.lparen :: (Part.leading before ++ u))
      (Stops Octet.isKeywordChar) (.rejected (.unknownFetchItem word)) := by
  rintro c _ s hc rfl hs hrest
  have hstart : ∀ w, Octet.sameLetters w (Octet.ofText word) = true →
      ∃ b ∈ w.head?, Octet.isLineBreak b = false := fun w hw =>
    exists_of_keywordChar (show Unlisted ctx w items from .shorthand h hw).exists_cons
  obtain ⟨e, herror⟩ := Decoder.oneOrMore_refuses Decoder.listContinues_separates
    (FetchItem.decode_inline ctx).forward (FetchItem.decode_recognizes ctx)
    (FetchItem.decode_refuses_shorthand ctx h)
    (fun w item h => exists_of_keywordChar h.exists_cons) hstart (Stops.cons rfl) (hc.advance 1)
    ⟨before, u, hbefore, hu, rfl⟩ hs (Cursor.rest_advance_one hrest)
  refine ⟨e, ?_⟩
  rw [decode_of_lparen hc.steady hrest, Decoder.bind_of_ok (Decoder.expect_of_rest hc.steady hrest),
    Decoder.bind_of_error herror]

/-- What is read behind a keyword `BODY` of `n` octets, in a list or alone, which the octets `s`
follow: an element if they start with a bracket, and the structure of the content if not. -/
structure ReadsBody (ctx : Context) (n : Nat) (s : List UInt8) (c : Cursor) : Prop where
  item_eq : s.head? ≠ some Octet.lbracket →
    FetchItem.decode ctx c = (.ok .body, c.advance n)
  data_eq : s.head? ≠ some Octet.lbracket → decode ctx c = (.ok (ofItems [.body]), c.advance n)
  item_element : s.head? = some Octet.lbracket → ∀ {item e},
    FetchItem.decode ctx c = (.ok item, e) → ∃ part, item = .element part ∧ part.name = .body
  data_element : s.head? = some Octet.lbracket → ∀ {d e},
    decode ctx c = (.ok d, e) → ∃ part, d = ofItems [.element part] ∧ part.name = .body

theorem readsBody (hu : Octet.sameLetters u (Octet.ofText "BODY") = true)
    (hs : Stops Octet.isKeywordChar s) (hc : c.Steady) (hrest : c.rest = u ++ s) :
    ReadsBody ctx u.length s c := by
  have hitem : FetchItem.decode ctx c = FetchItem.decodeNamed ctx "BODY" (c.advance u.length) := by
    rw [FetchItem.decode,
      Decoder.bind_of_ok (Decoder.keyword_of_sameLetters (by decide) hu hs hc hrest)]
  have hdata : decode ctx c =
      (do return ofItems [← FetchItem.decodeNamed ctx "BODY"]) (c.advance u.length) :=
    decode_of_keyword (by decide) hu hs hc hrest
  have hrest' : (c.advance u.length).rest = s := (Cursor.Reaches.front hrest).rest_eq_of hrest
  have hnamed := FetchItem.decodeNamed_body ctx (hc.advance u.length)
  rw [hrest'] at hnamed
  have helement : s.head? = some Octet.lbracket → ∀ {item e},
      FetchItem.decodeNamed ctx "BODY" (c.advance u.length) = (.ok item, e) →
      ∃ part, item = .element part ∧ part.name = .body := by
    intro hbracket item e hrun
    rw [if_pos hbracket] at hnamed
    obtain ⟨v, ⟨part, hpart, rfl⟩, -⟩ := (FetchItem.decodeElement_recognizes ctx .body _).sound
      (hc.advance u.length) (hnamed.symm.trans hrun)
    exact ⟨part, rfl, hpart.1⟩
  constructor
  case item_eq => exact fun hbracket => hitem.trans (hnamed.trans (if_neg hbracket))
  case data_eq =>
    exact fun hbracket => hdata.trans (Decoder.bind_of_ok (hnamed.trans (if_neg hbracket)))
  case item_element => exact fun hbracket _ _ hrun => helement hbracket (hitem.symm.trans hrun)
  case data_element =>
    intro hbracket d e hrun
    obtain ⟨item, hrun', rfl⟩ := Decoder.exists_of_map (hdata.symm.trans hrun)
    obtain ⟨part, rfl, hname⟩ := helement hbracket hrun'
    exact ⟨part, rfl, hname⟩

/-- A source that shows nothing shows no attribute. -/
theorem steady_of_decode {e : Cursor} (h : decode ctx c = (.ok d, e)) : c.Steady :=
  (Decoder.exists_of_look h).1

/-- How the attributes of a FETCH command add up. -/
structure Accumulates (ctx : Context) : Prop where
  /-- By a list each switch is set exactly when its attribute occurs, and the elements are all
  there, in order. -/
  listed : ∀ parts, FetchItem.AllSpelled ctx parts →
    ∃ d, Decoder.Gives (decode ctx) (inParens parts) Anything d ∧
      d.AskedBy false (Part.values parts)
  /-- Nothing of the order matters but the order of the elements. -/
  permuted : ∀ parts parts', FetchItem.AllSpelled ctx parts → FetchItem.AllSpelled ctx parts' →
    (Part.values parts).Perm (Part.values parts') →
    (Part.values parts).filterMap FetchItem.element? =
      (Part.values parts').filterMap FetchItem.element? →
    ∃ d, Decoder.Gives (decode ctx) (inParens parts) Anything d ∧
      Decoder.Gives (decode ctx) (inParens parts') Anything d
  /-- A single attribute is the same without parentheses. -/
  single : ∀ w item, FetchItem.Spelled ctx w item →
    ∃ d, Decoder.Gives (decode ctx) w (Stops FetchItem.continues) d ∧
      Decoder.Gives (decode ctx) (inParens (.single ⟨w, item⟩)) Anything d
  /-- Behind `BODY` a bracket and nothing else makes an element of it. -/
  body : ∀ u s (c : Cursor), Octet.sameLetters u (Octet.ofText "BODY") = true →
    Stops Octet.isKeywordChar s → c.Steady → c.rest = u ++ s → ReadsBody ctx u.length s c
  /-- A shorthand may stand alone. -/
  shorthand : ∀ {shorthand word items}, FetchShorthand.Abbreviates shorthand word items →
    ∀ u, Octet.sameLetters u (Octet.ofText word) = true →
      Decoder.Gives (decode ctx) u (Stops Octet.isKeywordChar) shorthand.expand
  /-- It equals the list that it abbreviates. -/
  abbreviated : ∀ {shorthand word items}, FetchShorthand.Abbreviates shorthand word items →
    ∀ parts, FetchItem.AllSpelled ctx parts → Part.values parts = items →
      Decoder.Gives (decode ctx) (inParens parts) Anything shorthand.expand
  /-- It is part of no list. -/
  refused : ∀ {shorthand word items}, FetchShorthand.Abbreviates shorthand word items →
    ∀ u, Octet.sameLetters u (Octet.ofText word) = true → ∀ before : List (Part FetchItem),
      (∀ p ∈ before, FetchItem.Spelled ctx p.octets p.value) →
      Decoder.Refuses (decode ctx) (· = Octet.lparen :: (Part.leading before ++ u))
        (Stops Octet.isKeywordChar) (.rejected (.unknownFetchItem word))
  /-- Whatever is decoded is spelled so. -/
  spelled : ∀ c d e, decode ctx c = (.ok d, e) →
    ∃ w items, Spelled ctx w items ∧ c.Reaches w e ∧ d.AskedBy false items ∧
      (d.setsSeen = true ↔ ∃ part, FetchItem.element part ∈ items ∧
        (part.name = .body ∨ part.name = .rfc822 ∨ part.name = .rfc822Text))
  /-- Something is asked for. -/
  not_empty : ∀ c d e, decode ctx c = (.ok d, e) → d.isEmpty = false

/-- The attributes of a FETCH command add up, in a list or alone, and a shorthand stands for the
list that it abbreviates. -/
theorem attributes_accumulate (ctx : Context) : Accumulates ctx := by
  have hdecoded : ∀ {c d e}, decode ctx c = (.ok d, e) →
      ∃ w items, Spelled ctx w items ∧ c.Reaches w e ∧ d.AskedBy false items := by
    intro c d e hrun
    obtain ⟨w, ⟨items, hw, rfl⟩, hreaches⟩ :=
      (decode_recognizes ctx c).sound (steady_of_decode hrun) hrun
    exact ⟨w, items, hw, hreaches, ofItems_askedBy items⟩
  constructor
  case listed => exact fun parts hparts => ⟨_, gives_inParens hparts, ofItems_askedBy _⟩
  case permuted =>
    intro parts parts' hparts hparts' hperm helements
    refine ⟨_, gives_inParens hparts, ?_⟩
    rw [ofItems_congr (fun item => hperm.mem_iff) helements]
    exact gives_inParens hparts'
  case single =>
    intro w item hitem
    have hparts : FetchItem.AllSpelled ctx (.single ⟨w, item⟩) := List.forall_mem_singleton.2 hitem
    exact ⟨_, (decode_recognizes ctx).gives ⟨_, .alone (.single hitem), rfl⟩,
      gives_inParens hparts⟩
  case body => exact fun u s c hu hs hc hrest => readsBody hu hs hc hrest
  case shorthand => exact fun h u hu => gives_shorthand h hu
  case abbreviated =>
    rintro shorthand word _ h parts hparts rfl
    rw [h.expand_eq]
    exact gives_inParens hparts
  case refused => exact fun h u hu before hbefore => decode_refuses_shorthand h hbefore hu
  case spelled =>
    intro c d e hrun
    obtain ⟨w, items, hw, hreaches, hasked⟩ := hdecoded hrun
    exact ⟨w, items, hw, hreaches, hasked, hasked.setsSeen_iff⟩
  case not_empty =>
    intro c d e hrun
    obtain ⟨w, items, hw, -, hasked⟩ := hdecoded hrun
    exact hasked.isEmpty_eq_false hw.items_ne_nil

/-- The whole content twice, among switches; the same attributes in another order; a text with and
without parentheses; `BODY` in front of a space and of a bracket; `FAST` alone, its list, and `FAST`
in a list; and what two attributes ask for. -/
theorem attributes_accumulate_mixed :
    (∃ d e, decode {} (Cursor.ofOctets (Octet.ofText "(flags RFC822 Uid rfc822 FLAGS)")) =
      (.ok d, e) ∧
      d.AskedBy false [.flags, .element (.whole .rfc822 .content), .uid,
        .element (.whole .rfc822 .content), .flags] ∧ e.rest = []) ∧
    (∃ d, Decoder.Gives (decode {}) (Octet.ofText "(Uid RFC822)") Anything d ∧
      Decoder.Gives (decode {}) (Octet.ofText "(rfc822 UID)") Anything d) ∧
    (∃ d, Decoder.Gives (decode {}) (Octet.ofText "Rfc822.Text") (Stops FetchItem.continues) d ∧
      Decoder.Gives (decode {}) (Octet.ofText "(Rfc822.Text)") Anything d) ∧
    (∃ e, FetchItem.decode {} (Cursor.ofOctets (Octet.ofText "Body UID)")) = (.ok .body, e)) ∧
    (∀ d e, decode {} (Cursor.ofOctets (Octet.ofText "body[]")) = (.ok d, e) →
      ∃ part, d = ofItems [.element part] ∧ part.name = .body) ∧
    (∃ e, decode {} (Cursor.ofOctets (Octet.ofText "Fast")) = (.ok FetchShorthand.fast.expand, e)) ∧
    (∃ e, decode {} (Cursor.ofOctets (Octet.ofText "(FLAGS INTERNALDATE RFC822.SIZE)")) =
      (.ok FetchShorthand.fast.expand, e)) ∧
    (∃ e, decode {} (Cursor.ofOctets (Octet.ofText "(UID Fast)")) =
      (.error (.rejected (.unknownFetchItem "FAST")), e)) ∧
    ∃ d e items, decode {} (Cursor.ofOctets (Octet.ofText "(UID RFC822)")) = (.ok d, e) ∧
      d.AskedBy false items ∧ d.isEmpty = false ∧ ∃ part, FetchItem.element part ∈ items ∧
        (part.name = .body ∨ part.name = .rfc822 ∨ part.name = .rfc822Text) := by
  have h := attributes_accumulate {}
  have huid : FetchItem.Spelled {} (Octet.ofText "UID") .uid := .keyword .uid (by decide)
  have huid' : FetchItem.Spelled {} (Octet.ofText "Uid") .uid := .keyword .uid (by decide)
  have hcontent :
      FetchItem.Spelled {} (Octet.ofText "RFC822") (.element (.whole .rfc822 .content)) :=
    .keyword .rfc822 (by decide)
  have hcontent' :
      FetchItem.Spelled {} (Octet.ofText "rfc822") (.element (.whole .rfc822 .content)) :=
    .keyword .rfc822 (by decide)
  have hpair : ∀ {p q : Part FetchItem}, FetchItem.Spelled {} p.octets p.value →
      FetchItem.Spelled {} q.octets q.value → FetchItem.AllSpelled {} ⟨p, [q]⟩ :=
    fun hp hq => List.forall_mem_cons.2 ⟨hp, List.forall_mem_singleton.2 hq⟩
  refine ⟨?_, ?_, ?_, ?_, ?_, ?_, ?_, ?_, ?_⟩
  · have hflags : FetchItem.Spelled {} (Octet.ofText "flags") .flags := .keyword .flags (by decide)
    have hflags' : FetchItem.Spelled {} (Octet.ofText "FLAGS") .flags := .keyword .flags (by decide)
    obtain ⟨d, hgives, hasked⟩ := h.listed ⟨⟨_, _⟩, [⟨_, _⟩, ⟨_, _⟩, ⟨_, _⟩, ⟨_, _⟩]⟩
      (List.forall_mem_cons.2
        ⟨hflags, List.forall_mem_cons.2 ⟨hcontent, List.forall_mem_cons.2 ⟨huid',
        hpair hcontent' hflags'⟩⟩⟩)
    obtain ⟨e, hrun, hreaches⟩ := hgives (s := [])
      (Cursor.listens_ofOctets (Octet.ofText "(flags RFC822 Uid rfc822 FLAGS)")) trivial (by decide)
    exact ⟨d, e, hrun, hasked, hreaches.rest_eq_of (by decide)⟩
  · obtain ⟨d, h, h'⟩ := h.permuted ⟨⟨_, _⟩, [⟨_, _⟩]⟩ ⟨⟨_, _⟩, [⟨_, _⟩]⟩ (hpair huid' hcontent)
      (hpair hcontent' huid) (.swap _ _ []) rfl
    exact ⟨d, h, h'⟩
  · obtain ⟨d, h, h'⟩ := h.single (Octet.ofText "Rfc822.Text") _ (.keyword .rfc822Text (by decide))
    exact ⟨d, h, h'⟩
  · have hbody := h.body (Octet.ofText "Body") (Octet.ofText " UID)")
      (Cursor.ofOctets (Octet.ofText "Body UID)")) (by decide) (Stops.cons rfl _)
      (Cursor.steady_ofOctets _) (by decide)
    exact ⟨_, hbody.item_eq (by decide)⟩
  · have hbody := h.body (Octet.ofText "body") (Octet.ofText "[]")
      (Cursor.ofOctets (Octet.ofText "body[]")) (by decide) (Stops.cons rfl _)
      (Cursor.steady_ofOctets _) (by decide)
    exact fun d e hrun => hbody.data_element (by decide) hrun
  · obtain ⟨e, hrun, -⟩ := h.shorthand .fast (Octet.ofText "Fast") (by decide)
      (Cursor.listens_ofOctets (Octet.ofText "Fast")) (s := []) (by simp [Stops]) (by decide)
    exact ⟨e, hrun⟩
  · have hflags : FetchItem.Spelled {} (Octet.ofText "FLAGS") .flags := .keyword .flags (by decide)
    have hdate : FetchItem.Spelled {} (Octet.ofText "INTERNALDATE") .internalDate :=
      .keyword .internalDate (by decide)
    have hsize : FetchItem.Spelled {} (Octet.ofText "RFC822.SIZE") .size :=
      .keyword .size (by decide)
    obtain ⟨e, hrun, -⟩ := h.abbreviated .fast ⟨⟨_, _⟩, [⟨_, _⟩, ⟨_, _⟩]⟩
      (List.forall_mem_cons.2 ⟨hflags, hpair hdate hsize⟩) rfl
      (Cursor.listens_ofOctets (Octet.ofText "(FLAGS INTERNALDATE RFC822.SIZE)"))
      (s := []) trivial (by decide)
    exact ⟨e, hrun⟩
  · exact h.refused .fast (Octet.ofText "Fast") (by decide) [⟨_, _⟩]
      (List.forall_mem_singleton.2 huid) (Cursor.listens_ofOctets (Octet.ofText "(UID Fast)")) rfl
      (s := [Octet.rparen]) (Stops.cons rfl _) (by decide)
  · obtain ⟨d, hgives, hboth⟩ := h.listed ⟨⟨_, _⟩, [⟨_, _⟩]⟩ (hpair huid hcontent)
    obtain ⟨e, hrun, -⟩ := hgives (Cursor.listens_ofOctets (Octet.ofText "(UID RFC822)")) trivial
      (s := []) (by decide)
    obtain ⟨w, items, -, -, hasked, hseen⟩ := h.spelled _ d e hrun
    have hcontent : d.setsSeen = true := by
      rw [setsSeen, hboth.elements]
      rfl
    exact ⟨d, e, items, hrun, hasked, h.not_empty _ d e hrun, hseen.1 hcontent⟩

end FetchData

end ImapRequest
