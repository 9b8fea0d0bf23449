import ImapRequest.Proofs.Grammar.Values
import ImapRequest.Proofs.Written.Search

/-!
# The grammar of search keys

```
key = sequence-set / "ALL" / "BCC" SP astring / ... / "NOT" SP key / "OR" SP key SP key /
      "(" key *(SP key) ")"
```

Keywords are written in any letter case.  Keys in parentheses have to match together, a single one
stays as it is.  Keys are nested at most `SearchKey.maxLevel` deep.

* `SearchKey.Derives` : the grammar, with the key that each word of it means;
* `SearchKey.derives_iff` : the grammar by the first octet, with the table of keywords;
* `SearchKey.decodeWithin_recognizes` : keys are decoded exactly, by induction on the levels that
  are left.
-/

namespace ImapRequest

/-- Where a search key ends: at a space, at a closing parenthesis, at a line break or with the
input. -/
def KeyEnds (s : List UInt8) : Prop :=
  ∀ b ∈ s.head?, b = Octet.sp ∨ b = Octet.rparen ∨ Octet.isLineBreak b = true

theorem keyEnds_sp (s : List UInt8) : KeyEnds (Octet.sp :: s) := by simp [KeyEnds]

theorem keyEnds_rparen (s : List UInt8) : KeyEnds (Octet.rparen :: s) := by simp [KeyEnds]

/-- A class without the octets at which keys end. -/
theorem KeyEnds.stops {p : UInt8 → Bool} {s : List UInt8} (h : KeyEnds s) (hsp : p Octet.sp = false)
    (hparen : p Octet.rparen = false) (hcr : p Octet.cr = false) (hlf : p Octet.lf = false) :
    Stops p s := by
  intro b hb
  have hend := h b hb
  simp only [Octet.isLineBreak, Bool.or_eq_true, beq_iff_eq] at hend
  rcases hend with rfl | rfl | rfl | rfl
  · exact hsp
  · exact hparen
  · exact hcr
  · exact hlf

theorem KeyEnds.numberEnds {s : List UInt8} (h : KeyEnds s) : NumberEnds s := by
  have hstops : Stops (fun b => !Octet.isNumberEnd b) s := h.stops rfl rfl rfl rfl
  intro b hb
  simpa using hstops b hb

namespace SearchKey

/-! ### The grammar -/

/-- Keys with a keyword and without keys in them: the keyword, what is behind it, and the key. -/
inductive Leaf (ctx : Context) : String → List UInt8 → SearchKey → Prop
  | all : Leaf ctx "ALL" [] .all
  | answered : Leaf ctx "ANSWERED" [] .answered
  | deleted : Leaf ctx "DELETED" [] .deleted
  | draft : Leaf ctx "DRAFT" [] .draft
  | flagged : Leaf ctx "FLAGGED" [] .flagged
  | new : Leaf ctx "NEW" [] .new
  | old : Leaf ctx "OLD" [] .old
  | recent : Leaf ctx "RECENT" [] .recent
  | seen : Leaf ctx "SEEN" [] .seen
  | unanswered : Leaf ctx "UNANSWERED" [] .unanswered
  | undeleted : Leaf ctx "UNDELETED" [] .undeleted
  | undraft : Leaf ctx "UNDRAFT" [] .undraft
  | unflagged : Leaf ctx "UNFLAGGED" [] .unflagged
  | unseen : Leaf ctx "UNSEEN" [] .unseen
  | bcc {w text} (h : AString ctx w text) : Leaf ctx "BCC" (Octet.sp :: w) (.bcc text)
  | body {w text} (h : AString ctx w text) : Leaf ctx "BODY" (Octet.sp :: w) (.body text)
  | cc {w text} (h : AString ctx w text) : Leaf ctx "CC" (Octet.sp :: w) (.cc text)
  | «from» {w text} (h : AString ctx w text) : Leaf ctx "FROM" (Octet.sp :: w) (.from text)
  | subject {w text} (h : AString ctx w text) : Leaf ctx "SUBJECT" (Octet.sp :: w) (.subject text)
  | text {w text} (h : AString ctx w text) : Leaf ctx "TEXT" (Octet.sp :: w) (.text text)
  | «to» {w text} (h : AString ctx w text) : Leaf ctx "TO" (Octet.sp :: w) (.to text)
  | header {v w field text} (hfield : AString ctx v field) (htext : AString ctx w text) :
    Leaf ctx "HEADER" (Octet.sp :: (v ++ Octet.sp :: w)) (.header field text)
  | keyword {w flag} (h : Atom.Spelled w flag) : Leaf ctx "KEYWORD" (Octet.sp :: w) (.keyword flag)
  | unkeyword {w flag} (h : Atom.Spelled w flag) :
    Leaf ctx "UNKEYWORD" (Octet.sp :: w) (.unkeyword flag)
  | before {w date} (h : Date.Spelled w date) : Leaf ctx "BEFORE" (Octet.sp :: w) (.before date)
  | on {w date} (h : Date.Spelled w date) : Leaf ctx "ON" (Octet.sp :: w) (.on date)
  | since {w date} (h : Date.Spelled w date) : Leaf ctx "SINCE" (Octet.sp :: w) (.since date)
  | sentBefore {w date} (h : Date.Spelled w date) :
    Leaf ctx "SENTBEFORE" (Octet.sp :: w) (.sentBefore date)
  | sentOn {w date} (h : Date.Spelled w date) : Leaf ctx "SENTON" (Octet.sp :: w) (.sentOn date)
  | sentSince {w date} (h : Date.Spelled w date) :
    Leaf ctx "SENTSINCE" (Octet.sp :: w) (.sentSince date)
  | larger {w octets} (h : Decimal.IsNumber w octets) :
    Leaf ctx "LARGER" (Octet.sp :: w) (.larger octets)
  | smaller {w octets} (h : Decimal.IsNumber w octets) :
    Leaf ctx "SMALLER" (Octet.sp :: w) (.smaller octets)
  | older {w seconds} (h : Decimal.IsNumber w seconds ∧ seconds ≠ 0) :
    Leaf ctx "OLDER" (Octet.sp :: w) (.older seconds)
  | younger {w seconds} (h : Decimal.IsNumber w seconds ∧ seconds ≠ 0) :
    Leaf ctx "YOUNGER" (Octet.sp :: w) (.younger seconds)
  | uid {w set} (h : SequenceSet.Spelled w set) : Leaf ctx "UID" (Octet.sp :: w) (.uid set)

/-- The octets that spell a key at some level, where the outermost keys are at level 1. -/
inductive Derives (ctx : Context) : Nat → List UInt8 → SearchKey → Prop
  | sequenceSet {level : Nat} {w : List UInt8} {set : SequenceSet} (hlevel : level ≤ maxLevel)
    (hset : SequenceSet.Spelled w set) : Derives ctx level w (.sequenceSet set)
  | leaf {level : Nat} {word : String} {u v : List UInt8} {key : SearchKey}
    (hlevel : level ≤ maxLevel) (hword : Octet.sameLetters u (Octet.ofText word) = true)
    (hkey : Leaf ctx word v key) : Derives ctx level (u ++ v) key
  | not {level : Nat} {u v : List UInt8} {key : SearchKey} (hlevel : level ≤ maxLevel)
    (hword : Octet.sameLetters u (Octet.ofText "NOT") = true)
    (hkey : Derives ctx (level + 1) v key) : Derives ctx level (u ++ Octet.sp :: v) (.not key)
  | or {level : Nat} {u v w : List UInt8} {left right : SearchKey} (hlevel : level ≤ maxLevel)
    (hword : Octet.sameLetters u (Octet.ofText "OR") = true)
    (hleft : Derives ctx (level + 1) v left) (hright : Derives ctx (level + 1) w right) :
    Derives ctx level (u ++ Octet.sp :: (v ++ Octet.sp :: w)) (.or left right)
  | group {level : Nat} {parts : OneOrMore (Part SearchKey)} {key : SearchKey}
    (hlevel : level ≤ maxLevel)
    (hparts : ∀ p ∈ parts.toList, Derives ctx (level + 1) p.octets p.value)
    (hkey : key.Together (Part.values parts)) :
    Derives ctx level (Octet.lparen :: (Part.joined parts ++ [Octet.rparen])) key

/-- The octets that spell keys next to each other, and the key that matches when all of them do. -/
def Conjoined (D : List UInt8 → SearchKey → Prop) (w : List UInt8) (key : SearchKey) : Prop :=
  ∃ parts : OneOrMore (Part SearchKey), (∀ p ∈ parts.toList, D p.octets p.value) ∧
    key.Together (Part.values parts) ∧ w = Part.joined parts

/-! ### Keys with keywords -/

variable {ctx : Context}

/-- What is behind the keyword of a form, and the key that it makes; `D` are the words for the keys
in it. -/
def FormSpelled (ctx : Context) (D : List UInt8 → SearchKey → Prop) :
    SearchForm → List UInt8 → SearchKey → Prop
  | .plain k => fun v key => v = [] ∧ key = k
  | .text make => fun v key => ∃ w, (∃ text, AString ctx w text ∧ key = make text) ∧
    v = Octet.sp :: w
  | .header => fun v key => ∃ w, Decoder.Pair (AString ctx) (AString ctx) .header w key ∧
      v = Octet.sp :: w
  | .flag make => fun v key => ∃ w, (∃ flag, Atom.Spelled w flag ∧ key = make flag) ∧
    v = Octet.sp :: w
  | .date make => fun v key => ∃ w, (∃ date, Date.Spelled w date ∧ key = make date) ∧
    v = Octet.sp :: w
  | .number make => fun v key => ∃ w, (∃ n, Decimal.IsNumber w n ∧ key = make n) ∧ v = Octet.sp :: w
  | .positive make => fun v key =>
      ∃ w, (∃ n, (Decimal.IsNumber w n ∧ n ≠ 0) ∧ key = make n) ∧ v = Octet.sp :: w
  | .set make => fun v key =>
      ∃ w, (∃ set, SequenceSet.Spelled w set ∧ key = make set) ∧ v = Octet.sp :: w
  | .not => fun v key => ∃ w, (∃ inner, D w inner ∧ key = .not inner) ∧ v = Octet.sp :: w
  | .or => fun v key => ∃ w, Decoder.Pair D D .or w key ∧ v = Octet.sp :: w

/-- What is behind a keyword ends it. -/
theorem eq_nil_or_sp_of_formSpelled {D : List UInt8 → SearchKey → Prop} {form : SearchForm}
    {v : List UInt8} {key : SearchKey} (h : FormSpelled ctx D form v key) :
    v = [] ∨ ∃ w, v = Octet.sp :: w := by
  cases form with
  | plain k => exact Or.inl h.1
  | _ =>
    obtain ⟨w, -, rfl⟩ := h
    exact Or.inr ⟨w, rfl⟩

section Named

variable {inner : Decoder SearchKey} {D : List UInt8 → SearchKey → Prop}

theorem decodeForm_recognizes (hinner : Decoder.Recognizes inner D KeyEnds) (form : SearchForm) :
    Decoder.Recognizes (decodeForm ctx inner form) (FormSpelled ctx D form) KeyEnds := by
  have hastring : Decoder.Recognizes (Decoder.astring ctx) (AString ctx) KeyEnds :=
    (Decoder.astring_recognizes ctx).imp fun s hs => hs.stops rfl rfl rfl rfl
  cases form with
  | plain k => exact fun c => .pure k
  | text make => exact (hastring.map make).spaced
  | header => exact (hastring.pair hastring keyEnds_sp _).spaced
  | flag make =>
    exact ((Atom.decode_recognizes.imp fun s hs => hs.stops rfl rfl rfl rfl).map make).spaced
  | date make =>
    exact ((Date.decode_recognizes.imp fun s hs => hs.stops rfl rfl rfl rfl).map make).spaced
  | number make =>
    exact ((Decoder.number_recognizes.imp fun s hs => hs.numberEnds).map make).spaced
  | positive make =>
    exact ((Decoder.positive_recognizes.imp fun s hs => hs.numberEnds).map make).spaced
  | set make =>
    exact ((SequenceSet.decode_recognizes.imp fun s hs => hs.stops rfl rfl rfl rfl).map make).spaced
  | not => exact (hinner.map SearchKey.not).spaced
  | or => exact (hinner.pair hinner keyEnds_sp _).spaced

theorem decodeNamed_recognizes (ctx : Context) (hinner : Decoder.Recognizes inner D KeyEnds)
    (word : String) :
    Decoder.Recognizes (decodeNamed ctx inner word)
      (fun v key => ∃ form, forms.lookup word = some form ∧ FormSpelled ctx D form v key)
        KeyEnds := by
  intro c
  rw [decodeNamed]
  split
  · rename_i form hform
    exact (decodeForm_recognizes hinner form c).congr fun v s key _ => by simp [hform]
  · rename_i hnone
    exact .reject (by simp [hnone])

/-- A keyword of the table and what is behind it. -/
def Keyed (ctx : Context) (D : List UInt8 → SearchKey → Prop) (w : List UInt8) (key : SearchKey) :
    Prop :=
  ∃ u word v form, Octet.sameLetters u (Octet.ofText word) = true ∧ forms.lookup word = some form ∧
    FormSpelled ctx D form v key ∧ w = u ++ v

theorem isName_of_lookup {word : String} {form : SearchForm} (h : forms.lookup word = some form) :
    IsName word := by
  have hall : ∀ entry ∈ forms.map Prod.fst, IsName entry := by decide
  obtain ⟨before, after, hforms, -⟩ := List.lookup_eq_some_iff.1 h
  exact hall word (by simp [hforms])

theorem decodeKeyed_recognizes (hinner : Decoder.Recognizes inner D KeyEnds) :
    Decoder.Recognizes (do decodeNamed ctx inner (← Decoder.keyword)) (Keyed ctx D) KeyEnds := by
  refine (Decoder.named_recognizes (decodeNamed_recognizes ctx hinner) ?_ ?_).congr fun w key => ?_
  · rintro word v key ⟨form, hform, -⟩
    exact (isName_of_lookup hform).1
  · rintro word v key s ⟨form, -, hform⟩ hs
    rcases eq_nil_or_sp_of_formSpelled hform with rfl | ⟨v, rfl⟩
    · exact hs.stops rfl rfl rfl rfl
    · exact (keyEnds_sp _).stops rfl rfl rfl rfl
  · constructor
    · rintro ⟨u, word, v, hu, ⟨form, hform, hv⟩, rfl⟩
      exact ⟨u, word, v, form, hu, hform, hv, rfl⟩
    · rintro ⟨u, word, v, form, hu, hform, hv, rfl⟩
      exact ⟨u, word, v, hu, ⟨form, hform, hv⟩, rfl⟩

end Named

/-! ### The grammar by the first octet -/

section Derives

variable {level : Nat} {u v w : List UInt8} {key : SearchKey} {word : String}

theorem Leaf.exists_form {D : List UInt8 → SearchKey → Prop} (h : Leaf ctx word v key) :
    ∃ form, forms.lookup word = some form ∧ FormSpelled ctx D form v key := by
  cases h with
  | all | answered | deleted | draft | flagged | new | old | recent | seen | unanswered | undeleted
  | undraft | unflagged | unseen => exact ⟨_, rfl, rfl, rfl⟩
  | header hfield htext => exact ⟨_, rfl, _, ⟨_, _, _, _, hfield, htext, rfl, rfl⟩, rfl⟩
  | bcc h | body h | cc h | «from» h | subject h | text h | «to» h | keyword h | unkeyword h
  | before h | on h | since h | sentBefore h | sentOn h | sentSince h | larger h | smaller h
  | older h | younger h | uid h => exact ⟨_, rfl, _, ⟨_, h, rfl⟩, rfl⟩

theorem derives_of_form {form : SearchForm} (hlevel : level ≤ maxLevel)
    (hword : Octet.sameLetters u (Octet.ofText word) = true) (hform : forms.lookup word = some form)
    (h : FormSpelled ctx (Derives ctx (level + 1)) form v key) :
    Derives ctx level (u ++ v) key := by
  obtain ⟨before, after, hforms, -⟩ := List.lookup_eq_some_iff.1 hform
  have hmem : (word, form) ∈ forms := by simp [hforms]
  simp only [forms, List.mem_cons, Prod.mk.injEq, List.not_mem_nil, or_false] at hmem
  cases form with
  | plain k =>
    obtain ⟨rfl, rfl⟩ := h
    refine .leaf hlevel hword ?_
    simp only [SearchForm.plain.injEq, reduceCtorEq, and_false, or_false] at hmem
    rcases hmem with ⟨rfl, rfl⟩ | ⟨rfl, rfl⟩ | ⟨rfl, rfl⟩ | ⟨rfl, rfl⟩ | ⟨rfl, rfl⟩ | ⟨rfl, rfl⟩ |
      ⟨rfl, rfl⟩ | ⟨rfl, rfl⟩ | ⟨rfl, rfl⟩ | ⟨rfl, rfl⟩ | ⟨rfl, rfl⟩ | ⟨rfl, rfl⟩ | ⟨rfl, rfl⟩ |
      ⟨rfl, rfl⟩ <;> constructor
  | text make =>
    obtain ⟨w, ⟨text, htext, rfl⟩, rfl⟩ := h
    refine .leaf hlevel hword ?_
    simp only [SearchForm.text.injEq, reduceCtorEq, and_false, false_or, or_false] at hmem
    rcases hmem with ⟨rfl, rfl⟩ | ⟨rfl, rfl⟩ | ⟨rfl, rfl⟩ | ⟨rfl, rfl⟩ | ⟨rfl, rfl⟩ | ⟨rfl, rfl⟩ |
      ⟨rfl, rfl⟩ <;> constructor <;> exact htext
  | header =>
    obtain ⟨w, ⟨t, field, t', text, hfield, htext, rfl, rfl⟩, rfl⟩ := h
    obtain rfl : word = "HEADER" := by simpa using hmem
    exact .leaf hlevel hword (.header hfield htext)
  | flag make =>
    obtain ⟨w, ⟨flag, hflag, rfl⟩, rfl⟩ := h
    refine .leaf hlevel hword ?_
    simp only [SearchForm.flag.injEq, reduceCtorEq, and_false, false_or, or_false] at hmem
    rcases hmem with ⟨rfl, rfl⟩ | ⟨rfl, rfl⟩ <;> constructor <;> exact hflag
  | date make =>
    obtain ⟨w, ⟨date, hdate, rfl⟩, rfl⟩ := h
    refine .leaf hlevel hword ?_
    simp only [SearchForm.date.injEq, reduceCtorEq, and_false, false_or, or_false] at hmem
    rcases hmem with ⟨rfl, rfl⟩ | ⟨rfl, rfl⟩ | ⟨rfl, rfl⟩ | ⟨rfl, rfl⟩ | ⟨rfl, rfl⟩ | ⟨rfl, rfl⟩ <;>
      constructor <;> exact hdate
  | number make =>
    obtain ⟨w, ⟨n, hn, rfl⟩, rfl⟩ := h
    refine .leaf hlevel hword ?_
    simp only [SearchForm.number.injEq, reduceCtorEq, and_false, false_or, or_false] at hmem
    rcases hmem with ⟨rfl, rfl⟩ | ⟨rfl, rfl⟩ <;> constructor <;> exact hn
  | positive make =>
    obtain ⟨w, ⟨n, hn, rfl⟩, rfl⟩ := h
    refine .leaf hlevel hword ?_
    simp only [SearchForm.positive.injEq, reduceCtorEq, and_false, false_or, or_false] at hmem
    rcases hmem with ⟨rfl, rfl⟩ | ⟨rfl, rfl⟩ <;> constructor <;> exact hn
  | set make =>
    obtain ⟨w, ⟨set, hset, rfl⟩, rfl⟩ := h
    obtain ⟨rfl, rfl⟩ : word = "UID" ∧ make = .uid := by simpa using hmem
    exact .leaf hlevel hword (.uid hset)
  | not =>
    obtain ⟨w, ⟨inner, hinner, rfl⟩, rfl⟩ := h
    obtain rfl : word = "NOT" := by simpa using hmem
    exact .not hlevel hword hinner
  | or =>
    obtain ⟨w, ⟨t, left, t', right, hleft, hright, rfl, rfl⟩, rfl⟩ := h
    obtain rfl : word = "OR" := by simpa using hmem
    exact .or hlevel hword hleft hright

/-- A key is a set, has a keyword of the table, or stands in parentheses. -/
theorem derives_iff : Derives ctx level w key ↔ level ≤ maxLevel ∧
    ((∃ set, SequenceSet.Spelled w set ∧ key = .sequenceSet set) ∨
      Keyed ctx (Derives ctx (level + 1)) w key ∨
      ∃ v, Conjoined (Derives ctx (level + 1)) v key ∧
        w = Octet.lparen :: (v ++ [Octet.rparen])) := by
  constructor
  · rintro (⟨hlevel, hset⟩ | ⟨hlevel, hword, hkey⟩ | ⟨hlevel, hword, hkey⟩ |
      ⟨hlevel, hword, hleft, hright⟩ | ⟨hlevel, hparts, hkey⟩)
    · exact ⟨hlevel, Or.inl ⟨_, hset, rfl⟩⟩
    · obtain ⟨form, hform, hv⟩ := hkey.exists_form
      exact ⟨hlevel, Or.inr (Or.inl ⟨_, _, _, form, hword, hform, hv, rfl⟩)⟩
    · exact ⟨hlevel, Or.inr (Or.inl ⟨_, _, _, .not, hword, rfl, ⟨_, ⟨_, hkey, rfl⟩, rfl⟩, rfl⟩)⟩
    · exact ⟨hlevel, Or.inr (Or.inl ⟨_, _, _, .or, hword, rfl,
        ⟨_, ⟨_, _, _, _, hleft, hright, rfl, rfl⟩, rfl⟩, rfl⟩)⟩
    · exact ⟨hlevel, Or.inr (Or.inr ⟨_, ⟨_, hparts, hkey, rfl⟩, rfl⟩)⟩
  · rintro ⟨hlevel, ⟨set, hset, rfl⟩ | ⟨u, word, v, form, hword, hform, hv, rfl⟩ |
      ⟨_, ⟨parts, hparts, hkey, rfl⟩, rfl⟩⟩
    · exact .sequenceSet hlevel hset
    · exact derives_of_form hlevel hword hform hv
    · exact .group hlevel hparts hkey

/-- A word that begins with a letter does so in any letter case. -/
theorem exists_letter (hword : (Octet.ofText word).head?.any Octet.isLetter = true)
    (hu : Octet.sameLetters u (Octet.ofText word) = true) :
    ∃ b v, u = b :: v ∧ Octet.isLetter b = true := by
  have hupper : ∀ b, Octet.isLetter (Octet.upper b) = Octet.isLetter b :=
    Octet.forall_octet (by decide +kernel)
  cases hoctets : Octet.ofText word with
  | nil => simp [hoctets] at hword
  | cons a as =>
    rw [Octet.sameLetters, hoctets, beq_iff_eq] at hu
    cases u with
    | nil => simp at hu
    | cons b v =>
      refine ⟨b, v, rfl, ?_⟩
      rw [← hupper, (List.cons.inj hu).1, hupper]
      simpa [hoctets] using hword

theorem Keyed.exists_cons {D : List UInt8 → SearchKey → Prop} (h : Keyed ctx D w key) :
    ∃ b v, w = b :: v ∧ Octet.isLetter b = true := by
  obtain ⟨u, word, v, form, hword, hform, -, rfl⟩ := h
  obtain ⟨b, u, rfl, hb⟩ := exists_letter (isName_of_lookup hform).2.1 hword
  exact ⟨b, u ++ v, rfl, hb⟩

theorem derives_lparen : Derives ctx level (Octet.lparen :: v) key ↔ level ≤ maxLevel ∧
    ∃ w, Conjoined (Derives ctx (level + 1)) w key ∧ v = w ++ [Octet.rparen] := by
  rw [derives_iff]
  refine and_congr_right fun _ => ⟨?_, ?_⟩
  · rintro (⟨set, hset, -⟩ | hkeyed | ⟨w, hw, hv⟩)
    · obtain ⟨b, u, hb, hrange⟩ := hset.exists_cons
      obtain rfl := (List.cons.inj hb).1
      exact absurd hrange (by decide)
    · obtain ⟨b, u, hb, hletter⟩ := hkeyed.exists_cons
      obtain rfl := (List.cons.inj hb).1
      exact absurd hletter (by decide)
    · exact ⟨w, hw, (List.cons.inj hv).2⟩
  · rintro ⟨w, hw, rfl⟩
    exact Or.inr (Or.inr ⟨w, hw, rfl⟩)

theorem not_isLetter_of_isRangeStart :
    ∀ b, SequenceSet.IsRangeStart b → b ≠ Octet.lparen ∧ Octet.isLetter b = false :=
  Octet.forall_octet (by decide +kernel)

theorem derives_rangeStart {b : UInt8} (hb : SequenceSet.IsRangeStart b) :
    Derives ctx level (b :: v) key ↔ level ≤ maxLevel ∧
      ∃ set, SequenceSet.Spelled (b :: v) set ∧ key = .sequenceSet set := by
  rw [derives_iff]
  refine and_congr_right fun _ => ⟨?_, Or.inl⟩
  rintro (hset | hkeyed | ⟨w, -, hv⟩)
  · exact hset
  · obtain ⟨b, u, hb', hletter⟩ := hkeyed.exists_cons
    obtain rfl := (List.cons.inj hb').1
    simp [(not_isLetter_of_isRangeStart _ hb).2] at hletter
  · exact absurd (List.cons.inj hv).1 (not_isLetter_of_isRangeStart b hb).1

theorem derives_letter {b : UInt8} (hb : Octet.isLetter b = true) :
    Derives ctx level (b :: v) key ↔ level ≤ maxLevel ∧
      Keyed ctx (Derives ctx (level + 1)) (b :: v) key := by
  rw [derives_iff]
  refine and_congr_right fun _ => ⟨?_, fun h => Or.inr (Or.inl h)⟩
  rintro (⟨set, hset, -⟩ | hkeyed | ⟨w, -, hv⟩)
  · obtain ⟨b, u, hb', hrange⟩ := hset.exists_cons
    obtain rfl := (List.cons.inj hb').1
    simp [(not_isLetter_of_isRangeStart _ hrange).2] at hb
  · exact hkeyed
  · obtain rfl := (List.cons.inj hv).1
    exact absurd hb (by decide)

/-- What keys start with: an opening parenthesis, a digit or `*`, or a letter. -/
theorem Derives.exists_cons (h : Derives ctx level w key) :
    ∃ b v, w = b :: v ∧
      (b = Octet.lparen ∨ SequenceSet.IsRangeStart b ∨ Octet.isLetter b = true) := by
  rcases (derives_iff.1 h).2 with ⟨set, hset, -⟩ | hkeyed | ⟨v, -, rfl⟩
  · obtain ⟨b, v, rfl, hb⟩ := hset.exists_cons
    exact ⟨b, v, rfl, Or.inr (Or.inl hb)⟩
  · obtain ⟨b, v, rfl, hb⟩ := hkeyed.exists_cons
    exact ⟨b, v, rfl, Or.inr (Or.inr hb)⟩
  · exact ⟨_, _, rfl, Or.inl rfl⟩

theorem Derives.ne_nil (h : Derives ctx level w key) : w ≠ [] := by
  obtain ⟨b, v, rfl, -⟩ := h.exists_cons
  exact List.cons_ne_nil _ _

theorem Derives.not_isLineBreak (h : Derives ctx level w key) :
    ∃ b ∈ w.head?, Octet.isLineBreak b = false := by
  have hbreak : ∀ b, b = Octet.lparen ∨ SequenceSet.IsRangeStart b ∨ Octet.isLetter b = true →
      Octet.isLineBreak b = false := Octet.forall_octet (by decide +kernel)
  obtain ⟨b, v, rfl, hb⟩ := h.exists_cons
  exact ⟨b, rfl, hbreak b hb⟩

end Derives

/-! ### Keys at some level -/

theorem together_conjunction (keys : OneOrMore SearchKey) :
    (conjunction keys).Together keys.toList := by
  obtain ⟨first, further⟩ := keys
  cases further with
  | nil => exact Or.inl rfl
  | cons second further => exact Or.inr ⟨by simp [OneOrMore.toList], rfl⟩

section Level

variable {inner : Decoder SearchKey} {level : Nat} {c : Cursor} {b : UInt8} {s : List UInt8}

/-- Keys in parentheses, behind the opening one. -/
theorem decodeGroup_recognizes {F : List UInt8 → Prop} (hforward : Decoder.Forward inner)
    (hinner : Decoder.Recognizes inner (Derives ctx level) KeyEnds) :
    Decoder.Recognizes (do return conjunction (← Decoder.oneOrMore Decoder.listContinues inner))
      (fun w key => ∃ v, Conjoined (Derives ctx level) v key ∧ w = v ++ [Octet.rparen]) F := by
  refine ((Decoder.oneOrMore_recognizes hforward hinner
    (fun w key h => h.not_isLineBreak) keyEnds_sp
    keyEnds_rparen).map conjunction).congr fun w key => ?_
  constructor
  · rintro ⟨keys, ⟨parts, hparts, hvalues, rfl⟩, rfl⟩
    exact ⟨_, ⟨parts, hparts, hvalues ▸ together_conjunction keys, rfl⟩, rfl⟩
  · rintro ⟨_, ⟨parts, hparts, htogether, rfl⟩, rfl⟩
    exact ⟨⟨parts.head.value, parts.tail.map Part.value⟩, ⟨parts, hparts, rfl, rfl⟩,
      (conjunction_of_together htogether).symm⟩

theorem recognizesAt_lparen {F : List UInt8 → Prop} (hforward : Decoder.Forward inner)
    (hinner : Decoder.Recognizes inner (Derives ctx (level + 1)) KeyEnds)
    (hlevel : level ≤ maxLevel)
    (hrest : c.rest = Octet.lparen :: s) :
    Decoder.RecognizesAt (do
      let _ ← Decoder.consume
      let keys ← Decoder.oneOrMore Decoder.listContinues inner
      return conjunction keys) (Derives ctx level) F c := by
  -- An octet that was seen is one that is expected.
  refine .of_eq (y := do
    Decoder.expect Octet.lparen
    return conjunction (← Decoder.oneOrMore Decoder.listContinues inner)) ?_ fun hc => ?_
  · refine ((decodeGroup_recognizes (F := F) hforward hinner).behind Octet.lparen c).congr_cons
      hrest ?_
      (fun _ _ => Derives.ne_nil) fun v key => ?_
    · rintro _ _ ⟨_, -, rfl⟩
      exact List.cons_ne_nil _ _
    · rw [derives_lparen]
      constructor
      · rintro ⟨_, hv, heq⟩
        obtain rfl := (List.cons.inj heq).2
        exact ⟨hlevel, hv⟩
      · rintro ⟨-, hv⟩
        exact ⟨v, hv, rfl⟩
  · rw [Decoder.bind_of_ok (Decoder.expect_of_rest hc hrest)]
    exact Decoder.bind_of_ok (Decoder.consume_of_rest hc hrest)

/-- Where a letter is next, a key is read from its keyword. -/
theorem decodeWithin_of_letter (levels : Nat) (hc : c.Steady) (hrest : c.rest = b :: s)
    (hb : Octet.isLetter b = true) : decodeWithin ctx (levels + 1) c =
      (do decodeNamed ctx (decodeWithin ctx levels) (← Decoder.keyword)) c := by
  have hparen : b ≠ Octet.lparen := by
    rintro rfl
    exact absurd hb (by decide)
  have hrange : (Octet.isDigit b || b == Octet.star) = false := by
    refine Bool.eq_false_iff.2 fun h => ?_
    have hstart : SequenceSet.IsRangeStart b := by simpa [SequenceSet.IsRangeStart] using h
    simp [(not_isLetter_of_isRangeStart b hstart).2] at hb
  rw [decodeWithin, Decoder.bind_of_ok (Decoder.peek_of_rest hc hrest),
    if_neg (by simpa using hparen), if_neg (by simp [hrange]), if_pos hb]

theorem recognizesAt_rangeStart (hlevel : level ≤ maxLevel) (hb : SequenceSet.IsRangeStart b)
    (hrest : c.rest = b :: s) :
    Decoder.RecognizesAt (do return SearchKey.sequenceSet (← SequenceSet.decode))
      (Derives ctx level) KeyEnds c := by
  refine ((SequenceSet.decode_recognizes.imp fun s hs => hs.stops rfl rfl rfl rfl).map
    SearchKey.sequenceSet c).congr_cons hrest (fun _ _ ⟨_, hset, _⟩ => hset.1)
    (fun _ _ => Derives.ne_nil) fun v key => ?_
  rw [derives_rangeStart hb, and_iff_right hlevel]

theorem recognizesAt_letter
    (hinner : Decoder.Recognizes inner (Derives ctx (level + 1)) KeyEnds)
    (hlevel : level ≤ maxLevel)
    (hb : Octet.isLetter b = true) (hrest : c.rest = b :: s) :
    Decoder.RecognizesAt (do decodeNamed ctx inner (← Decoder.keyword)) (Derives ctx level) KeyEnds
      c := by
  refine (decodeKeyed_recognizes hinner c).congr_cons hrest ?_ (fun _ _ => Derives.ne_nil)
    fun v key => ?_
  · intro w key h
    obtain ⟨b, v, rfl, -⟩ := h.exists_cons
    exact List.cons_ne_nil _ _
  · rw [derives_letter hb, and_iff_right hlevel]

/-- The first octet tells the three kinds of keys apart. -/
theorem decodeWithin_recognizes (levels : Nat) : ∀ level, levels = maxLevel + 1 - level →
    Decoder.Recognizes (decodeWithin ctx levels) (Derives ctx level) KeyEnds := by
  induction levels with
  | zero =>
    intro level hlevel c
    refine .reject fun w key h => ?_
    have hle := (derives_iff.1 h).1
    omega
  | succ levels ih =>
    intro level hlevel c
    have hle : level ≤ maxLevel := by omega
    have hinner := ih (level + 1) (by omega)
    refine .look (fun _ _ => Derives.ne_nil) fun b s hrest => ?_
    by_cases hparen : b = Octet.lparen
    · subst hparen
      exact recognizesAt_lparen (decodeWithin_forward ctx levels) hinner hle hrest
    rw [if_neg (by simpa using hparen)]
    by_cases hrange : SequenceSet.IsRangeStart b
    · rw [if_pos (by simpa [SequenceSet.IsRangeStart] using hrange)]
      exact recognizesAt_rangeStart hle hrange hrest
    rw [if_neg (by simpa [SequenceSet.IsRangeStart] using hrange)]
    by_cases hletter : Octet.isLetter b = true
    · rw [if_pos hletter]
      exact recognizesAt_letter hinner hle hletter hrest
    · rw [if_neg hletter]
      refine .of_error (fun a e _ hrun => ?_) fun w t key hw h => ?_
      · simp [Decoder.unexpected, Decoder.reject, Decoder.fail] at hrun
      · obtain ⟨b', v, rfl, hb'⟩ := h.exists_cons
        obtain rfl : b' = b := (List.cons.inj (hw.symm.trans hrest)).1
        exact hb'.elim hparen fun h => h.elim hrange hletter

theorem decode_recognizes (ctx : Context) (level : Nat) :
    Decoder.Recognizes (decode ctx level) (Derives ctx level) KeyEnds :=
  decodeWithin_recognizes _ level rfl

end Level

end SearchKey

end ImapRequest
