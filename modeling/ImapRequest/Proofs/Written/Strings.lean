import ImapRequest.Proofs.Announcement
import ImapRequest.Proofs.Pieces
import ImapRequest.Proofs.Written.Basic

/-!
# Renderings of numbers and strings

A number may have zeros in front.  A text may be sent as a word, in double quotes with `"` and `\`
behind a backslash, or as a literal of either kind, whichever its octets allow.

* `Charset.ReadsAscii` : a character set in which the octets of US-ASCII stand for themselves;
* `Written.quoted`, `Written.literal`, `Written.wordOrString` : the renderings of a text;
* `Decoder.quoted_reads`, `Decoder.literalOctets_reads`, `Decoder.wordOrString_reads` : all of them
  are read as the text.
-/

namespace ImapRequest

open Sent

/-! ### Numbers -/

/-- Where a number ends. -/
def NumberEnds (s : List UInt8) : Prop := ∀ b ∈ s.head?, Octet.isNumberEnd b = true

theorem Delimited.numberEnds {s : List UInt8} (h : Delimited s) : NumberEnds s := by
  intro b hb
  have hdelimiter := h b hb
  simp only [Octet.isDelimiter, Bool.or_eq_true, beq_iff_eq] at hdelimiter
  rcases hdelimiter with (rfl | rfl) | rfl <;> rfl

theorem Octet.not_isDigit_of_isNumberEnd (b : UInt8) :
    isNumberEnd b = true → isDigit b = false := by
  revert b
  exact forall_octet (by decide +kernel)

namespace Written

/-- The digits of a number, with any zeros in front. -/
def number (n : Nat) : Language Sent := fun t => ∃ ds, Decimal.IsNumber ds n ∧ t = plain ds

end Written

namespace Decoder

/-- The digits of a number end where the number ends, which is checked once more. -/
theorem number_of_isNumber {c : Cursor} {ds s : List UInt8} {n : Nat} (hc : c.Steady)
    (hds : Decimal.IsNumber ds n) (hs : NumberEnds s) (hrest : c.rest = ds ++ s) :
    number c = (.ok n, c.advance ds.length) := by
  have hdigits := digits_of_le hc hrest hds
    fun b hb => Octet.not_isDigit_of_isNumberEnd b (hs b hb)
  have hrest' : (c.advance ds.length).rest = s := Cursor.rest_advance_append hrest
  have hc' := hc.advance ds.length
  rw [number, bind_of_ok hdigits, bind_of_ok (isConsumed_apply hc'), hrest']
  cases s with
  | nil => rfl
  | cons b s =>
    simp only [List.isEmpty_cons, Bool.false_eq_true, ↓reduceIte]
    rw [bind_of_ok (peek_of_rest hc' hrest'), if_pos (hs b rfl)]
    rfl

theorem number_reads (n : Nat) : Reads number (Written.number n) NumberEnds n := by
  rintro t ⟨ds, hds, rfl⟩ s hs c hc hrest
  rw [octets_plain] at hrest
  rw [number_of_isNumber hc.steady hds hs hrest, Cursor.after_plain]

theorem positive_reads {n : Nat} (hn : n ≠ 0) :
    Reads positive (Written.number n) NumberEnds n := by
  intro t ht s hs c hc hrest
  rw [positive, bind_of_ok (number_reads n t ht s hs c hc hrest), if_neg hn]
  rfl

end Decoder

/-! ### Texts in US-ASCII -/

namespace Charset

/-- The octets of US-ASCII stand for themselves, whatever was read before. -/
def ReadsAscii (c : Charset) : Prop :=
  ∀ b, Octet.isChar b = true → c.step {} b = some ([Octet.toChar b], {})

theorem usAscii_readsAscii : usAscii.ReadsAscii :=
  Octet.forall_octet (by decide +kernel)

theorem utf8_readsAscii : utf8.ReadsAscii :=
  Octet.forall_octet (by decide +kernel)

theorem codePage_readsAscii (page : CodePage) : (codePage page).ReadsAscii := by
  intro b hb
  have hchar : page.char? b = some (Octet.toChar b) := if_pos (Octet.isChar_lt hb)
  simp only [step, Charset.read, List.nil_append, readSingle, hchar]
  rfl

/-- Only sets in which every character has several octets, or whose octets change their meaning, are
different. -/
theorem readsAscii_of_ne {c : Charset} (hbe : c ≠ utf16be) (hle : c ≠ utf16le)
    (hjp : c ≠ iso2022Jp) : c.ReadsAscii := by
  cases c with
  | utf16be => exact absurd rfl hbe
  | utf16le => exact absurd rfl hle
  | iso2022Jp => exact absurd rfl hjp
  | codePage page => exact codePage_readsAscii page
  | _ => exact Octet.forall_octet (by decide +kernel)

variable {c : Charset}

theorem ReadsAscii.run (h : c.ReadsAscii) {bs : List UInt8} (hbs : bs.all Octet.isChar = true) :
    c.standard.run {} bs = some (bs.map Octet.toChar, {}) := by
  induction bs with
  | nil => rfl
  | cons b bs ih =>
    rw [List.all_cons, Bool.and_eq_true] at hbs
    rw [Standard.run, show c.standard.step {} b = _ from h b hbs.1, Option.bind_some, ih hbs.2]
    rfl

end Charset

namespace TextDecoder

variable {c : Charset} {d : TextDecoder} {text : List Char}

/-- A decoder behind a text, of which the last character is complete. -/
structure Behind (d : TextDecoder) (c : Charset) (text : List Char) : Prop where
  charset : d.charset = c
  state : d.state = {}
  text : d.output.text = text

theorem behind_new (c : Charset) : (new c).Behind c [] := ⟨rfl, rfl, rfl⟩

theorem Behind.finish_eq (h : d.Behind c text) : d.finish = String.ofList text := by
  rw [PieceDecoder.finish, h.text]

/-- The octets of US-ASCII are fed without an error. -/
theorem Behind.feed (h : d.Behind c text) (hc : c.ReadsAscii) {bs : List UInt8}
    (hbs : bs.all Octet.isChar = true) (last : Bool) :
    ∃ d' : TextDecoder, d.feed bs last = .ok d' ∧ d'.Behind c (text ++ bs.map Octet.toChar) := by
  obtain ⟨rfl, hstate, rfl⟩ := h
  by_cases hcharset : d.charset = .usAscii
  · have hfind : (bs.find? fun b => 0x80 ≤ b) = none := by
      refine List.find?_eq_none.2 fun b hb => ?_
      have hlt : b < 0x80 := Octet.isChar_lt (List.all_eq_true.1 hbs b hb)
      simpa using hlt
    refine ⟨{ d with output := d.output.extend (bs.map Octet.toChar) }, ?_, rfl, hstate, rfl⟩
    rw [PieceDecoder.feed, if_pos hcharset, PieceDecoder.feedAscii, hfind]
  · have hread : d.charset.standard.readBehind d.charset d.output.text d.state bs last =
        .ok (d.output.text ++ bs.map Octet.toChar, {}) := by
      rw [hstate, Standard.readBehind, Standard.read, hc.run hbs]
      cases last <;> rfl
    have hfeed := (PieceDecoder.feed_standing hcharset
      (Charset.transcoder_follows d.charset)).trans hread
    cases hd : d.feed bs last with
    | error e =>
      rw [hd] at hfeed
      cases hfeed
    | ok d' =>
      rw [hd] at hfeed
      obtain ⟨htext, hstate'⟩ := Prod.mk.inj (Except.ok.inj hfeed)
      exact ⟨d', rfl, PieceDecoder.charset_of_feed hd, hstate', htext⟩

end TextDecoder

theorem Charset.ReadsAscii.decode {c : Charset} (h : c.ReadsAscii) {bs : List UInt8}
    (hbs : bs.all Octet.isChar = true) : c.decode bs = .ok (Octet.toText bs) := by
  obtain ⟨d, hd, hbehind⟩ := (TextDecoder.behind_new c).feed h hbs true
  rw [Charset.decode, hd]
  exact congrArg Except.ok hbehind.finish_eq

/-! ### Quoted strings -/

namespace Written

/-- The octets that a quoted string may have, some of them behind a backslash. -/
def isQuotable (b : UInt8) : Bool := Octet.isChar b && !Octet.isLineBreak b

/-- Octets with a backslash before each that needs one. -/
def escape (bs : List UInt8) : List UInt8 :=
  bs.flatMap fun b => if Octet.isQuotedSpecial b then [Octet.backslash, b] else [b]

/-- A text in double quotes. -/
def quoted (text : String) : Language Sent :=
  fun t => (Octet.ofText text).all isQuotable = true ∧
    t = plain (Octet.quote :: (escape (Octet.ofText text) ++ [Octet.quote]))

end Written

namespace Octet

theorem isChar8_of_isChar (b : UInt8) : isChar b = true → isChar8 b = true := by
  revert b
  exact forall_octet (by decide +kernel)

theorem isChar_of_isQuotable {b : UInt8} (h : Written.isQuotable b = true) : isChar b = true := by
  rw [Written.isQuotable, Bool.and_eq_true] at h
  exact h.1

theorem isQuotedPlain_of_isQuotable {b : UInt8} (h : Written.isQuotable b = true)
    (hb : isQuotedSpecial b = false) : Decoder.isQuotedPlain b = true := by
  rw [Written.isQuotable, Bool.and_eq_true] at h
  simp [Decoder.isQuotedPlain, hb, h.2, isChar8_of_isChar _ h.1]

end Octet

namespace Decoder

variable {c : Cursor} {cs : Charset} {s : List UInt8}

theorem feed_of_behind (hcs : cs.ReadsAscii) {d : TextDecoder} {text : List Char}
    (hd : d.Behind cs text) {bs : List UInt8} (hbs : bs.all Octet.isChar = true) (last : Bool)
    (c : Cursor) :
    ∃ d', feed d bs last c = (.ok d', c) ∧ d'.Behind cs (text ++ bs.map Octet.toChar) := by
  obtain ⟨d', hfeed, hd'⟩ := hd.feed hcs hbs last
  refine ⟨d', ?_, hd'⟩
  rw [feed, hfeed]
  rfl

/-- The items of a quoted string, whatever pieces they are read in. -/
theorem quotedRest_escape (hcs : cs.ReadsAscii) (bs : List UInt8) :
    ∀ {c : Cursor} {d : TextDecoder} {text : List Char} {piece : List UInt8}, c.Steady →
    d.Behind cs text → bs.all Written.isQuotable = true → piece.all Octet.isChar = true →
    c.rest = Written.escape bs ++ Octet.quote :: s →
    quotedRest d piece c =
      (.ok (String.ofList (text ++ (piece ++ bs).map Octet.toChar)),
        c.advance ((Written.escape bs).length + 1)) := by
  induction bs with
  | nil =>
    intro c d text piece hc hd _ hpiece hrest
    obtain ⟨d', hfeed, hd'⟩ := feed_of_behind hcs hd hpiece true (c.advance 1)
    rw [quotedRest_apply hc, bind_of_ok (quotedItem_of_quote hc hrest)]
    change (feed d piece true >>= fun d => pure d.finish) _ = _
    rw [bind_of_ok hfeed, List.append_nil, ← hd'.finish_eq]
    rfl
  | cons b bs ih =>
    intro c d text piece hc hd hbs hpiece hrest
    rw [List.all_cons, Bool.and_eq_true] at hbs
    have hpiece' : (piece ++ [b]).all Octet.isChar = true := by
      rw [List.all_append, hpiece, List.all_cons, Octet.isChar_of_isQuotable hbs.1]
      rfl
    -- However the item is written, the rest is read after one more octet of text.
    have hafter : ∀ {e : Cursor}, e.Steady → e.rest = Written.escape bs ++ Octet.quote :: s →
        quotedAfter d piece (some b) e =
          (.ok (String.ofList (text ++ (piece ++ b :: bs).map Octet.toChar)),
            e.advance ((Written.escape bs).length + 1)) := by
      intro e he hrest'
      rw [quotedAfter]
      split
      · obtain ⟨d', hfeed, hd'⟩ := feed_of_behind hcs hd hpiece' false e
        rw [bind_of_ok hfeed, ih he hd' hbs.2 rfl hrest']
        simp
      · rw [ih he hd hbs.2 hpiece' hrest']
        simp
    rw [quotedRest_apply hc]
    cases hb : Octet.isQuotedSpecial b with
    | true =>
      have hescape : Written.escape (b :: bs) = Octet.backslash :: b :: Written.escape bs := by
        simp [Written.escape, hb]
      rw [hescape] at hrest ⊢
      have hrest' : (c.advance 2).rest = Written.escape bs ++ Octet.quote :: s := by
        rw [Cursor.rest_advance, hrest]
        rfl
      rw [bind_of_ok (quotedItem_of_escape hc hrest hb), hafter (hc.advance 2) hrest',
        Cursor.advance_advance]
      congr 2
      simp only [List.length_cons]
      omega
    | false =>
      have hescape : Written.escape (b :: bs) = b :: Written.escape bs := by
        simp [Written.escape, hb]
      rw [hescape] at hrest ⊢
      have hrest' : (c.advance 1).rest = Written.escape bs ++ Octet.quote :: s := by
        rw [Cursor.rest_advance, hrest]
        rfl
      rw [bind_of_ok (quotedItem_of_plain hc hrest (Octet.isQuotedPlain_of_isQuotable hbs.1 hb)),
        hafter (hc.advance 1) hrest', Cursor.advance_advance]
      congr 2
      simp only [List.length_cons]
      omega

theorem quoted_reads (hcs : cs.ReadsAscii) (text : String) :
    Reads (quoted cs) (Written.quoted text) Anything text := by
  rintro t ⟨hall, rfl⟩ s _ c hc hrest
  rw [octets_plain] at hrest
  have hrest' : (c.advance 1).rest = Written.escape (Octet.ofText text) ++ Octet.quote :: s := by
    rw [Cursor.rest_advance, hrest]
    simp
  have htext : Octet.toText (Octet.ofText text) = text :=
    Octet.toText_ofText_of_all (fun _ hb => Octet.isChar_lt (Octet.isChar_of_isQuotable hb)) hall
  rw [quoted, bind_of_ok (expect_of_rest hc.steady hrest), Cursor.after_plain]
  change quotedRest (TextDecoder.new cs) [] _ = _
  rw [quotedRest_escape hcs _ (hc.steady.advance 1) (TextDecoder.behind_new cs) hall rfl hrest',
    Cursor.advance_advance]
  have hlength : (Octet.quote :: (Written.escape (Octet.ofText text) ++ [Octet.quote])).length =
      1 + ((Written.escape (Octet.ofText text)).length + 1) := by
    simp [Nat.add_comm]
  rw [hlength]
  exact congrArg (fun s => (Except.ok s, _)) htext

end Decoder

/-! ### Literals -/

/-- Whether the client pauses before the data of a literal. -/
def LiteralMode.pause : LiteralMode → List Sent
  | onRequest => [.pause]
  | atOnce => []

namespace Written

/-- Octets as a literal of either kind, if they are not more than `limit` and none is NUL. -/
def literal (limit : Nat) (data : List UInt8) : Language Sent :=
  fun t => ∃ (mode : LiteralMode) (ds : List UInt8), Decimal.IsNumber ds data.length ∧
    data.length ≤ limit ∧ data.all Octet.isChar8 = true ∧
    t = plain (mode.announced ds ++ [Octet.cr, Octet.lf]) ++ (mode.pause ++ plain data)

/-- A text as a literal. -/
def literalText (limit : Nat) (text : String) : Language Sent :=
  fun t => (Octet.ofText text).all Octet.isChar = true ∧ t ∈ literal limit (Octet.ofText text)

/-- A text in double quotes or as a literal. -/
def string (limit : Nat) (text : String) : Language Sent := quoted text + literalText limit text

/-- A text as a word of some class, in double quotes or as a literal. -/
def wordOrString (p : UInt8 → Bool) (limit : Nat) (text : String) : Language Sent :=
  word p text + string limit text

/-- A text in any form. -/
def astring (limit : Nat) (text : String) : Language Sent :=
  wordOrString Octet.isAstringChar limit text

end Written

namespace Decoder

theorem literalData_of_rest {c : Cursor} {data s : List UInt8} (hc : c.Steady)
    (hrest : c.rest = data ++ s) (hdata : data.all Octet.isChar8 = true) :
    literalData data.length c = (.ok data, c.advance data.length) := by
  rcases literalData_apply hc hrest with ⟨-, hrun⟩ | ⟨i, hi, -⟩
  · exact hrun
  · exact absurd (List.all_eq_true.1 hdata 0 (List.mem_of_getElem? hi)) (by decide)

theorem literalOctets_reads (ctx : Context) (data : List UInt8) :
    Reads (literalOctets ctx) (Written.literal ctx.maxLiteral data) Anything data := by
  rintro t ⟨mode, ds, hds, hle, hdata, rfl⟩ s _ c hc hrest
  have hrest₁ : c.rest = mode.announced ds ++ (Octet.cr :: Octet.lf :: (data ++ s)) := by
    rw [hrest]
    cases mode <;> simp [LiteralMode.pause, octets]
  have hc₁ := hc.advance (mode.announced ds).length
  have hrest₂ : (c.advance (mode.announced ds).length).rest =
      Octet.cr :: Octet.lf :: (data ++ s) := Cursor.rest_advance_append hrest₁
  have hline : announcement ctx c =
      (.ok (data.length, mode), c.advance ((mode.announced ds).length + 2)) := by
    rw [announcement_of_number ctx hc.steady hrest₁ hds, if_neg (Nat.not_lt.2 hle),
      bind_of_ok (eol_of_crlf hc₁.steady hrest₂), Cursor.advance_advance]
    rfl
  have hc₂ := hc.advance ((mode.announced ds).length + 2)
  have hrest₃ : (c.advance ((mode.announced ds).length + 2)).rest = data ++ s := by
    rw [← Cursor.advance_advance, Cursor.rest_advance, hrest₂]
    rfl
  have hafter : c.after (plain (mode.announced ds ++ [Octet.cr, Octet.lf])) =
      c.advance ((mode.announced ds).length + 2) := by
    rw [Cursor.after_plain, List.length_append]
    rfl
  rw [literalOctets_eq, bind_of_ok hline, Cursor.after_append, Cursor.after_append, hafter]
  cases mode with
  | onRequest =>
    -- The client is asked exactly where it pauses.
    have hask : request (c.advance ((LiteralMode.onRequest.announced ds).length + 2)) =
        (.ok (), (c.advance ((LiteralMode.onRequest.announced ds).length + 2)).asked) := by
      simp only [request, ofIo, Cursor.request_of_listens hc₂]
      rfl
    change (request >>= fun _ => literalData data.length) _ = _
    rw [bind_of_ok hask, literalData_of_rest hc₂.asked.steady hrest₃ hdata, Cursor.after_plain]
    rfl
  | atOnce =>
    change literalData data.length _ = _
    rw [literalData_of_rest hc₂.steady hrest₃ hdata, Cursor.after_plain]
    rfl

theorem literal_reads {ctx : Context} (hctx : ctx.charset.ReadsAscii) (text : String) :
    Reads (literal ctx) (Written.literalText ctx.maxLiteral text) Anything text := by
  rintro t ⟨hall, ht⟩ s hs c hc hrest
  have htext : Octet.toText (Octet.ofText text) = text :=
    Octet.toText_ofText_of_all (fun _ hb => Octet.isChar_lt hb) hall
  rw [literal, bind_of_ok (literalOctets_reads ctx _ t ht s hs c hc hrest), hctx.decode hall, htext]
  rfl

end Decoder

namespace Starts

theorem quoted (text : String) : Starts (· = Octet.quote) (Written.quoted text) := by
  rintro t ⟨-, rfl⟩
  exact ⟨_, _, octets_plain _, rfl⟩

theorem literal (limit : Nat) (data : List UInt8) :
    Starts (· = Octet.lbrace) (Written.literal limit data) := by
  rintro t ⟨mode, ds, -, -, -, rfl⟩
  refine ⟨Octet.lbrace, ds ++ (mode.sign ++ [Octet.rbrace]) ++ [Octet.cr, Octet.lf] ++
    octets (mode.pause ++ plain data), ?_, rfl⟩
  rw [octets_append, octets_plain]
  rfl

theorem literalText (limit : Nat) (text : String) :
    Starts (· = Octet.lbrace) (Written.literalText limit text) :=
  fun t ht => literal limit _ t ht.2

theorem word (p : UInt8 → Bool) (text : String) : Starts (p · = true) (Written.word p text) := by
  rintro t ⟨hne, hall, rfl⟩
  obtain ⟨b, bs, hbs⟩ := List.exists_cons_of_ne_nil hne
  refine ⟨b, bs, by rw [octets_plain, hbs], ?_⟩
  rw [hbs, List.all_cons, Bool.and_eq_true] at hall
  exact hall.1

end Starts

/-- The octets of a class of words have no meaning of their own. -/
structure Octet.IsWordClass (p : UInt8 → Bool) : Prop where
  lt : ∀ b, p b = true → b < 0x80
  quote : p quote = false
  lbrace : p lbrace = false
  sp : p sp = false
  rparen : p rparen = false
  cr : p cr = false

namespace Decoder

variable {ctx : Context} {p : UInt8 → Bool}

theorem wordOrString_reads (hp : Octet.IsWordClass p) (hctx : ctx.charset.ReadsAscii)
    (expected text : String) :
    Reads (wordOrString p expected ctx) (Written.wordOrString p ctx.maxLiteral text)
      Delimited text := by
  refine Reads.add (Reads.look (Starts.word p text) fun b hb => ?_) (Reads.add
    (Reads.look (Starts.quoted text) ?_) (Reads.look (Starts.literalText _ text) ?_))
  · have hquote : b ≠ Octet.quote := by
      rintro rfl
      rw [hp.quote] at hb
      exact absurd hb (by decide)
    have hbrace : b ≠ Octet.lbrace := by
      rintro rfl
      rw [hp.lbrace] at hb
      exact absurd hb (by decide)
    rw [if_neg (by simpa using hquote), if_neg (by simpa using hbrace)]
    rintro t ht
    have hread := (word_reads expected).map Octet.toText t ht
    rw [Octet.toText_ofText_of_all hp.lt ht.2.1] at hread
    exact fun s hs => hread s (hs.stops hp.sp hp.rparen hp.cr)
  · rintro _ rfl
    exact (quoted_reads hctx text).anywhere
  · rintro _ rfl
    exact (literal_reads hctx text).anywhere

theorem isWordClass_astringChar : Octet.IsWordClass Octet.isAstringChar where
  lt := Octet.forall_octet (by decide +kernel)
  quote := rfl
  lbrace := rfl
  sp := rfl
  rparen := rfl
  cr := rfl

theorem astring_reads (hctx : ctx.charset.ReadsAscii) (text : String) :
    Reads (astring ctx) (Written.astring ctx.maxLiteral text) Delimited text :=
  wordOrString_reads isWordClass_astringChar hctx _ text

end Decoder

/-! ### Character sets -/

namespace Written

/-- One of the labels of a character set. -/
def charset (limit : Nat) (c : Charset) : Language Sent :=
  fun t => ∃ label, Charset.ofLabel? (Octet.ofText label) = some c ∧ t ∈ astring limit label

end Written

namespace Decoder

theorem charset_reads (ctx : Context) (c : Charset) :
    Reads (charset ctx) (Written.charset ctx.maxLiteral c) Delimited c := by
  rintro t ⟨label, hlabel, ht⟩ s hs d hd hrest
  have hread := @astring_reads { ctx with charset := .usAscii } Charset.usAscii_readsAscii
    label t ht s hs d hd hrest
  rw [charset, bind_of_ok hread]
  simp only [hlabel]
  rfl

end Decoder

/-! ### Texts that can be rendered -/

/-- A text in US-ASCII without NUL.  One with a line break has to fit in a literal. -/
def Text.Expressible (limit : Nat) (text : String) : Prop :=
  (Octet.ofText text).all Octet.isChar = true ∧
    ((Octet.ofText text).any Octet.isLineBreak = true →
      (Octet.ofText text).length ≤ limit ∧ (Octet.ofText text).length ≤ Decimal.maxNumber)

namespace Possible

theorem number {n : Nat} (hn : n ≤ Decimal.maxNumber) : Possible (Written.number n) := by
  obtain ⟨ds, hds, -⟩ := Decimal.exists_isNumber n hn
  exact ⟨_, ds, hds, rfl⟩

theorem literal {limit : Nat} {data : List UInt8} (hlimit : data.length ≤ limit)
    (hmax : data.length ≤ Decimal.maxNumber) (hdata : data.all Octet.isChar8 = true) :
    Possible (Written.literal limit data) := by
  obtain ⟨ds, hds, -⟩ := Decimal.exists_isNumber _ hmax
  exact ⟨_, .onRequest, ds, hds, hlimit, hdata, rfl⟩

theorem wordOrString {p : UInt8 → Bool} {limit : Nat} {text : String}
    (h : Text.Expressible limit text) : Possible (Written.wordOrString p limit text) := by
  refine add_right _ ?_
  cases hbreak : (Octet.ofText text).any Octet.isLineBreak with
  | true =>
    obtain ⟨hlimit, hmax⟩ := h.2 hbreak
    have hchar8 : (Octet.ofText text).all Octet.isChar8 = true := by
      refine List.all_eq_true.2 fun b hb => ?_
      exact Octet.isChar8_of_isChar b (List.all_eq_true.1 h.1 b hb)
    obtain ⟨t, ht⟩ := literal hlimit hmax hchar8
    exact add_right _ ⟨t, h.1, ht⟩
  | false =>
    refine add_left ?_ _
    refine ⟨_, List.all_eq_true.2 fun b hb => ?_, rfl⟩
    have hb' : Octet.isLineBreak b = false := by
      simpa using List.any_eq_false.1 hbreak b hb
    rw [Written.isQuotable, List.all_eq_true.1 h.1 b hb, hb']
    rfl

end Possible

end ImapRequest
