import ImapRequest.Proofs.Grammar.Basic
import ImapRequest.Proofs.Pieces

/-!
# The grammars of values

Numbers, words, strings, sets and dates are decoded exactly.  A string may be written in three
forms; whichever it is, its value is the text of its octets, also of a quoted string that is read in
pieces.

* `Quoted`, `Literal`, `AString` : the grammars of strings;
* `SequenceSet.Spelled`, `Date.Spelled` : the grammars of tokens that are read as a whole;
* `Decoder.number_recognizes`, `Decoder.astring_recognizes` and the lemmas around them : what the
  decoders recognize.
-/

namespace ImapRequest

namespace Decoder

/-! ### Numbers -/

/-- A number is read just where its digits stand and an octet that may follow it, or nothing. -/
theorem number_eq_ok_iff {c e : Cursor} {n : Nat} (hc : c.Steady) : number c = (.ok n, e) ↔
    ∃ ds s, Decimal.IsNumber ds n ∧ NumberEnds s ∧ c.rest = ds ++ s ∧ e = c.advance ds.length := by
  constructor
  · intro h
    rw [number] at h
    obtain ⟨m, d, hdigits, hrun⟩ := exists_of_bind h
    obtain ⟨ds, s, hrest, hds, rfl⟩ := rest_of_digits hc hdigits
    have hc' := hc.advance ds.length
    have hrest' : (c.advance ds.length).rest = s := Cursor.rest_advance_append hrest
    rw [bind_of_ok (isConsumed_apply hc'), hrest'] at hrun
    -- What is looked at behind the digits is left where it is.
    have hend : NumberEnds s ∧ m = n ∧ c.advance ds.length = e := by
      cases s with
      | nil => exact ⟨fun b hb => by simp at hb, by simpa [pure_apply] using hrun⟩
      | cons b s =>
        simp only [List.isEmpty_cons, Bool.false_eq_true, ↓reduceIte] at hrun
        rw [bind_of_ok (peek_of_rest hc' hrest')] at hrun
        split at hrun
        · rename_i hb
          refine ⟨fun b' hb' => ?_, by simpa [pure_apply] using hrun⟩
          obtain rfl : b = b' := Option.some.inj hb'
          exact hb
        · simp [unexpected, reject, fail] at hrun
    obtain ⟨hs, rfl, rfl⟩ := hend
    exact ⟨ds, s, hds, hs, hrest, rfl⟩
  · rintro ⟨ds, s, hds, hs, hrest, rfl⟩
    exact number_of_isNumber hc hds hs hrest

theorem number_recognizes : Recognizes number Decimal.IsNumber NumberEnds := by
  intro c
  refine .of_advance (fun n e hc hrun => ?_) fun w s n hc hw hs hrest => ?_
  · obtain ⟨ds, s, hds, -, hrest, he⟩ := (number_eq_ok_iff hc).1 hrun
    exact ⟨ds, s, hds, hrest, he⟩
  · exact number_of_isNumber hc hw hs hrest

theorem positive_recognizes :
    Recognizes positive (fun w n => Decimal.IsNumber w n ∧ n ≠ 0) NumberEnds := by
  refine (number_recognizes.check (P := fun m n => m ≠ 0 ∧ n = m) fun m c => ?_).congr fun w n => ?_
  · by_cases hm : m = 0
    · rw [if_pos hm]
      exact .reject fun w n h => h.2.1 hm
    · rw [if_neg hm]
      exact (RecognizesAt.pure m).congr fun w s n _ => by simp [hm]
  · constructor
    · rintro ⟨m, hw, hm, rfl⟩
      exact ⟨hw, hm⟩
    · rintro ⟨hw, hn⟩
      exact ⟨n, hw, hn, rfl⟩

end Decoder

/-! ### Strings -/

/-- What stands between the quotes of a string, and the octets that it stands for.  A quote or a
backslash stands behind a backslash. -/
inductive Unescapes : List UInt8 → List UInt8 → Prop
  | nil : Unescapes [] []
  | plain {b : UInt8} {body bs : List UInt8} (hb : Decoder.isQuotedPlain b = true)
    (h : Unescapes body bs) : Unescapes (b :: body) (b :: bs)
  | escaped {b : UInt8} {body bs : List UInt8} (hb : Octet.isQuotedSpecial b = true)
    (h : Unescapes body bs) : Unescapes (Octet.backslash :: b :: body) (b :: bs)

/-- A text in double quotes. -/
def Quoted (charset : Charset) (w : List UInt8) (text : String) : Prop :=
  ∃ body bs, Unescapes body bs ∧ charset.decode bs = .ok text ∧
    w = Octet.quote :: (body ++ [Octet.quote])

/-- Octets as a literal, announced with their number. -/
def Literal (ctx : Context) (w data : List UInt8) : Prop :=
  ∃ mode line, Decoder.Announces ctx.maxLiteral ctx.leniency mode data.length line ∧
    data.all Octet.isChar8 = true ∧ w = line ++ data

/-- A text as a word of some class, in double quotes or as a literal. -/
inductive WordOrString (p : UInt8 → Bool) (ctx : Context) : List UInt8 → String → Prop
  | word {w : List UInt8} (hne : w ≠ []) (hw : w.all p = true) :
    WordOrString p ctx w (Octet.toText w)
  | quoted {w : List UInt8} {text : String} (h : Quoted ctx.charset w text) :
    WordOrString p ctx w text
  | literal {w data : List UInt8} {text : String} (h : Literal ctx w data)
    (htext : ctx.charset.decode data = .ok text) : WordOrString p ctx w text

/-- A text as a word of an argument, in double quotes or as a literal. -/
def AString (ctx : Context) : List UInt8 → String → Prop := WordOrString Octet.isAstringChar ctx

namespace Cursor

/-- Where the data of a literal is read: the client was asked for it, where it waits. -/
def prompted (c : Cursor) : LiteralMode → Cursor
  | .onRequest => c.asked
  | .atOnce => c

/-- The client can be asked for the data, where it waits. -/
def Grants (c : Cursor) (mode : LiteralMode) : Prop :=
  mode = .onRequest → Decoder.request c = (.ok (), c.asked)

theorem Reaches.prompted (c : Cursor) (mode : LiteralMode) : c.Reaches [] (c.prompted mode) := by
  cases mode with
  | onRequest => exact .asked c
  | atOnce => exact .refl c

namespace Listens

variable {c : Cursor}

theorem prompted (h : c.Listens) (mode : LiteralMode) : (c.prompted mode).Listens := by
  cases mode with
  | onRequest => exact h.asked
  | atOnce => exact h

theorem grants (h : c.Listens) (mode : LiteralMode) : c.Grants mode := by
  intro _
  simp only [Decoder.request, Decoder.ofIo, request_of_listens h]
  rfl

end Listens

end Cursor

namespace Decoder

variable {α : Type} {F : List UInt8 → Prop}

/-! ### Quoted strings -/

/-- One item of a quoted string, unless it is the closing quote. -/
inductive QuotedItem : List UInt8 → Option UInt8 → Prop
  | close : QuotedItem [Octet.quote] none
  | plain {b : UInt8} (hb : isQuotedPlain b = true) : QuotedItem [b] (some b)
  | escaped {b : UInt8} (hb : Octet.isQuotedSpecial b = true) :
    QuotedItem [Octet.backslash, b] (some b)

/-- Reading one item stops behind it, or before it but for a backslash. -/
theorem quotedItem_cases {c : Cursor} (hc : c.Steady) :
    (∃ w s item, QuotedItem w item ∧ c.rest = w ++ s ∧
      quotedItem c = (.ok item, c.advance w.length)) ∨
    ∃ w s failure, (w = [] ∨ w = [Octet.backslash]) ∧ c.rest = w ++ s ∧
      quotedItem c = (.error failure, c.advance w.length) := by
  cases hrest : c.rest with
  | nil =>
    obtain ⟨io, hio⟩ := quotedItem_of_nil hrest
    exact Or.inr ⟨[], [], .io io, Or.inl rfl, rfl, hio⟩
  | cons b s =>
    by_cases hquote : b = Octet.quote
    · subst hquote
      exact Or.inl ⟨_, s, none, .close, rfl, quotedItem_of_quote hc hrest⟩
    by_cases hbackslash : b = Octet.backslash
    · subst hbackslash
      cases s with
      | nil =>
        obtain ⟨io, hio⟩ := quotedItem_of_backslash hc hrest
        exact Or.inr ⟨[Octet.backslash], [], .io io, Or.inr rfl, rfl, hio⟩
      | cons b s =>
        cases hb : Octet.isQuotedSpecial b with
        | true => exact Or.inl ⟨_, s, some b, .escaped hb, rfl, quotedItem_of_escape hc hrest hb⟩
        | false =>
          exact Or.inr ⟨[Octet.backslash], b :: s, _, Or.inr rfl, rfl,
            quotedItem_of_bad_escape hc hrest hb⟩
    by_cases hbreak : Octet.isLineBreak b = true ∨ b = 0
    · exact Or.inr ⟨[], b :: s, _, Or.inl rfl, rfl, quotedItem_of_break hc hrest hbreak⟩
    · have hb := isQuotedPlain_of_not hquote hbackslash hbreak
      exact Or.inl ⟨[b], s, some b, .plain hb, rfl, quotedItem_of_plain hc hrest hb⟩

theorem quotedItem_recognizes : Recognizes quotedItem QuotedItem F := by
  intro c
  refine .of_advance (fun item e hc hrun => ?_) ?_
  · rcases quotedItem_cases hc with ⟨w, s, item', hw, hrest, h⟩ | ⟨w, s, failure, -, -, h⟩
    · obtain ⟨rfl, rfl⟩ : item' = item ∧ c.advance w.length = e := by simpa [h] using hrun
      exact ⟨w, s, hw, hrest, rfl⟩
    · simp [h] at hrun
  · rintro _ s _ hc (_ | hb | hb) - hrest
    · exact quotedItem_of_quote hc hrest
    · exact quotedItem_of_plain hc hrest hb
    · exact quotedItem_of_escape hc hrest hb

/-- The rest of a quoted string after the text in `d` and the octets of an unfinished piece. -/
def QuotedRest (d : TextDecoder) (piece w : List UInt8) (text : String) : Prop :=
  ∃ body bs, Unescapes body bs ∧ (·.finish) <$> d.feed (piece ++ bs) true = .ok text ∧
    w = body ++ [Octet.quote]

/-- What follows one item of a quoted string. -/
def QuotedAfter (d : TextDecoder) (piece : List UInt8) : Option UInt8 → List UInt8 → String → Prop
  | none, w, text => w = [] ∧ (·.finish) <$> d.feed piece true = .ok text
  | some b, w, text => QuotedRest d (piece ++ [b]) w text

theorem quotedRest_iff {d : TextDecoder} {piece w : List UInt8} {text : String} :
    InOrder QuotedItem (QuotedAfter d piece) w text ↔ QuotedRest d piece w text := by
  constructor
  · rintro ⟨u, item, v, hitem, hafter, rfl⟩
    cases hitem with
    | close =>
      obtain ⟨rfl, htext⟩ := hafter
      exact ⟨[], [], .nil, by rwa [List.append_nil], rfl⟩
    | @plain b hb =>
      obtain ⟨body, bs, hbody, htext, rfl⟩ := hafter
      exact ⟨b :: body, b :: bs, .plain hb hbody, by rwa [List.append_cons], rfl⟩
    | @escaped b hb =>
      obtain ⟨body, bs, hbody, htext, rfl⟩ := hafter
      exact ⟨Octet.backslash :: b :: body, b :: bs,
        .escaped hb hbody, by rwa [List.append_cons], rfl⟩
  · rintro ⟨body, bs, hbody, htext, rfl⟩
    cases hbody with
    | nil =>
      rw [List.append_nil] at htext
      exact ⟨_, none, [], .close, ⟨rfl, htext⟩, rfl⟩
    | @plain b body bs hb hbody =>
      rw [List.append_cons] at htext
      exact ⟨_, some b, _, .plain hb, ⟨body, bs, hbody, htext, rfl⟩, rfl⟩
    | @escaped b body bs hb hbody =>
      rw [List.append_cons] at htext
      exact ⟨_, some b, _, .escaped hb, ⟨body, bs, hbody, htext, rfl⟩, rfl⟩

theorem feed_recognizes (d : TextDecoder) (piece : List UInt8) (last : Bool) :
    Recognizes (feed d piece last) (fun w d' => w = [] ∧ d.feed piece last = .ok d') F := by
  intro c
  refine (RecognizesAt.ofExcept _).congr fun w s d' _ => ?_
  cases d.feed piece last <;> simp [Except.mapError]

/-- Whatever pieces it is read in, a quoted string is the text of its octets.  By induction on the
octets that are left. -/
theorem quotedRest_recognizesAt (n : Nat) : ∀ {c : Cursor} (d : TextDecoder) (piece : List UInt8),
    c.rest.length < n → RecognizesAt (quotedRest d piece) (QuotedRest d piece) F c := by
  induction n with
  | zero => exact fun d piece hn => absurd hn (Nat.not_lt_zero _)
  | succ n ih =>
    intro c d piece hn
    refine .of_eq (y := quotedItem >>= quotedAfter d piece) ?_ fun hc => quotedRest_apply hc d piece
    refine ((quotedItem_recognizes c).bind (F := Anything) (fun item e hc hitem => ?_)
      fun _ _ _ _ _ _ => trivial).congr fun w s text _ => quotedRest_iff
    cases item with
    | none =>
      refine ((feed_recognizes d piece true).map (·.finish) e).congr fun w s text _ => ?_
      rw [QuotedAfter]
      cases d.feed piece true <;> simp [eq_comm]
    | some b =>
      have hlt : e.rest.length < c.rest.length := length_lt_of_quotedItem hc hitem
      rw [quotedAfter]
      split
      · refine ((feed_recognizes d (piece ++ [b]) false e).bind (F := Anything)
          (S := fun d' => QuotedRest d' []) (fun d' e' _ hfeed => ?_)
          fun _ _ _ _ _ _ => trivial).congr fun w s text _ => ?_
        · obtain rfl : e = e' := by simpa [hfeed] using (feed_snd d (piece ++ [b]) false e).symm
          exact ih d' [] (by omega)
        · -- A piece that is complete goes on into the next one.
          constructor
          · rintro ⟨_, d', v, ⟨rfl, hd'⟩, ⟨body, bs, hbody, htext, rfl⟩, rfl⟩
            refine ⟨body, bs, hbody, ?_, rfl⟩
            rw [TextDecoder.finish_feed_append, hd']
            exact htext
          · rintro ⟨body, bs, hbody, htext, rfl⟩
            rw [TextDecoder.finish_feed_append] at htext
            cases hd' : d.feed (piece ++ [b]) false with
            | error error => simp [hd', Bind.bind, Except.bind] at htext
            | ok d' =>
              rw [hd'] at htext
              exact ⟨[], d', _, ⟨rfl, rfl⟩, ⟨body, bs, hbody, htext, rfl⟩, rfl⟩
      · exact ih d _ (by omega)

theorem quoted_recognizes (charset : Charset) : Recognizes (quoted charset) (Quoted charset) F := by
  have hrest : Recognizes (quotedRest (TextDecoder.new charset) [])
      (QuotedRest (TextDecoder.new charset) []) F :=
    fun c => quotedRest_recognizesAt _ _ _ (Nat.lt_succ_self _)
  refine (hrest.behind Octet.quote).congr fun w text => ?_
  constructor
  · rintro ⟨_, ⟨body, bs, hbody, htext, rfl⟩, rfl⟩
    exact ⟨body, bs, hbody, htext, rfl⟩
  · rintro ⟨body, bs, hbody, htext, rfl⟩
    exact ⟨_, ⟨body, bs, hbody, htext, rfl⟩, rfl⟩

/-! ### Literals -/

/-- What becomes of a literal whose data is all there. -/
theorem literalOctets_of_grants (ctx : Context) {c : Cursor} {mode : LiteralMode}
    {line data s : List UInt8} (hc : c.Steady)
    (hline : Announces ctx.maxLiteral ctx.leniency mode data.length line)
    (hrest : c.rest = line ++ (data ++ s)) (hgrants : (c.advance line.length).Grants mode) :
    (0 ∉ data ∧ literalOctets ctx c =
      (.ok data, ((c.advance line.length).prompted mode).advance data.length)) ∨
    ∃ i, data[i]? = some 0 ∧ literalOctets ctx c = (.error (.rejected (.nulInLiteral i)),
      ((c.advance line.length).prompted mode).advance data.length) := by
  have hreaches : c.Reaches (line ++ []) ((c.advance line.length).prompted mode) :=
    (Cursor.Reaches.front hrest).trans (.prompted _ mode)
  rw [List.append_nil] at hreaches
  have hrun : literalOctets ctx c =
      literalData data.length ((c.advance line.length).prompted mode) := by
    rw [literalOctets_eq, bind_of_ok (announcement_of_announces hc hline hrest)]
    cases mode with
    | atOnce => rfl
    | onRequest => exact bind_of_ok (hgrants rfl)
  rw [hrun]
  exact literalData_apply (hreaches.steady hc) (hreaches.rest_eq_of hrest)

theorem literalOctets_recognizes (ctx : Context) :
    Recognizes (literalOctets ctx) (Literal ctx) F := by
  intro c
  constructor
  · intro data e hc hrun
    obtain ⟨mode, line, hline, hreaches, hdata⟩ := rest_of_literalOctets ctx hc hrun
    exact ⟨_, ⟨mode, line, hline, hdata, rfl⟩, hreaches⟩
  · rintro _ s data hc ⟨mode, line, hline, hdata, rfl⟩ - hrest
    rw [List.append_assoc] at hrest
    have hd := hc.advance line.length
    have hreaches : c.Reaches line ((c.advance line.length).prompted mode) := by
      simpa using (Cursor.Reaches.front hrest).trans (.prompted _ mode)
    have hrest' := hreaches.rest_eq_of hrest
    rcases literalOctets_of_grants ctx hc.steady hline hrest (hd.grants mode) with
      ⟨-, hrun⟩ | ⟨i, hi, -⟩
    · exact ⟨_, hrun, hreaches.trans (.front hrest'), (hd.prompted mode).advance _⟩
    · exact absurd (List.all_eq_true.1 hdata 0 (List.mem_of_getElem? hi)) (by decide)

theorem literal_recognizes (ctx : Context) : Recognizes (literal ctx)
    (fun w text => ∃ data, Literal ctx w data ∧ ctx.charset.decode data = .ok text) F := by
  refine (literalOctets_recognizes ctx).check fun data c => ?_
  refine (RecognizesAt.ofExcept _).congr fun w s text _ => ?_
  cases ctx.charset.decode data <;> simp [Except.mapError]

/-! ### Strings in any form -/

/-- The first octet of a literal. -/
theorem exists_cons_of_literal {ctx : Context} {w data : List UInt8} (h : Literal ctx w data) :
    ∃ v, w = Octet.lbrace :: v := by
  obtain ⟨mode, line, hline, -, rfl⟩ := h
  obtain ⟨ds, brk, rfl, -⟩ := hline.exists_eq
  exact ⟨_, rfl⟩

theorem ne_nil_of_literal {ctx : Context} {w data : List UInt8} (h : Literal ctx w data) :
    w ≠ [] := by
  obtain ⟨v, rfl⟩ := exists_cons_of_literal h
  exact List.cons_ne_nil _ _

theorem ne_nil_of_quoted {charset : Charset} {w : List UInt8} {text : String}
    (h : Quoted charset w text) : w ≠ [] := by
  obtain ⟨body, bs, -, -, rfl⟩ := h
  exact List.cons_ne_nil _ _

theorem WordOrString.ne_nil {p : UInt8 → Bool} {ctx : Context} {w : List UInt8} {text : String}
    (h : WordOrString p ctx w text) : w ≠ [] := by
  cases h with
  | word hne => exact hne
  | quoted h => exact ne_nil_of_quoted h
  | literal h => exact ne_nil_of_literal h

/-- The first octet tells the three forms apart. -/
theorem wordOrString_recognizes {p : UInt8 → Bool} (hquote : p Octet.quote = false)
    (hbrace : p Octet.lbrace = false) (expected : String) (ctx : Context) :
    Recognizes (wordOrString p expected ctx) (WordOrString p ctx) (Stops p) := by
  intro c
  refine .look (fun w text => WordOrString.ne_nil) fun b s hrest => ?_
  by_cases hb : b = Octet.quote
  · subst hb
    refine (quoted_recognizes ctx.charset c).congr_cons hrest (fun _ _ => ne_nil_of_quoted)
      (fun _ _ => WordOrString.ne_nil) fun v text => ⟨.quoted, ?_⟩
    rintro (⟨-, hall⟩ | h | ⟨h, -⟩)
    · simp [hquote] at hall
    · exact h
    · obtain ⟨v, hv⟩ := exists_cons_of_literal h
      exact absurd (List.cons.inj hv).1 (by decide)
  by_cases hb' : b = Octet.lbrace
  · subst hb'
    refine (literal_recognizes ctx c).congr_cons hrest
      (fun _ _ ⟨_, h, _⟩ => ne_nil_of_literal h) (fun _ _ => WordOrString.ne_nil) fun v text => ?_
    refine ⟨fun ⟨data, h, htext⟩ => .literal h htext, ?_⟩
    rintro (⟨-, hall⟩ | ⟨body, bs, -, -, hv⟩ | ⟨h, htext⟩)
    · simp [hbrace] at hall
    · exact absurd (List.cons.inj hv).1 (by decide)
    · exact ⟨_, h, htext⟩
  rw [if_neg (by simpa using hb), if_neg (by simpa using hb')]
  refine ((takeWhile1_recognizes p expected).map Octet.toText c).congr_cons hrest
    (fun _ _ ⟨_, ⟨_, hne, _⟩, _⟩ => hne) (fun _ _ => WordOrString.ne_nil) fun v text => ?_
  rw [exists_run_iff]
  constructor
  · rintro ⟨hne, hall, rfl⟩
    exact .word hne hall
  · rintro (⟨hne, hall⟩ | ⟨body, bs, -, -, hv⟩ | ⟨h, -⟩)
    · exact ⟨hne, hall, rfl⟩
    · exact absurd (List.cons.inj hv).1 hb
    · obtain ⟨v, hv⟩ := exists_cons_of_literal h
      exact absurd (List.cons.inj hv).1 hb'

theorem astring_recognizes (ctx : Context) :
    Recognizes (astring ctx) (AString ctx) (Stops Octet.isAstringChar) :=
  wordOrString_recognizes rfl rfl "astring" ctx

end Decoder

/-! ### Character sets -/

/-- One of the labels of a character set. -/
def Charset.Spelled (ctx : Context) (w : List UInt8) (charset : Charset) : Prop :=
  ∃ label, AString { ctx with charset := .usAscii } w label ∧
    Charset.ofLabel? (Octet.ofText label) = some charset

namespace Decoder

theorem charset_recognizes (ctx : Context) :
    Recognizes (charset ctx) (Charset.Spelled ctx) (Stops Octet.isAstringChar) := by
  refine (astring_recognizes { ctx with charset := .usAscii }).check fun label c => ?_
  split
  · rename_i charset hlabel
    exact (RecognizesAt.pure charset).congr fun w s charset' _ => by simp [hlabel, eq_comm]
  · rename_i hlabel
    exact .reject (by simp [hlabel])

end Decoder

/-! ### Words -/

/-- A keyword is read in upper case. -/
theorem Decoder.keyword_recognizes : Recognizes keyword (fun w word => w ≠ [] ∧
    w.all Octet.isKeywordChar = true ∧ word = Octet.toText (w.map Octet.upper))
    (Stops Octet.isKeywordChar) :=
  ((takeWhile1_recognizes Octet.isKeywordChar "keyword").map
    fun bs : List UInt8 => Octet.toText (bs.map Octet.upper)).congr fun _ _ => exists_run_iff

/-- A keyword is read as the word that it spells in some letter case. -/
theorem Decoder.sameLetters_of_keyword {u : List UInt8} (hu : u.all Octet.isKeywordChar = true) :
    Octet.sameLetters u (Octet.ofText (Octet.toText (u.map Octet.upper))) = true := by
  have hupper : ∀ b, Octet.upper (Octet.upper b) = Octet.upper b :=
    Octet.forall_octet (by decide +kernel)
  rw [Octet.ofText_toText]
  · simp [Octet.sameLetters, hupper]
  · intro b hb
    obtain ⟨a, ha, rfl⟩ := List.mem_map.1 hb
    refine Octet.isKeywordChar_lt _ ?_
    rw [Octet.isKeywordChar_upper]
    exact List.all_eq_true.1 hu a ha

/-- What is behind a keyword is decided by the word that it spells. -/
theorem Decoder.named_recognizes {α : Type} {f : String → Decoder α}
    {S : String → List UInt8 → α → Prop} {F : List UInt8 → Prop}
    (hf : ∀ word, Recognizes (f word) (S word) F)
    (hword : ∀ word v a, S word v a → Octet.IsKeyword word)
    (hend : ∀ word v a s, S word v a → F s → Stops Octet.isKeywordChar (v ++ s)) :
    Recognizes (keyword >>= f) (fun w a => ∃ u word v,
      Octet.sameLetters u (Octet.ofText word) = true ∧ S word v a ∧ w = u ++ v) F := by
  refine (keyword_recognizes.bind hf hend).congr fun w a => ?_
  constructor
  · rintro ⟨u, _, v, ⟨-, hall, rfl⟩, hv, rfl⟩
    exact ⟨u, _, v, sameLetters_of_keyword hall, hv, rfl⟩
  · rintro ⟨u, word, v, hu, hv, rfl⟩
    obtain ⟨hne, hall, htext⟩ := spelling_of_keyword (hword word v a hv) (beq_iff_eq.1 hu)
    exact ⟨u, word, v, ⟨hne, hall, htext.symm⟩, hv, rfl⟩

/-- A keyword is read in any letter case. -/
theorem Decoder.keyword_of_sameLetters {c : Cursor} {u s : List UInt8} {word : String}
    (hword : Octet.IsKeyword word) (hu : Octet.sameLetters u (Octet.ofText word) = true)
    (hs : Stops Octet.isKeywordChar s) (hc : c.Steady) (hrest : c.rest = u ++ s) :
    keyword c = (.ok word, c.advance u.length) := by
  obtain ⟨hne, hall, htext⟩ := spelling_of_keyword hword (beq_iff_eq.1 hu)
  have hrun : takeWhile1 Octet.isKeywordChar "keyword" c = (.ok u, c.advance u.length) :=
    takeWhile1_of_rest hc hrest hne (List.all_eq_true.1 hall) hs
  rw [keyword, bind_of_ok hrun, htext]
  rfl

/-- An atom as it is. -/
def Atom.Spelled (w : List UInt8) (a : Atom) : Prop :=
  w ≠ [] ∧ w.all Octet.isAtomChar = true ∧ a = Atom.ofOctets w

theorem Atom.decode_recognizes : Decoder.Recognizes decode Spelled (Stops Octet.isAtomChar) :=
  ((Decoder.takeWhile1_recognizes Octet.isAtomChar "atom").map Atom.ofOctets).congr
    fun _ _ => Decoder.exists_run_iff

namespace SequenceSet

/-- A token that is a set as a whole. -/
def Spelled (w : List UInt8) (set : SequenceSet) : Prop :=
  w ≠ [] ∧ w.all Octet.isSequenceSetChar = true ∧ ofToken w = .ok set

theorem decode_recognizes : Decoder.Recognizes decode Spelled (Stops Octet.isSequenceSetChar) :=
  ((Decoder.takeWhile1_recognizes Octet.isSequenceSetChar "sequence set").token .sequenceSet
    ofToken).congr fun _ _ => Decoder.exists_run_iff

/-- Where no bound starts there is no set. -/
theorem ofToken_of_not_isRangeStart {b : UInt8} (hb : ¬ IsRangeStart b) (w : List UInt8) :
    ∃ fault, ofToken (b :: w) = .error fault := by
  have hdigit : Octet.isDigit b = false := Bool.eq_false_iff.2 fun h => hb (Or.inl h)
  have hnumber : readNumber (b :: w) = .error (b :: w) := by simp [readNumber, hdigit]
  have hbound : readBound (b :: w) = .error (b :: w) := by
    unfold readBound
    split
    · rename_i heq
      exact absurd (Or.inr (List.cons.inj heq).1) hb
    · exact hnumber
  have hranges : readRanges (b :: w).length (b :: w) = ([], b :: w) := by
    rw [List.length_cons, readRanges, readRange, hbound]
  exact ⟨_, by rw [ofToken, hranges]⟩

theorem Spelled.exists_cons {w : List UInt8} {set : SequenceSet} (h : Spelled w set) :
    ∃ b v, w = b :: v ∧ IsRangeStart b := by
  obtain ⟨hne, -, hset⟩ := h
  obtain ⟨b, v, rfl⟩ := List.exists_cons_of_ne_nil hne
  refine ⟨b, v, rfl, Classical.byContradiction fun hb => ?_⟩
  obtain ⟨fault, hfault⟩ := ofToken_of_not_isRangeStart hb v
  simp [hfault] at hset

end SequenceSet

/-! ### Dates -/

namespace Decoder

theorem quotedToken_recognizes {F : List UInt8 → Prop} :
    Recognizes quotedToken (fun w token => token.all Octet.isUnquoted = true ∧
      w = Octet.quote :: (token ++ [Octet.quote])) F := by
  refine (((takeWhile_recognizes Octet.isUnquoted).closed Octet.quote (Stops.cons rfl)).behind
    Octet.quote).congr fun w token => ?_
  constructor
  · rintro ⟨_, ⟨_, ⟨rfl, hall⟩, rfl⟩, rfl⟩
    exact ⟨hall, rfl⟩
  · rintro ⟨hall, rfl⟩
    exact ⟨_, ⟨token, ⟨rfl, hall⟩, rfl⟩, rfl⟩

end Decoder

namespace Date

/-- The token of a date, in double quotes or not. -/
inductive Token : List UInt8 → List UInt8 → Prop
  | bare {token : List UInt8} (hne : token ≠ []) (hall : token.all Octet.isDateChar = true) :
    Token token token
  | quoted {token : List UInt8} (hall : token.all Octet.isUnquoted = true) :
    Token (Octet.quote :: (token ++ [Octet.quote])) token

/-- A token that is a date as a whole. -/
def Spelled (w : List UInt8) (date : Date) : Prop :=
  ∃ token, Token w token ∧ ofToken token = .ok date

theorem Token.ne_nil {w token : List UInt8} (h : Token w token) : w ≠ [] := by
  cases h with
  | bare hne => exact hne
  | quoted => exact List.cons_ne_nil _ _

theorem decodeOctets_recognizes :
    Decoder.Recognizes decodeOctets Token (Stops Octet.isDateChar) := by
  intro c
  refine .look (fun _ _ => Token.ne_nil) fun b s hrest => ?_
  by_cases hquote : b = Octet.quote
  · subst hquote
    refine (Decoder.quotedToken_recognizes c).congr_cons hrest ?_ (fun _ _ => Token.ne_nil)
      fun v token => ?_
    · rintro _ token ⟨-, rfl⟩
      exact List.cons_ne_nil _ _
    · constructor
      · rintro ⟨hall, hv⟩
        rw [hv]
        exact .quoted hall
      · rintro (⟨-, hall⟩ | hall)
        · exact absurd (List.all_eq_true.1 hall _ (List.mem_cons_self ..)) (by decide)
        · exact ⟨hall, rfl⟩
  · rw [if_neg (by simpa using hquote)]
    refine (Decoder.takeWhile1_recognizes Octet.isDateChar "date" c).congr_cons hrest
      (fun _ _ ⟨_, hne, _⟩ => hne) (fun _ _ => Token.ne_nil) fun v token => ?_
    constructor
    · rintro ⟨rfl, hne, hall⟩
      exact .bare hne hall
    · rintro (⟨hne, hall⟩ | hall)
      · exact ⟨rfl, hne, hall⟩
      · exact absurd rfl hquote

theorem decode_recognizes : Decoder.Recognizes decode Spelled (Stops Octet.isDateChar) := by
  rw [decode_eq]
  exact decodeOctets_recognizes.token .date ofToken

end Date

end ImapRequest
