import ImapRequest.Proofs.Announcement
import ImapRequest.Proofs.Passage

/-!
# Literals beyond the limit that come without waiting

The connection ends at the announcement `{n+}` of a literal beyond the limit, wherever a literal may
stand, as long as `n` is a number of 32 bits.  A longer numeral is rejected at the digit that makes
it too large; then what is left of the line announces nothing, and the octets that were announced
are read as the next request.

* `AcceptsLiteral` : the decoders that read a literal where there is one;
* `Decoder.literalOctets_of_oversized`, `Decoder.literalOctets_of_overflow` : the two ways in which
  a literal beyond the limit ends;
* `Request.oversized_isFatal_iff` : which of them it is.
-/

namespace ImapRequest

open Decoder

/-- The decoders that read a literal where an opening brace stands.  Strings that are read for their
own sake, names of mailboxes, patterns, header fields and character sets are all among them. -/
inductive AcceptsLiteral (ctx : Context) : {α : Type} → Decoder α → Prop
  | literalOctets : AcceptsLiteral ctx (literalOctets ctx)
  | literal (charset : Charset) : AcceptsLiteral ctx (literal { ctx with charset })
  | string (charset : Charset) : AcceptsLiteral ctx (string { ctx with charset })
  | wordOrString (p : UInt8 → Bool) (expected : String) (charset : Charset) :
    AcceptsLiteral ctx (wordOrString p expected { ctx with charset })
  | bind {α β : Type} {x : Decoder α} (hx : AcceptsLiteral ctx x) (f : α → Decoder β) :
    AcceptsLiteral ctx (x >>= f)

namespace Decimal

/-- Digits that make more than 32 bits have a first digit that makes it so. -/
theorem exists_overflow {ds : List UInt8} (hds : ds.all Octet.isDigit = true)
    (hlt : maxNumber < value ds) : ∃ front b left, ds = front ++ b :: left ∧
      front.all Octet.isDigit = true ∧ Octet.isDigit b = true ∧ value front ≤ maxNumber ∧
      maxNumber < value (front ++ [b]) := by
  rcases exists_digits 0 (Nat.zero_le _) ds with ⟨front, s, rfl, hfront, hle, hs⟩ | h
  · -- Nothing stops the digits, so that all of them were read.
    cases s with
    | nil =>
      rw [List.append_nil] at hlt
      exact absurd hle (Nat.not_le.2 hlt)
    | cons b s =>
      have hb := List.all_eq_true.1 hds b (by simp)
      rw [hs b rfl] at hb
      exact absurd hb (by decide)
  · exact h

end Decimal

namespace Decoder

variable {c : Cursor} {ds s : List UInt8} {n : Nat}

/-- A literal beyond the limit ends the connection where its announcement is complete. -/
theorem literalOctets_of_oversized (ctx : Context) (hc : c.Steady)
    (hrest : c.rest = LiteralMode.atOnce.announced ds ++ s) (hds : Decimal.IsNumber ds n)
    (hlimit : ctx.maxLiteral < n) :
    literalOctets ctx c = (.error (.literalTooLarge n ctx.maxLiteral),
      c.advance (LiteralMode.atOnce.announced ds).length) := by
  have hannounced := announcement_of_number ctx hc hrest hds
  rw [if_pos hlimit] at hannounced
  rw [literalOctets_eq]
  exact bind_of_error hannounced

/-- A numeral beyond 32 bits is rejected at one of its digits. -/
theorem literalOctets_of_overflow (ctx : Context) (hc : c.Steady)
    (hrest : c.rest = Octet.lbrace :: (ds ++ s)) (hds : ds.all Octet.isDigit = true)
    (hlt : Decimal.maxNumber < Decimal.value ds) :
    ∃ front left, ds = front ++ left ∧
      literalOctets ctx c = (.error (.rejected (.numberOutOfRange front.length)),
        c.advance (front.length + 1)) := by
  obtain ⟨front, b, left, rfl, hfront, hb, hle, hlt⟩ := Decimal.exists_overflow hds hlt
  refine ⟨front ++ [b], left, by simp, ?_⟩
  have hrest' : (c.advance 1).rest = front ++ b :: (left ++ s) := by
    rw [Cursor.rest_advance, hrest]
    simp
  have hannounced : announcement ctx c =
      (.error (.rejected (.numberOutOfRange (front.length + 1 : Nat))),
        (c.advance 1).advance (front.length + 1)) := by
    rw [announcement_eq, bind_of_ok (expect_of_rest hc hrest)]
    exact bind_of_error (digits_of_lt (hc.advance 1) hrest' hfront hb hle hlt)
  rw [literalOctets_eq, bind_of_error hannounced, Cursor.advance_advance, Nat.add_comm 1,
    List.length_append]
  rfl

end Decoder

namespace AcceptsLiteral

variable {ctx : Context} {α : Type} {x : Decoder α} {c d : Cursor} {f : Failure}

/-- At an opening brace a literal is read first. -/
theorem exists_of_lbrace (hx : AcceptsLiteral ctx x) : ∃ k : List UInt8 → Decoder α,
    ∀ c : Cursor, c.peek = .ok Octet.lbrace → x c = (Decoder.literalOctets ctx >>= k) c := by
  -- The character set of a string matters behind its data only.
  have hliteral (charset : Charset) : ∃ k : List UInt8 → Decoder String, ∀ c : Cursor,
      Decoder.literal { ctx with charset } c = (Decoder.literalOctets ctx >>= k) c :=
    ⟨_, fun c => rfl⟩
  induction hx with
  | literalOctets => exact ⟨pure, fun c _ => by rw [bind_pure]⟩
  | literal charset =>
    obtain ⟨k, hk⟩ := hliteral charset
    exact ⟨k, fun c _ => hk c⟩
  | string charset =>
    obtain ⟨k, hk⟩ := hliteral charset
    refine ⟨k, fun c hc => ?_⟩
    rw [Decoder.string, bind_of_ok (peek_of_peek hc), if_neg (by decide), if_pos (by decide),
      hk]
  | wordOrString p expected charset =>
    obtain ⟨k, hk⟩ := hliteral charset
    refine ⟨k, fun c hc => ?_⟩
    rw [Decoder.wordOrString, bind_of_ok (peek_of_peek hc), if_neg (by decide),
      if_pos (by decide), hk]
  | bind _ f ih =>
    obtain ⟨k, hk⟩ := ih
    refine ⟨fun data => k data >>= f, fun c hc => ?_⟩
    rw [← bind_assoc, bind_apply, hk c hc, ← bind_apply]

/-- Where the literal fails, everything that begins with it does. -/
theorem of_error (hx : AcceptsLiteral ctx x) (hpeek : c.peek = .ok Octet.lbrace)
    (h : Decoder.literalOctets ctx c = (.error f, d)) : x c = (.error f, d) := by
  obtain ⟨k, hk⟩ := hx.exists_of_lbrace
  rw [hk c hpeek, bind_of_error h]

variable {ds s : List UInt8}

theorem of_oversized {n : Nat} (hx : AcceptsLiteral ctx x) (hc : c.Steady)
    (hrest : c.rest = LiteralMode.atOnce.announced ds ++ s) (hds : Decimal.IsNumber ds n)
    (hlimit : ctx.maxLiteral < n) :
    x c = (.error (.literalTooLarge n ctx.maxLiteral),
      c.advance (LiteralMode.atOnce.announced ds).length) :=
  hx.of_error (Cursor.peek_of_rest hc hrest) (literalOctets_of_oversized ctx hc hrest hds hlimit)

theorem of_overflow (hx : AcceptsLiteral ctx x) (hc : c.Steady)
    (hrest : c.rest = LiteralMode.atOnce.announced ds ++ s)
    (hds : ds.all Octet.isDigit = true) (hlt : Decimal.maxNumber < Decimal.value ds) :
    ∃ front left, ds = front ++ left ∧
      x c =
        (.error (.rejected (.numberOutOfRange front.length)), c.advance (front.length + 1)) := by
  have hrest' : c.rest = Octet.lbrace :: (ds ++ (Octet.plus :: Octet.rbrace :: s)) := by
    rw [hrest]
    simp [LiteralMode.announced, LiteralMode.sign]
  obtain ⟨front, left, hsplit, hrun⟩ := literalOctets_of_overflow ctx hc hrest' hds hlt
  exact ⟨front, left, hsplit, hx.of_error (Cursor.peek_of_rest hc hrest') hrun⟩

end AcceptsLiteral

namespace Request

variable {ctx : Context} {c d e : Cursor} {ds w s tail more : List UInt8}

/-- Behind the digits that were read, the announcement announces nothing. -/
theorem length?_after_digits {left : List UInt8} (hleft : left.all Octet.isDigit = true)
    (htail : Octet.IsLineTail tail) :
    (Announcement.none.after (left ++ (Octet.plus :: Octet.rbrace :: tail))).length? = none := by
  refine Option.eq_none_iff_forall_not_mem.2 fun n hn => ?_
  obtain ⟨front, ds, tail', heq, -, -⟩ := Announcement.length?_after.1 hn
  have hmem : Octet.lbrace ∈ left ++ (Octet.plus :: Octet.rbrace :: tail) := by
    rw [heq]
    simp [LiteralMode.announced]
  rcases List.mem_append.1 hmem with hmem | hmem
  · exact absurd (List.all_eq_true.1 hleft _ hmem) (by decide)
  · rcases htail with rfl | rfl <;> exact absurd hmem (by decide)

/-- A request that is rejected within the numeral is discarded with its line, and with nothing
behind the line feed. -/
theorem decode_of_overflow {error : DecodingError} {left : List UInt8}
    (hread : read ctx c = (.error (.rejected error), e)) (he : e.Steady)
    (hleft : left.all Octet.isDigit = true) (htail : Octet.IsLineTail tail)
    (hrest : e.rest = left ++ (Octet.plus :: Octet.rbrace :: tail) ++ Octet.lf :: more) :
    ∃ tag d, decode ctx c = (.ok (.malformed tag error), d) ∧ d.rest = more := by
  have hline : Octet.lf ∉ left ++ (Octet.plus :: Octet.rbrace :: tail) := by
    intro hmem
    rcases List.mem_append.1 hmem with hmem | hmem
    · exact absurd (List.all_eq_true.1 hleft _ hmem) (by decide)
    · rcases htail with rfl | rfl <;> exact absurd hmem (by decide)
  have hdiscard := discardLine_of_none he hrest hline (length?_after_digits hleft htail)
  refine ⟨_, _, by rw [decode_of_rejected hread, discard_of_ok hdiscard], ?_⟩
  rw [Cursor.rest_advance, hrest, List.drop_append, List.drop_of_length_le (by simp)]
  simp

/-- **Literals beyond the limit.**  At the announcement of a literal that comes without waiting and
is beyond the limit, a decoder that reads literals ends the connection exactly if the numeral is one
of 32 bits; otherwise it rejects the request.  So does a request that comes to such a decoder, and
what stands behind the line of a numeral beyond 32 bits is then left for the next request. -/
theorem oversized_isFatal_iff (ctx : Context) (hds : ds.all Octet.isDigit = true)
    (hlimit : ctx.maxLiteral < Decimal.value ds) :
    (∀ {α : Type} {x : Decoder α} {c : Cursor} {s : List UInt8}, AcceptsLiteral ctx x → c.Steady →
      c.rest = LiteralMode.atOnce.announced ds ++ s →
      ∃ f e, x c = (.error f, e) ∧ (f.isFatal = true ↔ Decimal.value ds ≤ Decimal.maxNumber) ∧
        (f.isFatal = true → f = .literalTooLarge (Decimal.value ds) ctx.maxLiteral)) ∧
    ∀ {x : Decoder Command} {c d : Cursor} {w : List UInt8}, AcceptsLiteral ctx x → c.Steady →
      GoesOn (read ctx) c w x d →
      (Decimal.value ds ≤ Decimal.maxNumber → ∀ s,
        ∃ e, decode ctx (c.withRest (w ++ (LiteralMode.atOnce.announced ds ++ s))) =
          (.error (.literalTooLarge (Decimal.value ds) ctx.maxLiteral), e)) ∧
      (Decimal.maxNumber < Decimal.value ds → ∀ tail more, Octet.IsLineTail tail →
        ∃ tag error e, decode ctx (c.withRest
            (w ++ (LiteralMode.atOnce.announced ds ++ (tail ++ Octet.lf :: more)))) =
          (.ok (.malformed tag error), e) ∧ e.rest = more) := by
  have hne : ds ≠ [] := by
    rintro rfl
    exact Nat.not_lt_zero _ hlimit
  refine ⟨fun hx hc hrest => ?_, fun {x c d w} hx hc hgoes => ⟨fun hle s => ?_, ?_⟩⟩
  · rcases Nat.lt_or_ge Decimal.maxNumber (Decimal.value ds) with hlt | hle
    · obtain ⟨front, left, -, hrun⟩ := hx.of_overflow hc hrest hds hlt
      exact ⟨_, _, hrun, by simp [Failure.isFatal, hlt], by simp [Failure.isFatal]⟩
    · have hrun := hx.of_oversized hc hrest ⟨hne, hds, rfl, hle⟩ hlimit
      exact ⟨_, _, hrun, by simp [Failure.isFatal, hle], fun _ => rfl⟩
  · have hd := (hgoes.reaches.steady hc).withRest (LiteralMode.atOnce.announced ds ++ s)
    have hrun := hx.of_oversized hd rfl ⟨hne, hds, rfl, hle⟩ hlimit
    exact ⟨_, decode_of_fatal ((hgoes.run_eq _).trans hrun) rfl⟩
  · intro hlt tail more htail
    have hd := (hgoes.reaches.steady hc).withRest
      (LiteralMode.atOnce.announced ds ++ (tail ++ Octet.lf :: more))
    obtain ⟨front, left, rfl, hrun⟩ := hx.of_overflow hd rfl hds hlt
    have hleft : left.all Octet.isDigit = true := by
      rw [List.all_append, Bool.and_eq_true] at hds
      exact hds.2
    have hrest : ((d.withRest (LiteralMode.atOnce.announced (front ++ left) ++
        (tail ++ Octet.lf :: more))).advance (front.length + 1)).rest =
        left ++ (Octet.plus :: Octet.rbrace :: tail) ++ Octet.lf :: more := by
      simp [LiteralMode.announced, LiteralMode.sign]
    obtain ⟨tag, e, hdecode, he⟩ := decode_of_overflow ((hgoes.run_eq _).trans hrun)
      (hd.advance _) hleft htail hrest
    exact ⟨tag, _, e, hdecode, he⟩

/-- What a LOGIN command reads behind its name. -/
theorem decode_login (ctx : Context) (tag : Tag) :
    Command.decode ctx tag false "LOGIN" = (do
      sp
      let username ← astring ctx
      sp
      let password ← astring ctx
      eol ctx.leniency
      return ⟨tag, .login username password⟩) := by
  have hverb : Verb.ofName? "LOGIN" = some .login := by decide
  simp only [Command.decode, hverb, CommandBody.decode, CommandBody.decodeArguments,
    Bool.false_and, Bool.false_eq_true, if_false, bind_assoc, pure_bind]

/-- The user name of a LOGIN command is a place where a literal may stand. -/
theorem read_goesOn_login :
    GoesOn (read {}) (.ofOctets (Octet.ofText "A LOGIN ")) (Octet.ofText "A LOGIN ")
      (do
        let username ← astring {}
        sp
        let password ← astring {}
        eol {}
        return ⟨⟨"A"⟩, .login username password⟩) ⟨[], 8, [], .memory⟩ := by
  have hc : (Cursor.ofOctets (Octet.ofText "A LOGIN ")).Steady := by
    intro link hlink
    simp [Cursor.ofOctets] at hlink
  have htag : Inline 0 {} Tag.decode := Tag.decode_inline
  have hsp : Inline 0 {} sp := sp_inline
  have hword : Inline 0 {} keyword := keyword_inline
  rw [read_eq]
  refine .after (w := Octet.ofText " LOGIN ") (a := ⟨"A"⟩) (htag.localAt hc)
    (.front (w := [0x41]) rfl) (by cbv) ?_ (by decide)
  refine .after (w := Octet.ofText "LOGIN ") (hsp.localAt (hc.advance 1))
    (.front (w := [Octet.sp]) rfl) (by cbv) ?_ (by decide)
  refine .after (w := [Octet.sp]) (a := "LOGIN") (hword.localAt (hc.advance 2))
    (.front (w := Octet.ofText "LOGIN") rfl) (by cbv) ?_ (by decide)
  rw [if_neg (by decide), decode_login]
  exact .afterAll (.front (w := [Octet.sp]) rfl) (fun s => rfl) (.refl _ _)

/-- Fifteen octets end the connection where four are allowed, and one more than 32 bits can count do
not: in their place a request is answered as malformed, and its data is left. -/
theorem oversized_isFatal_iff_login :
    ((Octet.ofText "15").all Octet.isDigit = true ∧ 4 < Decimal.value (Octet.ofText "15") ∧
      ∃ e, astring { maxLiteral := 4 } (.ofOctets (Octet.ofText "\x7b15+\x7d\r\nB NOOP")) =
        (.error (.literalTooLarge 15 4), e)) ∧
    (Octet.ofText "4294967296").all Octet.isDigit = true ∧
      67108864 < Decimal.value (Octet.ofText "4294967296") ∧
      ∃ tag error e, decode {} (.ofOctets
          (Octet.ofText "A LOGIN \x7b4294967296+\x7d\r\nB NOOP\r\n")) =
        (.ok (.malformed tag error), e) ∧ e.rest = Octet.ofText "B NOOP\r\n" := by
  refine ⟨⟨by decide, by decide, ?_⟩, by decide, by decide, ?_⟩
  · have hc : (Cursor.ofOctets (Octet.ofText "\x7b15+\x7d\r\nB NOOP")).Steady := by
      intro link hlink
      simp [Cursor.ofOctets] at hlink
    have hds : (Octet.ofText "15").all Octet.isDigit = true := by decide
    obtain ⟨f, e, hrun, hiff, hfatal⟩ := (oversized_isFatal_iff { maxLiteral := 4 } hds
      (by decide)).1
      (.wordOrString Octet.isAstringChar "astring" .usAscii) hc (s := Octet.ofText "\r\nB NOOP")
      (by cbv)
    exact ⟨e, hrun.trans (by rw [hfatal (hiff.2 (by decide))]; rfl)⟩
  · have hc : (Cursor.ofOctets (Octet.ofText "A LOGIN ")).Steady := by
      intro link hlink
      simp [Cursor.ofOctets] at hlink
    have hds : (Octet.ofText "4294967296").all Octet.isDigit = true := by decide
    have hlogin := read_goesOn_login
    exact ((oversized_isFatal_iff {} hds (by decide)).2
      (.bind (.wordOrString Octet.isAstringChar "astring" .usAscii) _) hc hlogin).2 (by decide)
      [Octet.cr] (Octet.ofText "B NOOP\r\n") (Or.inr rfl)

/-- The data of a literal that no number of 32 bits can count is decoded as a command. -/
theorem not_isFatal_of_overflow :
    67108864 < Decimal.value (Octet.ofText "4294967296") ∧
      decode {} (.ofOctets (Octet.ofText "A LOGIN \x7b4294967296+\x7d\r\nB NOOP\r\n")) =
        (.ok (.malformed (some ⟨"A"⟩) (.numberOutOfRange 10)),
          ⟨Octet.ofText "B NOOP\r\n", 23, [], .memory⟩) ∧
      decode {} ⟨Octet.ofText "B NOOP\r\n", 23, [], .memory⟩ =
        (.ok (.command ⟨⟨"B"⟩, .noop⟩), ⟨[], 31, [], .memory⟩) := by
  refine ⟨by decide, by cbv, by cbv⟩

end Request

end ImapRequest
