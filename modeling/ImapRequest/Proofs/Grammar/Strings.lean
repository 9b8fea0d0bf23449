import ImapRequest.Proofs.Grammar.Values

/-!
# Strings to the octet

Where the cursor stands behind a string, and where it stands when the string is rejected.  A client
that goes on after a rejected string has the rest of its line discarded, so no line break and no
octet of data may be left to be taken for something else.

* `ItemsFront` : how much of a quoted string is read before it is rejected;
* `Decoder.quoted_exact` : strings in double quotes, which are the text of their octets in one
  piece;
* `Decoder.literalOctets_exact` : literals, whose data is left behind also where it is rejected.
-/

namespace ImapRequest

/-- How much of a quoted string behind its opening quote is read before it is rejected: items, and
then a backslash or the closing quote. -/
inductive ItemsFront : List UInt8 → Prop
  | nil : ItemsFront []
  | backslash : ItemsFront [Octet.backslash]
  | close : ItemsFront [Octet.quote]
  | plain {b : UInt8} {w : List UInt8} (hb : Decoder.isQuotedPlain b = true) (h : ItemsFront w) :
    ItemsFront (b :: w)
  | escaped {b : UInt8} {w : List UInt8} (hb : Octet.isQuotedSpecial b = true) (h : ItemsFront w) :
    ItemsFront (Octet.backslash :: b :: w)

/-- No line break is among the items. -/
theorem ItemsFront.not_isLineBreak {w : List UInt8} (h : ItemsFront w) :
    ∀ b ∈ w, Octet.isLineBreak b = false := by
  induction h with
  | nil => simp
  | backslash => exact List.forall_mem_singleton.2 rfl
  | close => exact List.forall_mem_singleton.2 rfl
  | @plain b w hb _ ih =>
    refine List.forall_mem_cons.2 ⟨?_, ih⟩
    simp only [Decoder.isQuotedPlain, Bool.and_eq_true, Bool.not_eq_true'] at hb
    exact hb.1.2
  | @escaped b w hb _ ih =>
    refine List.forall_mem_cons.2 ⟨rfl, List.forall_mem_cons.2 ⟨?_, ih⟩⟩
    obtain rfl | rfl : b = Octet.quote ∨ b = Octet.backslash := by
      simpa [Octet.isQuotedSpecial] using hb
    · rfl
    · rfl

theorem ItemsFront.item {w v : List UInt8} {b : UInt8} (hw : Decoder.QuotedItem w (some b))
    (hv : ItemsFront v) : ItemsFront (w ++ v) := by
  cases hw with
  | plain hb => exact .plain hb hv
  | escaped hb => exact .escaped hb hv

namespace Decoder

variable {c : Cursor} {body bs s data line : List UInt8} {b : UInt8}

/-! ### Quoted strings -/

/-- Why a text is rejected. -/
def rejectText (error : TextError) : Failure := .rejected (.badText error)

/-- The text of octets that are fed at once and are the last ones. -/
def textOf (d : TextDecoder) (bs : List UInt8) : Except Failure String :=
  ((·.finish) <$> d.feed bs true).mapError rejectText

theorem textOf_new (charset : Charset) (bs : List UInt8) :
    textOf (TextDecoder.new charset) bs = (charset.decode bs).mapError rejectText := rfl

/-- Octets give their text behind that of a piece. -/
theorem textOf_append (d : TextDecoder) (as bs : List UInt8) :
    textOf d (as ++ bs) = match d.feed as false with
      | .ok d' => textOf d' bs
      | .error error => .error (rejectText error) := by
  rw [textOf, TextDecoder.finish_feed_append]
  cases d.feed as false <;> rfl

theorem quotedAfter_none (d : TextDecoder) (piece : List UInt8) (c : Cursor) :
    quotedAfter d piece none c = (textOf d piece, c) := by
  rw [quotedAfter, textOf, bind_apply, feed, ofExcept_apply]
  cases d.feed piece true <;> rfl

/-- From `c` on the string is the text of `bs` behind the piece, and its closing quote is the last
one of `m` octets: a text stops there, and what is rejected stops nowhere behind it. -/
def StopsWithin (m : Nat) (bs : List UInt8) (c : Cursor) : Prop :=
  ∀ d piece, ∃ j ≤ m, quotedRest d piece c = (textOf d (piece ++ bs), c.advance j) ∧
    ∀ text, textOf d (piece ++ bs) = .ok text → j = m

/-- Whether a piece is complete does not show in the text. -/
theorem StopsWithin.after {m : Nat} (h : StopsWithin m bs c) (b : UInt8) (d : TextDecoder)
    (piece : List UInt8) :
    ∃ j ≤ m, quotedAfter d piece (some b) c = (textOf d (piece ++ b :: bs), c.advance j) ∧
      ∀ text, textOf d (piece ++ b :: bs) = .ok text → j = m := by
  rw [List.append_cons, quotedAfter]
  split
  · rw [textOf_append, bind_apply, feed, ofExcept_apply]
    cases d.feed (piece ++ [b]) false with
    | error error => exact ⟨0, Nat.zero_le _, rfl, fun text h => by cases h⟩
    | ok d' => exact h d' []
  · exact h d _

/-- One item in front. -/
theorem StopsWithin.item {m n : Nat} (hc : c.Steady)
    (hrun : quotedItem c = (.ok (some b), c.advance n)) (h : StopsWithin m bs (c.advance n)) :
    StopsWithin (n + m) (b :: bs) c := by
  intro d piece
  obtain ⟨j, hj, hafter, htext⟩ := h.after b d piece
  refine ⟨n + j, by omega, ?_, fun text ht => by rw [htext text ht]⟩
  rw [quotedRest_apply hc, bind_of_ok hrun, hafter, Cursor.advance_advance]

/-- A string that is closed.  By induction on its items. -/
theorem stopsWithin_of_unescapes (h : Unescapes body bs) : ∀ {c : Cursor}, c.Steady →
    c.rest = body ++ Octet.quote :: s → StopsWithin (body.length + 1) bs c := by
  induction h with
  | nil =>
    intro c hc hrest d piece
    refine ⟨1, Nat.le_refl _, ?_, fun _ _ => rfl⟩
    rw [quotedRest_apply hc, bind_of_ok (quotedItem_of_quote hc hrest), quotedAfter_none,
      List.append_nil]
  | @plain b body bs hb _ ih =>
    intro c hc hrest
    have hrest' : (c.advance 1).rest = body ++ Octet.quote :: s := by
      rw [Cursor.rest_advance, hrest]
      rfl
    have hrun := quotedItem_of_plain hc hrest hb
    have hlen : (b :: body).length + 1 = 1 + (body.length + 1) := by rw [List.length_cons]; omega
    rw [hlen]
    exact StopsWithin.item hc hrun (ih (hc.advance 1) hrest')
  | @escaped b body bs hb _ ih =>
    intro c hc hrest
    have hrest' : (c.advance 2).rest = body ++ Octet.quote :: s := by
      rw [Cursor.rest_advance, hrest]
      rfl
    have hrun := quotedItem_of_escape hc hrest hb
    have hlen : (Octet.backslash :: b :: body).length + 1 = 2 + (body.length + 1) := by
      rw [List.length_cons, List.length_cons]
      omega
    rw [hlen]
    exact StopsWithin.item hc hrun (ih (hc.advance 2) hrest')

/-- What is read of a string that is rejected.  By induction on the octets that are left. -/
theorem quotedRest_failed (n : Nat) : ∀ {c e : Cursor} {d : TextDecoder} {piece : List UInt8}
    {failure : Failure}, c.Steady → c.rest.length < n →
    quotedRest d piece c = (.error failure, e) →
    ∃ w s, ItemsFront w ∧ c.rest = w ++ s ∧ e = c.advance w.length := by
  induction n with
  | zero => exact fun _ hn => absurd hn (Nat.not_lt_zero _)
  | succ n ih =>
    intro c e d piece failure hc hn h
    rw [quotedRest_apply hc] at h
    rcases quotedItem_cases hc with ⟨w, s, item, hw, hrest, hrun⟩ | ⟨w, s, _, hw, hrest, hrun⟩
    case inr =>
      rw [bind_of_error hrun] at h
      refine ⟨w, s, ?_, hrest, (congrArg Prod.snd h).symm⟩
      rcases hw with rfl | rfl
      · exact .nil
      · exact .backslash
    rw [bind_of_ok hrun] at h
    cases item with
    | none =>
      cases hw with
      | close =>
        rw [quotedAfter_none] at h
        exact ⟨_, s, .close, hrest, (congrArg Prod.snd h).symm⟩
    | some b =>
      have hlt : (c.advance w.length).rest.length < c.rest.length := length_lt_of_quotedItem hc hrun
      have hrest' : (c.advance w.length).rest = s := Cursor.rest_advance_append hrest
      -- Whether a piece is complete or not, it is rejected here or the string goes on.
      have hcases : e = c.advance w.length ∨
          ∃ d piece, quotedRest d piece (c.advance w.length) = (.error failure, e) := by
        rw [quotedAfter] at h
        split at h
        · rw [bind_apply, feed, ofExcept_apply] at h
          cases hfeed : d.feed (piece ++ [b]) false with
          | error error =>
            rw [hfeed] at h
            exact Or.inl (congrArg Prod.snd h).symm
          | ok d' =>
            rw [hfeed] at h
            exact Or.inr ⟨d', [], h⟩
        · exact Or.inr ⟨d, _, h⟩
      rcases hcases with rfl | ⟨d', piece', h'⟩
      · exact ⟨w, s, by simpa using ItemsFront.item hw .nil, hrest, rfl⟩
      · obtain ⟨v, t, hv, hs, rfl⟩ := ih (hc.advance _) (by omega) h'
        refine ⟨w ++ v, t, .item hw hv, ?_, ?_⟩
        · rw [hrest, ← hrest', hs, List.append_assoc]
        · rw [Cursor.advance_advance, List.length_append]

theorem quoted_of_quote (charset : Charset) (hc : c.Steady) (hrest : c.rest = Octet.quote :: s) :
    quoted charset c = quotedRest (TextDecoder.new charset) [] (c.advance 1) :=
  bind_of_ok (expect_of_rest hc hrest)

/-- What becomes of a string that is closed. -/
theorem quoted_of_unescapes (charset : Charset) (hc : c.Steady) (hbody : Unescapes body bs)
    (hrest : c.rest = Octet.quote :: (body ++ Octet.quote :: s)) :
    ∃ k ≤ body.length + 2,
      quoted charset c = ((charset.decode bs).mapError rejectText, c.advance k) ∧
        ∀ text, charset.decode bs = .ok text → k = body.length + 2 := by
  have hrest' : (c.advance 1).rest = body ++ Octet.quote :: s := by
    rw [Cursor.rest_advance, hrest]
    rfl
  obtain ⟨j, hj, hrun, htext⟩ := stopsWithin_of_unescapes hbody (hc.advance 1) hrest'
    (TextDecoder.new charset) []
  rw [List.nil_append, textOf_new] at hrun htext
  refine ⟨1 + j, by omega, ?_, fun text ht => ?_⟩
  · rw [quoted_of_quote charset hc hrest, hrun, Cursor.advance_advance]
  · have hj' := htext text (by rw [ht]; rfl)
    omega

/-- What is read of a string that is rejected. -/
theorem quoted_failed (charset : Charset) (hc : c.Steady) {failure : Failure} {e : Cursor}
    (h : quoted charset c = (.error failure, e)) :
    ∃ w s, (w = [] ∨ ∃ v, w = Octet.quote :: v ∧ ItemsFront v) ∧ c.rest = w ++ s ∧
      e = c.advance w.length := by
  by_cases hquote : ∃ s, c.rest = Octet.quote :: s
  · obtain ⟨s, hrest⟩ := hquote
    rw [quoted_of_quote charset hc hrest] at h
    obtain ⟨v, t, hv, hs, rfl⟩ := quotedRest_failed _ (hc.advance 1) (Nat.lt_succ_self _) h
    rw [Cursor.rest_advance, hrest] at hs
    refine ⟨Octet.quote :: v, t, Or.inr ⟨v, rfl, hv⟩, ?_, ?_⟩
    · rw [hrest, List.cons_append, ← hs]
      rfl
    · rw [Cursor.advance_advance, List.length_cons, Nat.add_comm]
  · have hexpect : ∃ failure', expect Octet.quote c = (.error failure', c) := by
      cases hrest : c.rest with
      | nil =>
        obtain ⟨io, hio⟩ := expect_of_nil hrest Octet.quote
        exact ⟨_, hio⟩
      | cons b s =>
        have hb : b ≠ Octet.quote := fun hb => hquote ⟨s, hb ▸ hrest⟩
        exact ⟨_, expect_of_ne hc hrest hb⟩
    obtain ⟨failure', hrun⟩ := hexpect
    rw [quoted, bind_of_error hrun] at h
    exact ⟨[], c.rest, Or.inl rfl, rfl, (congrArg Prod.snd h).symm⟩

/-- A string in double quotes is read to its closing quote and is the text of its octets in one
piece, or it is rejected for the reason that they are rejected for.  Whatever it fails for, what was
read has no line break in it and ends at the closing quote at the latest. -/
theorem quoted_exact (charset : Charset) (hc : c.Steady) :
    (∀ text e, quoted charset c = (.ok text, e) ↔
      ∃ w s, Quoted charset w text ∧ c.rest = w ++ s ∧ e = c.advance w.length) ∧
    (∀ failure e, quoted charset c = (.error failure, e) →
      ∃ w s, (w = [] ∨ ∃ v, w = Octet.quote :: v ∧ ItemsFront v) ∧ c.rest = w ++ s ∧
        e = c.advance w.length ∧ ∀ b ∈ w, Octet.isLineBreak b = false) ∧
    ∀ body bs s, Unescapes body bs → c.rest = Octet.quote :: (body ++ Octet.quote :: s) →
      ∃ k ≤ body.length + 2,
        quoted charset c = ((charset.decode bs).mapError rejectText, c.advance k) := by
  have hread : ∀ text w s, Quoted charset w text → c.rest = w ++ s →
      quoted charset c = (.ok text, c.advance w.length) := by
    rintro text w s ⟨body, bs, hbody, htext, rfl⟩ hrest
    have hrest' : c.rest = Octet.quote :: (body ++ Octet.quote :: s) := by rw [hrest]; simp
    obtain ⟨k, -, hrun, hk⟩ := quoted_of_unescapes charset hc hbody hrest'
    rw [hrun, hk text htext, htext, List.length_cons, List.length_append]
    rfl
  refine ⟨fun text e => ⟨fun h => ?_, ?_⟩, fun failure e h => ?_, fun body bs s hbody hrest => ?_⟩
  · obtain ⟨w, hw, hreaches⟩ := (quoted_recognizes (F := Anything) charset c).sound hc h
    have hrun := hread text w e.rest hw hreaches.rest_eq
    exact ⟨w, e.rest, hw, hreaches.rest_eq, congrArg Prod.snd (h.symm.trans hrun)⟩
  · rintro ⟨w, s, hw, hrest, rfl⟩
    exact hread text w s hw hrest
  · obtain ⟨w, s, hw, hrest, he⟩ := quoted_failed charset hc h
    refine ⟨w, s, hw, hrest, he, ?_⟩
    rcases hw with rfl | ⟨v, rfl, hv⟩
    · simp
    · exact List.forall_mem_cons.2 ⟨rfl, hv.not_isLineBreak⟩
  · obtain ⟨k, hk, hrun, -⟩ := quoted_of_unescapes charset hc hbody hrest
    exact ⟨k, hk, hrun⟩

/-- An escaped quote does not end the string, and an octet that is no text is left behind. -/
theorem quoted_exact_escaped :
    quoted .usAscii (.ofOctets (Octet.ofText "\"a\\\"\" b")) =
        (.ok "a\"", ⟨Octet.ofText " b", 5, [], .memory⟩) ∧
      ∃ k ≤ 3, quoted .usAscii (.ofOctets [Octet.quote, 0xe9, Octet.quote]) =
        (.error (.rejected (.badText (.notAscii 0xe9))),
          (Cursor.ofOctets [Octet.quote, 0xe9, Octet.quote]).advance k) := by
  have hquoted : Quoted .usAscii (Octet.ofText "\"a\\\"\"") "a\"" :=
    ⟨Octet.ofText "a\\\"", Octet.ofText "a\"", .plain (by decide) (.escaped (by decide) .nil),
      by decide +kernel, by decide +kernel⟩
  constructor
  · exact ((quoted_exact .usAscii (Cursor.steady_ofOctets _)).1 _ _).2
      ⟨_, Octet.ofText " b", hquoted, by cbv, by cbv⟩
  · exact (quoted_exact .usAscii (Cursor.steady_ofOctets _)).2.2 [0xe9] [0xe9] []
      (.plain (by decide) .nil) rfl

/-! ### Literals -/

section Literals

variable (ctx : Context)

/-- A literal is read to the end of its data, whatever the data is, once it is announced within the
limit and, where the client waits, asked for.  Data with a NUL in it and data that is no text is
rejected behind its end. -/
theorem literalOctets_exact (hc : c.Steady) :
    (∀ data e, literalOctets ctx c = (.ok data, e) ↔
      ∃ mode line s, Announces ctx.maxLiteral ctx.leniency mode data.length line ∧ 0 ∉ data ∧
        c.rest = line ++ (data ++ s) ∧ (c.advance line.length).Grants mode ∧
        e = ((c.advance line.length).prompted mode).advance data.length) ∧
    ∀ mode line data s, Announces ctx.maxLiteral ctx.leniency mode data.length line →
      c.rest = line ++ (data ++ s) → (c.advance line.length).Grants mode →
      (0 ∈ data → ∃ i, data[i]? = some 0 ∧
        literalOctets ctx c = (.error (.rejected (.nulInLiteral i)),
          ((c.advance line.length).prompted mode).advance data.length) ∧
        literal ctx c = (.error (.rejected (.nulInLiteral i)),
          ((c.advance line.length).prompted mode).advance data.length)) ∧
      (0 ∉ data → literal ctx c = ((ctx.charset.decode data).mapError rejectText,
        ((c.advance line.length).prompted mode).advance data.length)) := by
  refine ⟨fun data e => ⟨fun h => ?_, ?_⟩, fun mode line data s hline hrest hgrants => ?_⟩
  · obtain ⟨mode, line, hline, hreaches, -⟩ := rest_of_literalOctets ctx hc h
    have hrest : c.rest = line ++ (data ++ e.rest) := by rw [hreaches.rest_eq, List.append_assoc]
    have hgrants : (c.advance line.length).Grants mode := by
      rintro rfl
      rcases request_eq (c.advance line.length) with hask | hask
      · exact hask
      · rw [literalOctets_eq, bind_of_ok (announcement_of_announces hc hline hrest)] at h
        exact absurd ((bind_of_error hask).symm.trans h) (by simp)
    rcases literalOctets_of_grants ctx hc hline hrest hgrants with ⟨hnul, hrun⟩ | ⟨i, -, hrun⟩
    · exact ⟨mode, line, e.rest, hline, hnul, hrest, hgrants, congrArg Prod.snd (h.symm.trans hrun)⟩
    · exact absurd (h.symm.trans hrun) (by simp)
  · rintro ⟨mode, line, s, hline, hnul, hrest, hgrants, rfl⟩
    rcases literalOctets_of_grants ctx hc hline hrest hgrants with ⟨-, hrun⟩ | ⟨i, hi, -⟩
    · exact hrun
    · exact absurd (List.mem_of_getElem? hi) hnul
  · rcases literalOctets_of_grants ctx hc hline hrest hgrants with ⟨hnul, hrun⟩ | ⟨i, hi, hrun⟩
    · refine ⟨fun hmem => absurd hmem hnul, fun _ => ?_⟩
      rw [literal, bind_of_ok hrun, ofExcept_apply]
      cases ctx.charset.decode data <;> rfl
    · exact ⟨fun _ => ⟨i, hi, hrun, bind_of_error hrun⟩,
        fun hnul => absurd (List.mem_of_getElem? hi) hnul⟩

/-- Data may look like an announcement and its line break, and what follows data with a NUL in it is
not taken for data. -/
theorem literalOctets_exact_announcement :
    literalOctets {} (.ofOctets (Octet.ofText "\x7b6\x7d\r\n\x7b1+\x7d\r\n)")) =
        (.ok (Octet.ofText "\x7b1+\x7d\r\n"), ⟨[Octet.rparen], 11, [5], .memory⟩) ∧
      ∃ i, literalOctets {} (.ofOctets (Octet.ofText "\x7b2+\x7d\r\nA\x00)")) =
        (.error (.rejected (.nulInLiteral i)), ⟨[Octet.rparen], 8, [], .memory⟩) := by
  have hwaits : Announces 67108864 {} .onRequest 6 (Octet.ofText "\x7b6\x7d\r\n") := by
    refine ⟨⟨Octet.ofText "6", [Octet.cr, Octet.lf], ?_, ⟨?_, ?_, ?_, ?_⟩, Or.inl rfl⟩,
      by decide⟩ <;>
      decide +kernel
  have hsends : Announces 67108864 {} .atOnce 2 (Octet.ofText "\x7b2+\x7d\r\n") := by
    refine ⟨⟨Octet.ofText "2", [Octet.cr, Octet.lf], ?_, ⟨?_, ?_, ?_, ?_⟩, Or.inl rfl⟩,
      by decide⟩ <;>
      decide +kernel
  constructor
  · exact ((literalOctets_exact {} (Cursor.steady_ofOctets _)).1 _ _).2
      ⟨.onRequest, _, [Octet.rparen], hwaits,
      by decide +kernel, by decide +kernel, fun _ => rfl, by cbv⟩
  · have hc := Cursor.steady_ofOctets (Octet.ofText "\x7b2+\x7d\r\nA\x00)")
    have hgrants (c : Cursor) : c.Grants .atOnce := by
      intro h
      cases h
    obtain ⟨i, -, hrun, -⟩ := ((literalOctets_exact {} hc).2 .atOnce _ [0x41, 0] [Octet.rparen]
      hsends (by decide +kernel) (hgrants _)).1 (by decide)
    exact ⟨i, hrun.trans (by cbv)⟩

end Literals

end Decoder

end ImapRequest
