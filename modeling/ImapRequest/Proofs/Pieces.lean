import ImapRequest.Proofs.Conversion

/-!
# Text in pieces

The octets of an incomplete character, and the mode that escape sequences chose, go from one piece
to the next in the state of the library, and what room the output has does not matter.  So where a
text is cut does not show, whatever library converts it.

* `PieceDecoder.finish_feed_append` : one piece, or two;
* `PieceDecoder.decode_flatten` : the pieces of a text give what the whole text gives, be it a text
  or an error.
-/

namespace ImapRequest

namespace PieceDecoder

variable {L : Transcoder} {S : Standard} {view : L.State → S.State} {d d' : PieceDecoder L}
  {as bs piece : List UInt8} {pieces : List (List UInt8)} {last closed : Bool} {index i : Nat}
  {e : TextError}

/-! ### One piece, or two -/

theorem charset_of_convertUpTo (limit : Nat) (h : convertUpTo limit d piece last = .ok d') :
    d'.charset = d.charset := by
  induction limit generalizing d piece with
  | zero =>
    obtain rfl := Except.ok.inj h
    rfl
  | succ limit ih =>
    simp only [convertUpTo] at h
    split at h
    · obtain rfl := Except.ok.inj h
      rfl
    · exact (ih h).trans rfl
    · cases h

theorem charset_of_feedAscii (h : d.feedAscii piece = .ok d') : d'.charset = d.charset := by
  unfold feedAscii at h
  split at h
  · cases h
  · obtain rfl := Except.ok.inj h
    rfl

theorem charset_of_feed (h : d.feed piece last = .ok d') : d'.charset = d.charset := by
  unfold feed at h
  split at h
  · exact charset_of_feedAscii h
  · exact charset_of_convertUpTo _ h

/-- In US-ASCII every octet is a character by itself. -/
theorem finish_feedAscii_append :
    finish <$> d.feedAscii (as ++ bs) =
      d.feedAscii as >>= fun d' => finish <$> d'.feedAscii bs := by
  simp only [feedAscii, List.find?_append]
  cases as.find? fun b => 0x80 ≤ b with
  | some b => rfl
  | none =>
    rw [Option.none_or]
    cases bs.find? fun b => 0x80 ≤ b with
    | some b => rfl
    | none =>
      refine congrArg Except.ok ?_
      simp [finish, TextBuffer.extend, TextBuffer.reserve, TextBuffer.write]

/-- The text is that of the standard. -/
theorem finish_feed (hcharset : d.charset ≠ .usAscii) (hL : L.Follows d.charset S view) :
    finish <$> d.feed piece last =
      (fun r => String.ofList r.1) <$>
        S.readBehind d.charset d.output.text (view d.state) piece last := by
  rw [← feed_standing hcharset hL]
  cases d.feed piece last <;> rfl

/-- A piece gives what its two parts give, of which the former may end within a character. -/
theorem finish_feed_append (hL : d.charset ≠ .usAscii → L.Follows d.charset S view) :
    finish <$> d.feed (as ++ bs) last =
      d.feed as false >>= fun d' => finish <$> d'.feed bs last := by
  by_cases hcharset : d.charset = .usAscii
  · have hfeed : ∀ d' : PieceDecoder L, d'.charset = d.charset → ∀ piece last,
        d'.feed piece last = d'.feedAscii piece :=
      fun d' hd' piece last => if_pos (hd'.trans hcharset)
    rw [hfeed d rfl, hfeed d rfl, finish_feedAscii_append]
    cases has : d.feedAscii as with
    | error e => rfl
    | ok d' => exact congrArg (finish <$> ·) (hfeed d' (charset_of_feedAscii has) bs last).symm
  · have hL := hL hcharset
    rw [finish_feed hcharset hL, Standard.readBehind_append, ← feed_standing hcharset hL]
    cases has : d.feed as false with
    | error e => rfl
    | ok d' =>
      have hd' := charset_of_feed has
      change (fun r => String.ofList r.1) <$>
        S.readBehind d.charset d'.output.text (view d'.state) bs last = finish <$> d'.feed bs last
      rw [← hd'] at hL hcharset ⊢
      exact (finish_feed hcharset hL).symm

/-! ### Any number of pieces -/

/-- Pieces give what they give joined. -/
theorem finish_feedAll (hL : d.charset ≠ .usAscii → L.Follows d.charset S view) (closed : Bool)
    (index : Nat) (h : pieces ≠ []) :
    finish <$> (d.feedAll closed index pieces).mapError Prod.fst =
      finish <$> d.feed pieces.flatten closed := by
  induction pieces generalizing d index with
  | nil => exact absurd rfl h
  | cons piece rest ih =>
    rw [feedAll]
    cases rest with
    | nil =>
      simp only [List.isEmpty_nil, Bool.and_true, List.flatten_cons, List.flatten_nil,
        List.append_nil]
      cases d.feed piece closed <;> rfl
    | cons next rest =>
      rw [List.flatten_cons, finish_feed_append hL]
      simp only [List.isEmpty_cons, Bool.and_false]
      cases hfeed : d.feed piece false with
      | error e => rfl
      | ok d' =>
        refine ih ?_ (index + 1) (by simp)
        rwa [charset_of_feed hfeed]

/-- An error is that of one piece, behind pieces without error. -/
theorem feed_of_feedAll_eq_error (h : d.feedAll closed index pieces = .error (e, i)) :
    ∃ before piece after d', pieces = before ++ piece :: after ∧ i = index + before.length ∧
      d.feedAll false index before = .ok d' ∧
      d'.feed piece (closed && after.isEmpty) = .error e := by
  induction pieces generalizing d index with
  | nil => cases h
  | cons piece rest ih =>
    rw [feedAll] at h
    cases hfeed : d.feed piece (closed && rest.isEmpty) with
    | error e' =>
      simp only [hfeed, Except.error.injEq, Prod.mk.injEq] at h
      exact ⟨[], piece, rest, d, rfl, h.2.symm, rfl, h.1 ▸ hfeed⟩
    | ok d' =>
      simp only [hfeed] at h
      obtain ⟨before, piece', after, d'', rfl, rfl, hbefore, herror⟩ := ih h
      refine ⟨piece :: before, piece', after, d'', rfl, by simp; omega, ?_, herror⟩
      -- the piece is not the last one in either list
      have hfalse : d.feed piece false = .ok d' := by
        rwa [List.isEmpty_eq_false_iff.mpr (by simp), Bool.and_false] at hfeed
      simpa only [feedAll, Bool.false_and, hfalse] using hbefore

/-- A text may be cut anywhere, by whatever library it is converted.  Its pieces give the text that
all octets give at once.  Otherwise one piece, the first that does not go on from those before it,
gives the error that all octets give. -/
theorem decode_flatten {c : Charset} (hL : c ≠ .usAscii → L.Follows c S view)
    (pieces : List (List UInt8)) (h : pieces ≠ []) :
    match (start L c).feedAll true 0 pieces with
    | .ok d => L.decode c pieces.flatten = .ok d.finish
    | .error (e, i) =>
      L.decode c pieces.flatten = .error e ∧
        ∃ before piece after d, pieces = before ++ piece :: after ∧ before.length = i ∧
          (start L c).feedAll false 0 before = .ok d ∧ d.feed piece after.isEmpty = .error e := by
  have hfeed := finish_feedAll (d := start L c) hL true 0 h
  rw [Transcoder.decode]
  cases hall : (start L c).feedAll true 0 pieces with
  | ok d =>
    rw [hall] at hfeed
    exact hfeed.symm
  | error ei =>
    obtain ⟨e, i⟩ := ei
    rw [hall] at hfeed
    refine ⟨hfeed.symm, ?_⟩
    obtain ⟨before, piece, after, d, hpieces, hi, hbefore, herror⟩ := feed_of_feedAll_eq_error hall
    exact ⟨before, piece, after, d, hpieces, by omega, hbefore, by simpa using herror⟩

/-- The octets of a character may come in three pieces; a text may fill its output more than once;
and a character that is not complete is an error of the last piece, even of an empty one. -/
theorem decode_flatten_utf8 :
    ((Charset.utf8 ≠ .usAscii → Charset.transcoder.Follows .utf8 Charset.utf8.standard id) ∧
      ([[0xe2], [], [0x82, 0xac]] : List (List UInt8)) ≠ [] ∧
      Charset.transcoder.decode .utf8 [0xe2, 0x82, 0xac] = .ok "€") ∧
    Charset.transcoder.decode .utf8 (List.replicate 40 0x2e ++ [0x2e]) =
      .ok (String.ofList (List.replicate 41 '.')) ∧
    (([[0xe2, 0x82], []] : List (List UInt8)) ≠ [] ∧
      Charset.transcoder.decode .utf8 [0xe2, 0x82] = .error (.malformed .utf8)) := by
  have hL : Charset.utf8 ≠ .usAscii → Charset.transcoder.Follows .utf8 Charset.utf8.standard id :=
    fun _ => Charset.transcoder_follows .utf8
  have hlong : (start Charset.transcoder .utf8).feedAll true 0 [List.replicate 40 0x2e, [0x2e]] =
      .ok ⟨.utf8, {}, ⟨List.replicate 41 '.', 64⟩⟩ := by rfl
  refine ⟨⟨hL, by decide, decode_flatten hL [[0xe2], [], [0x82, 0xac]] (by decide)⟩, ?_,
    ⟨by decide, (decode_flatten hL [[0xe2, 0x82], []] (by decide)).1⟩⟩
  have h := decode_flatten hL [List.replicate 40 0x2e, [0x2e]] (by decide)
  rw [hlong] at h
  exact h

end PieceDecoder

/-- With the characters that follow a rule no library has to be trusted. -/
theorem TextDecoder.finish_feed_append (d : TextDecoder) (as bs : List UInt8) (last : Bool) :
    (·.finish) <$> d.feed (as ++ bs) last =
      d.feed as false >>= fun d' => (·.finish) <$> d'.feed bs last :=
  PieceDecoder.finish_feed_append fun _ => Charset.transcoder_follows d.charset

end ImapRequest
