import ImapRequest.Decoder.Text
import ImapRequest.Proofs.Number

/-!
# Line breaks, quoted strings and literals on a steady source

* `Decoder.eol_of_crlf`, `Decoder.eol_of_lf`, `Decoder.eol_of_ne` : the ways a line can end or not;
* `Decoder.quotedItem_of_quote` and the lemmas after it : the items of a quoted string;
* `Decoder.quotedRest`, `Decoder.quotedRest_apply` : the rest of a quoted string without a bound on
  repetition;
* `Decoder.discardFrom`, `Decoder.discardFrom_of_ne` and the lemmas after it : the rest of a request
  likewise.
-/

namespace ImapRequest

namespace Decoder

variable {c : Cursor} {b : UInt8} {s : List UInt8}

/-- How the data of a literal is sent, from the sign behind its length. -/
def literalMode : Decoder LiteralMode := do
  if (← peek) == Octet.plus then
    let _ ← consume
    return .atOnce
  else
    return .onRequest

theorem announcement_eq (ctx : Context) :
    announcement ctx = (do
      expect Octet.lbrace
      let length ← digits
      let mode ← literalMode
      expect Octet.rbrace
      if ctx.maxLiteral < length then
        match mode with
        | .atOnce => fail (.literalTooLarge length ctx.maxLiteral)
        | .onRequest => reject (.literalTooLong length ctx.maxLiteral)
      else
        eol ctx.leniency
        return (length, mode)) := rfl

/-- The data of a literal of known length, none of which is NUL. -/
def literalData (length : Nat) : Decoder (List UInt8) := do
  let data ← take length
  match data.findIdx? fun b => !Octet.isChar8 b with
  | some i => reject (.nulInLiteral i)
  | none => return data

theorem literalOctets_eq (ctx : Context) :
    literalOctets ctx = (do
      let (length, mode) ← announcement ctx
      if mode = .onRequest then
        request
      literalData length) := rfl

/-! ### Programs of operations -/

namespace Composed

variable {asks takes : Prop}

theorem digitsUpTo (limit : Nat) : ∀ count value,
    Composed asks takes (digitsUpTo limit count value) := by
  induction limit with
  | zero => exact fun count value => pure _
  | succ limit ih =>
    exact fun count value => isConsumed.bind fun _ => .ite (pure _) <| peek.bind fun _ =>
      .ite (consume.bind fun _ => .ite (reject _) (ih _ _)) (pure _)

theorem digits : Composed asks takes digits :=
  bound.bind fun _ => (digitsUpTo _ 0 0).bind fun _ => .ite (peek.bind fun _ => reject _) (pure _)

theorem expect (b : UInt8) : Composed asks takes (expect b) :=
  peek.bind fun _ => .ite (consume.bind fun _ => pure _) (reject _)

theorem eol (leniency : Leniency) : Composed asks takes (eol leniency) :=
  peek.bind fun _ => .ite
    (consume.bind fun _ => peek.bind fun _ => .ite (consume.bind fun _ => pure _) (reject _)) <|
    .ite (.ite (consume.bind fun _ => pure _) (reject _)) (reject _)

theorem ofExcept {α : Type} (r : Except DecodingError α) : Composed asks takes (ofExcept r) := by
  cases r with
  | ok a => exact pure a
  | error e => exact reject e

theorem quotedItem : Composed asks takes quotedItem :=
  peek.bind fun _ => .ite (consume.bind fun _ => pure _) <| .ite
    (consume.bind fun _ => peek.bind fun _ => .ite (consume.bind fun _ => pure _) (reject _)) <|
    .ite (reject _) (consume.bind fun _ => pure _)

theorem quotedUpTo (limit : Nat) : ∀ d piece, Composed asks takes (quotedUpTo limit d piece) := by
  induction limit with
  | zero => exact fun d piece => peek.bind fun _ => reject _
  | succ limit ih =>
    intro d piece
    refine quotedItem.bind fun item => ?_
    cases item with
    | none => exact (ofExcept _).bind fun _ => pure _
    | some b => exact .ite ((ofExcept _).bind fun _ => ih _ _) (ih _ _)

theorem quoted (charset : Charset) : Composed asks takes (quoted charset) :=
  (expect _).bind fun _ => bound.bind fun _ => quotedUpTo _ _ _

theorem literalMode : Composed asks takes literalMode :=
  peek.bind fun _ => .ite (consume.bind fun _ => pure _) (pure _)

/-- What is done behind the closing brace of an announcement. -/
theorem announced (ctx : Context) (length : Nat) (mode : LiteralMode) :
    Composed asks takes (if ctx.maxLiteral < length then
        match mode with
        | .atOnce => fail (.literalTooLarge length ctx.maxLiteral)
        | .onRequest => Decoder.reject (.literalTooLong length ctx.maxLiteral)
      else do
        Decoder.eol ctx.leniency
        return (length, mode)) := by
  refine .ite ?_ ((eol _).bind fun _ => pure _)
  cases mode with
  | atOnce => exact refuse _ _
  | onRequest => exact reject _

theorem announcement (ctx : Context) : Composed asks takes (announcement ctx) :=
  (expect _).bind fun _ => digits.bind fun length => literalMode.bind fun mode =>
    (expect _).bind fun _ => announced ctx length mode

theorem literalData (htakes : takes) (length : Nat) : Composed asks takes (literalData length) := by
  refine (take htakes length).bind fun data => ?_
  split
  · exact reject _
  · exact pure _

theorem literalOctets (hasks : asks) (htakes : takes) (ctx : Context) :
    Composed asks takes (literalOctets ctx) :=
  (announcement ctx).bind fun ⟨length, _⟩ =>
    .ite ((request hasks).bind fun _ => literalData htakes length) (literalData htakes length)

theorem discardUpTo (limit : Nat) : ∀ a, Composed asks takes (discardUpTo limit a) := by
  induction limit with
  | zero => exact fun a => pure _
  | succ limit ih =>
    intro a
    refine isConsumed.bind fun _ => .ite (pure _) <| consume.bind fun _ => .ite ?_ (ih _)
    cases a.length? with
    | none => exact pure _
    | some n => exact (skip n).bind fun _ => ih _

theorem discardLine : Composed asks takes discardLine := bound.bind fun _ => discardUpTo _ _

end Composed

/-! ### Forward motion -/

namespace Forward

theorem digits : Forward digits := Composed.digits.forward

theorem expect (b : UInt8) : Forward (expect b) := (Composed.expect b).forward

theorem eol (leniency : Leniency) : Forward (eol leniency) := (Composed.eol leniency).forward

theorem ofExcept {α : Type} (r : Except DecodingError α) : Forward (ofExcept r) :=
  (Composed.ofExcept r).forward

theorem quotedItem : Forward quotedItem := Composed.quotedItem.forward

theorem quotedUpTo (limit : Nat) (d : TextDecoder) (piece : List UInt8) :
    Forward (quotedUpTo limit d piece) := (Composed.quotedUpTo limit d piece).forward

theorem literalMode : Forward literalMode := Composed.literalMode.forward

theorem announcement (ctx : Context) : Forward (announcement ctx) :=
  (Composed.announcement ctx).forward

theorem literalData (length : Nat) : Forward (literalData length) :=
  (Composed.literalData trivial length).forward

theorem literalOctets (ctx : Context) : Forward (literalOctets ctx) :=
  (Composed.literalOctets trivial trivial ctx).forward

theorem discardUpTo (limit : Nat) (a : Announcement) : Forward (discardUpTo limit a) :=
  (Composed.discardUpTo limit a).forward

end Forward

/-! ### Line breaks -/

section Eol

variable {leniency : Leniency}

theorem eol_of_crlf (hc : c.Steady) (h : c.rest = Octet.cr :: Octet.lf :: s) :
    eol leniency c = (.ok (), c.advance 2) := by
  have h' : (c.advance 1).rest = Octet.lf :: s := by rw [Cursor.rest_advance, h]; rfl
  rw [eol, bind_of_ok (peek_of_rest hc h), if_pos (beq_self_eq_true _),
    bind_of_ok (consume_of_rest hc h), bind_of_ok (peek_of_rest (hc.advance 1) h'),
    if_pos (beq_self_eq_true _), bind_of_ok (consume_of_rest (hc.advance 1) h'), pure_apply,
    Cursor.advance_advance]

theorem eol_of_lf (hc : c.Steady) (h : c.rest = Octet.lf :: s)
    (hleniency : leniency.bareLineFeed = true) : eol leniency c = (.ok (), c.advance 1) := by
  rw [eol, bind_of_ok (peek_of_rest hc h), if_neg (by decide), if_pos (beq_self_eq_true _),
    if_pos hleniency, bind_of_ok (consume_of_rest hc h), pure_apply]

theorem eol_of_strict_lf (hc : c.Steady) (h : c.rest = Octet.lf :: s)
    (hleniency : leniency.bareLineFeed = false) :
    eol leniency c = (.error (.rejected (.unexpected Octet.lf "CRLF")), c) := by
  rw [eol, bind_of_ok (peek_of_rest hc h), if_neg (by decide), if_pos (beq_self_eq_true _),
    if_neg (by simp [hleniency])]
  rfl

theorem eol_of_cr (hc : c.Steady) (h : c.rest = Octet.cr :: b :: s) (hb : b ≠ Octet.lf) :
    eol leniency c = (.error (.rejected (.unexpected b "end of line")), c.advance 1) := by
  have h' : (c.advance 1).rest = b :: s := by rw [Cursor.rest_advance, h]; rfl
  rw [eol, bind_of_ok (peek_of_rest hc h), if_pos (beq_self_eq_true _),
    bind_of_ok (consume_of_rest hc h), bind_of_ok (peek_of_rest (hc.advance 1) h'),
    if_neg (by simpa using hb)]
  rfl

theorem eol_of_cr_nil (hc : c.Steady) (h : c.rest = [Octet.cr]) :
    ∃ e, eol leniency c = (.error (.io e), c.advance 1) := by
  have h' : (c.advance 1).rest = [] := by rw [Cursor.rest_advance, h]; rfl
  obtain ⟨e, he⟩ := peek_of_nil h'
  refine ⟨e, ?_⟩
  rw [eol, bind_of_ok (peek_of_rest hc h), if_pos (beq_self_eq_true _),
    bind_of_ok (consume_of_rest hc h), bind_of_error he]

theorem eol_of_ne (hc : c.Steady) (h : c.rest = b :: s) (hcr : b ≠ Octet.cr) (hlf : b ≠ Octet.lf) :
    eol leniency c = (.error (.rejected (.unexpected b "end of line")), c) := by
  rw [eol, bind_of_ok (peek_of_rest hc h), if_neg (by simpa using hcr),
    if_neg (by simpa using hlf)]
  rfl

theorem eol_of_nil (h : c.rest = []) : ∃ e, eol leniency c = (.error (.io e), c) := by
  obtain ⟨e, he⟩ := peek_of_nil h
  exact ⟨e, by rw [eol, bind_of_error he]⟩

end Eol

/-! ### Quoted strings -/

theorem quotedItem_of_quote (hc : c.Steady) (h : c.rest = Octet.quote :: s) :
    quotedItem c = (.ok none, c.advance 1) := by
  rw [quotedItem, bind_of_ok (peek_of_rest hc h), if_pos (beq_self_eq_true _),
    bind_of_ok (consume_of_rest hc h), pure_apply]

theorem quotedItem_of_escape (hc : c.Steady) (h : c.rest = Octet.backslash :: b :: s)
    (hb : Octet.isQuotedSpecial b = true) : quotedItem c = (.ok (some b), c.advance 2) := by
  have h' : (c.advance 1).rest = b :: s := by rw [Cursor.rest_advance, h]; rfl
  rw [quotedItem, bind_of_ok (peek_of_rest hc h), if_neg (by decide),
    if_pos (beq_self_eq_true _), bind_of_ok (consume_of_rest hc h),
    bind_of_ok (peek_of_rest (hc.advance 1) h'), if_pos hb]
  change (consume >>= fun b => pure (some b)) _ = _
  rw [bind_of_ok (consume_of_rest (hc.advance 1) h'), pure_apply, Cursor.advance_advance]

theorem quotedItem_of_bad_escape (hc : c.Steady) (h : c.rest = Octet.backslash :: b :: s)
    (hb : Octet.isQuotedSpecial b = false) :
    quotedItem c =
      (.error (.rejected (.unexpected b "'\"' or '\\' after '\\'")), c.advance 1) := by
  have h' : (c.advance 1).rest = b :: s := by rw [Cursor.rest_advance, h]; rfl
  rw [quotedItem, bind_of_ok (peek_of_rest hc h), if_neg (by decide),
    if_pos (beq_self_eq_true _), bind_of_ok (consume_of_rest hc h),
    bind_of_ok (peek_of_rest (hc.advance 1) h'), if_neg (by simp [hb])]
  rfl

theorem quotedItem_of_backslash (hc : c.Steady) (h : c.rest = [Octet.backslash]) :
    ∃ e, quotedItem c = (.error (.io e), c.advance 1) := by
  have h' : (c.advance 1).rest = [] := by rw [Cursor.rest_advance, h]; rfl
  obtain ⟨e, he⟩ := peek_of_nil h'
  refine ⟨e, ?_⟩
  rw [quotedItem, bind_of_ok (peek_of_rest hc h), if_neg (by decide),
    if_pos (beq_self_eq_true _), bind_of_ok (consume_of_rest hc h), bind_of_error he]

/-- The octets that stand for themselves in a quoted string. -/
def isQuotedPlain (b : UInt8) : Bool :=
  !Octet.isQuotedSpecial b && !Octet.isLineBreak b && Octet.isChar8 b

theorem isQuotedPlain_of_not (hquote : b ≠ Octet.quote) (hbackslash : b ≠ Octet.backslash)
    (h : ¬ (Octet.isLineBreak b = true ∨ b = 0)) : isQuotedPlain b = true := by
  simp [Octet.isLineBreak] at h
  simp [isQuotedPlain, Octet.isQuotedSpecial, Octet.isLineBreak, Octet.isChar8, hquote,
    hbackslash, h]

theorem quotedItem_of_plain (hc : c.Steady) (h : c.rest = b :: s) (hb : isQuotedPlain b = true) :
    quotedItem c = (.ok (some b), c.advance 1) := by
  simp [isQuotedPlain, Octet.isQuotedSpecial, Octet.isLineBreak, Octet.isChar8] at hb
  rw [quotedItem, bind_of_ok (peek_of_rest hc h), if_neg (by simpa using hb.1.1.1),
    if_neg (by simpa using hb.1.1.2), if_neg (by simp [hb])]
  change (consume >>= fun b => pure (some b)) _ = _
  rw [bind_of_ok (consume_of_rest hc h), pure_apply]

theorem quotedItem_of_break (hc : c.Steady) (h : c.rest = b :: s)
    (hb : Octet.isLineBreak b = true ∨ b = 0) :
    quotedItem c = (.error (.rejected (.unexpected b "TEXT-CHAR")), c) := by
  have hquote : b ≠ Octet.quote := by
    rintro rfl
    rcases hb with hb | hb <;> exact absurd hb (by decide)
  have hbackslash : b ≠ Octet.backslash := by
    rintro rfl
    rcases hb with hb | hb <;> exact absurd hb (by decide)
  rw [quotedItem, bind_of_ok (peek_of_rest hc h), if_neg (by simpa using hquote),
    if_neg (by simpa using hbackslash), if_pos (by simpa [Octet.isLineBreak] using hb)]
  rfl

theorem quotedItem_of_nil (h : c.rest = []) : ∃ e, quotedItem c = (.error (.io e), c) := by
  obtain ⟨e, he⟩ := peek_of_nil h
  exact ⟨e, by rw [quotedItem, bind_of_error he]⟩

/-- An item is at least one octet. -/
theorem length_lt_of_quotedItem (hc : c.Steady) {e : Cursor}
    (h : quotedItem c = (.ok (some b), e)) :
    e.rest.length < c.rest.length := by
  cases hrest : c.rest with
  | nil =>
    obtain ⟨e', he'⟩ := quotedItem_of_nil hrest
    simp [he'] at h
  | cons a as =>
    by_cases hquote : a = Octet.quote
    · rw [quotedItem_of_quote hc (hquote ▸ hrest)] at h
      simp at h
    by_cases hbackslash : a = Octet.backslash
    · subst hbackslash
      cases as with
      | nil =>
        obtain ⟨e', he'⟩ := quotedItem_of_backslash hc hrest
        simp [he'] at h
      | cons a' as =>
        cases ha' : Octet.isQuotedSpecial a' with
        | true =>
          rw [quotedItem_of_escape hc hrest ha'] at h
          obtain rfl : c.advance 2 = e := congrArg Prod.snd h
          rw [Cursor.rest_advance, hrest, List.length_drop, List.length_cons, List.length_cons]
          omega
        | false =>
          rw [quotedItem_of_bad_escape hc hrest ha'] at h
          simp at h
    by_cases hbreak : Octet.isLineBreak a = true ∨ a = 0
    · rw [quotedItem_of_break hc hrest hbreak] at h
      simp at h
    · rw [quotedItem_of_plain hc hrest (isQuotedPlain_of_not hquote hbackslash hbreak)] at h
      obtain rfl : c.advance 1 = e := congrArg Prod.snd h
      simp [hrest]

/-- The rest of a quoted string after the text in `d` and the octets of an unfinished piece. -/
def quotedRest (d : TextDecoder) (piece : List UInt8) : Decoder String := do
  quotedUpTo ((← bound) + 1) d piece

/-- What follows one item of a quoted string. -/
def quotedAfter (d : TextDecoder) (piece : List UInt8) : Option UInt8 → Decoder String
  | none => do
    let d ← feed d piece true
    return d.finish
  | some b =>
    if pieceLength ≤ (piece ++ [b]).length then do
      let d ← feed d (piece ++ [b]) false
      quotedRest d []
    else
      quotedRest d (piece ++ [b])

theorem ofExcept_apply {α : Type} (r : Except DecodingError α) (c : Cursor) :
    ofExcept r c = (r.mapError .rejected, c) := by
  cases r <;> rfl

theorem feed_cases (d : TextDecoder) (piece : List UInt8) (last : Bool) (c : Cursor) :
    (∃ d', feed d piece last c = (.ok d', c)) ∨
      ∃ error, feed d piece last c = (.error (.rejected error), c) := by
  rw [feed, ofExcept_apply]
  cases d.feed piece last with
  | error e => exact Or.inr ⟨_, rfl⟩
  | ok d' => exact Or.inl ⟨d', rfl⟩

/-- Reading a piece of text moves nothing. -/
theorem feed_snd (d : TextDecoder) (piece : List UInt8) (last : Bool) (c : Cursor) :
    (feed d piece last c).2 = c := by
  rw [feed, ofExcept_apply]

theorem quotedUpTo_endsItself (d : TextDecoder) (piece : List UInt8) :
    EndsItself 1 fun limit => quotedUpTo limit d piece := by
  refine endsItself_of_rounds
    (x := fun limit (s : TextDecoder × List UInt8) => quotedUpTo limit s.1 s.2)
    (fun h => absurd h (by decide)) (fun m n s c hc hround => ?_) (d, piece)
  dsimp only [quotedUpTo]
  refine bind_congr_at fun item e he => ?_
  cases item with
  | none => rfl
  | some b =>
    have hlt : e.rest.length < c.rest.length := length_lt_of_quotedItem hc he
    have he' : e.Steady := Forward.quotedItem.steady_of_run hc he
    dsimp only
    split
    · refine bind_congr_at fun d' e' hd' => ?_
      obtain rfl : e = e' := by simpa [hd'] using (feed_snd s.1 (s.2 ++ [b]) false e).symm
      exact hround (d', []) e he' hlt
    · exact hround (s.1, s.2 ++ [b]) e he' hlt

theorem quotedRest_apply (hc : c.Steady) (d : TextDecoder) (piece : List UInt8) :
    quotedRest d piece c = (quotedItem >>= quotedAfter d piece) c := by
  change quotedUpTo (c.rest.length + 1) d piece c = _
  rw [quotedUpTo]
  refine bind_congr_at fun item e he => ?_
  cases item with
  | none => rfl
  | some b =>
    have hlt : e.rest.length < c.rest.length := length_lt_of_quotedItem hc he
    have he' : e.Steady := Forward.quotedItem.steady_of_run hc he
    dsimp only [quotedAfter]
    split
    · refine bind_congr_at fun d' e' hd' => ?_
      obtain rfl : e = e' := by simpa [hd'] using (feed_snd d (piece ++ [b]) false e).symm
      exact (quotedUpTo_endsItself d' []).eq he' (by omega) (Nat.le_refl _)
    · exact (quotedUpTo_endsItself d _).eq he' (by omega) (Nat.le_refl _)

/-! ### Literals -/

theorem literalMode_of_plus (hc : c.Steady) (h : c.rest = Octet.plus :: s) :
    literalMode c = (.ok .atOnce, c.advance 1) := by
  rw [literalMode, bind_of_ok (peek_of_rest hc h), if_pos (beq_self_eq_true _),
    bind_of_ok (consume_of_rest hc h)]
  rfl

theorem literalMode_of_ne (hc : c.Steady) (h : c.rest = b :: s) (hb : b ≠ Octet.plus) :
    literalMode c = (.ok .onRequest, c) := by
  rw [literalMode, bind_of_ok (peek_of_rest hc h), if_neg (by simpa using hb)]
  rfl

/-- The data is taken as a whole, whatever it is. -/
theorem literalData_apply (hc : c.Steady) {data : List UInt8} (hrest : c.rest = data ++ s) :
    (0 ∉ data ∧ literalData data.length c = (.ok data, c.advance data.length)) ∨
    ∃ i, data[i]? = some 0 ∧
      literalData data.length c =
        (.error (.rejected (.nulInLiteral i)), c.advance data.length) := by
  have hle : data.length ≤ c.rest.length := by
    rw [hrest, List.length_append]
    omega
  rw [literalData, bind_of_ok (take_of_le hc hle), hrest, List.take_left]
  cases hnul : data.findIdx? fun b => !Octet.isChar8 b with
  | none =>
    refine Or.inl ⟨fun hmem => ?_, rfl⟩
    exact absurd (List.findIdx?_eq_none_iff.1 hnul 0 hmem) (by decide)
  | some i =>
    obtain ⟨hi, hnul, -⟩ := List.findIdx?_eq_some_iff_getElem.1 hnul
    have hzero : data[i] = 0 := by simpa [Octet.isChar8] using hnul
    exact Or.inr ⟨i, by rw [List.getElem?_eq_getElem hi, hzero], rfl⟩

theorem literalData_of_le (hc : c.Steady) {n : Nat} (hn : n ≤ c.rest.length) :
    (∃ data, literalData n c = (.ok data, c.advance n)) ∨
      ∃ error, literalData n c = (.error (.rejected error), c.advance n) := by
  have hdata := literalData_apply hc (List.take_append_drop n c.rest).symm
  rw [List.length_take_of_le hn] at hdata
  rcases hdata with ⟨-, hrun⟩ | ⟨i, -, hrun⟩
  · exact Or.inl ⟨_, hrun⟩
  · exact Or.inr ⟨_, hrun⟩

theorem literalData_of_lt (hc : c.Steady) {n : Nat} (hn : c.rest.length < n) :
    ∃ e k, k ≤ c.rest.length ∧ literalData n c = (.error (.io e), c.advance k) := by
  obtain ⟨e, k, hk, h⟩ := take_of_lt hc hn
  exact ⟨e, k, hk, bind_of_error h⟩

/-! ### Discarding -/

/-- Discards the rest of a request, after octets in this state. -/
def discardFrom (a : Announcement) : Decoder Unit := do discardUpTo (← bound) a

theorem discardUpTo_endsItself (a : Announcement) :
    EndsItself 0 fun limit => discardUpTo limit a := by
  refine endsItself_of_rounds (fun _ a c hc hrest => ?_) (fun m n a c hc hround => ?_) a
  · rw [discardUpTo, discardUpTo, bind_of_ok (isConsumed_apply hc), hrest]
    rfl
  · rw [discardUpTo, discardUpTo, bind_of_ok (isConsumed_apply hc),
      bind_of_ok (isConsumed_apply hc)]
    cases hrest : c.rest with
    | nil => rfl
    | cons b s =>
      have hlt : (c.advance 1).rest.length < c.rest.length := by simp [hrest]
      simp only [List.isEmpty_cons, Bool.false_eq_true, ↓reduceIte]
      rw [bind_of_ok (consume_of_rest hc hrest), bind_of_ok (consume_of_rest hc hrest)]
      split
      · cases a.length? with
        | none => rfl
        | some k =>
          refine bind_congr_at fun _ d hd => ?_
          have hd' : d.Steady := (Forward.skip k).steady_of_run (hc.advance 1) hd
          have hle : d.rest.length ≤ (c.advance 1).rest.length :=
            (Forward.skip k).length_le_of_run (hc.advance 1) hd
          exact hround _ d hd' (Nat.lt_of_le_of_lt hle hlt)
      · exact hround _ _ (hc.advance 1) hlt

theorem discardFrom_of_nil (h : c.rest = []) (a : Announcement) :
    discardFrom a c = (.ok (), c) := by
  change discardUpTo c.rest.length a c = _
  rw [h]
  rfl

/-- An octet within a line. -/
theorem discardFrom_of_ne (hc : c.Steady) (h : c.rest = b :: s) (hb : b ≠ Octet.lf)
    (a : Announcement) : discardFrom a c = discardFrom (a.advance b) (c.advance 1) := by
  change discardUpTo c.rest.length a c = discardUpTo (c.advance 1).rest.length _ _
  have hlen : c.rest.length = (c.advance 1).rest.length + 1 := by simp [h]
  rw [hlen, discardUpTo, bind_of_ok (isConsumed_apply hc), h]
  simp only [List.isEmpty_cons, Bool.false_eq_true, ↓reduceIte]
  rw [bind_of_ok (consume_of_rest hc h), if_neg (by simpa using hb)]

/-- The end of a line that announces nothing. -/
theorem discardFrom_of_lf (hc : c.Steady) (h : c.rest = Octet.lf :: s) {a : Announcement}
    (ha : a.length? = none) : discardFrom a c = (.ok (), c.advance 1) := by
  change discardUpTo c.rest.length a c = _
  rw [h, List.length_cons, discardUpTo, bind_of_ok (isConsumed_apply hc), h]
  simp only [List.isEmpty_cons, Bool.false_eq_true, ↓reduceIte]
  rw [bind_of_ok (consume_of_rest hc h), if_pos (beq_self_eq_true _), ha]
  rfl

/-- The end of a line that announces a literal. -/
theorem discardFrom_of_announced (hc : c.Steady) (h : c.rest = Octet.lf :: s) {a : Announcement}
    {n : Nat} (ha : a.length? = some n) :
    discardFrom a c = (do skip n; discardFrom .none) (c.advance 1) := by
  change discardUpTo c.rest.length a c = _
  have hlen : c.rest.length = (c.advance 1).rest.length + 1 := by simp [h]
  rw [hlen, discardUpTo, bind_of_ok (isConsumed_apply hc), h]
  simp only [List.isEmpty_cons, Bool.false_eq_true, ↓reduceIte]
  rw [bind_of_ok (consume_of_rest hc h), if_pos (beq_self_eq_true _), ha]
  refine bind_congr_at fun _ d hd => ?_
  have hd' : d.Steady := (Forward.skip n).steady_of_run (hc.advance 1) hd
  have hle : d.rest.length ≤ (c.advance 1).rest.length :=
    (Forward.skip n).length_le_of_run (hc.advance 1) hd
  exact (discardUpTo_endsItself .none).eq hd' hle (Nat.le_refl _)

/-- Discarding fails only for lack of octets. -/
theorem discardFrom_error (n : Nat) : ∀ {c e : Cursor} {a : Announcement} {f : Failure}, c.Steady →
    c.rest.length ≤ n → discardFrom a c = (.error f, e) → ∃ io, f = .io io := by
  induction n with
  | zero =>
    intro c e a f _ hn h
    have hrest : c.rest = [] := List.length_eq_zero_iff.1 (Nat.le_zero.1 hn)
    simp [discardFrom_of_nil hrest] at h
  | succ n ih =>
    intro c e a f hc hn h
    cases hrest : c.rest with
    | nil => simp [discardFrom_of_nil hrest] at h
    | cons b bs =>
      have hlen : (c.advance 1).rest.length ≤ n := by simp [hrest] at hn ⊢; exact hn
      by_cases hb : b = Octet.lf
      · subst hb
        cases ha : a.length? with
        | none => simp [discardFrom_of_lf hc hrest ha] at h
        | some k =>
          rw [discardFrom_of_announced hc hrest ha] at h
          by_cases hk : k ≤ (c.advance 1).rest.length
          · rw [bind_of_ok (skip_of_le (hc.advance 1) hk)] at h
            refine ih ((hc.advance 1).advance k) ?_ h
            rw [Cursor.rest_advance, List.length_drop]
            omega
          · obtain ⟨io, m, _, hio⟩ := skip_of_lt (hc.advance 1) (Nat.not_le.1 hk)
            rw [bind_of_error hio] at h
            exact ⟨io, by simpa using (congrArg Prod.fst h).symm⟩
      · rw [discardFrom_of_ne hc hrest hb a] at h
        exact ih (hc.advance 1) hlen h

end Decoder

end ImapRequest
