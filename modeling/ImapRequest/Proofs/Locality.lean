import ImapRequest.Proofs.Arguments

/-!
# What is consumed decides

A decoder looks at the octets that it consumes and at most one more.  So a run that did not fail for
lack of octets is repeated by every run on the same octets, whatever comes after them, as long as
the octet right behind them is the same.  Where the last octet of the run ends a line, or where a
literal is refused, nothing behind the run matters at all.

* `Decoder.LocalAt` : what is consumed, and one more octet, decides a run;
* `Decoder.LocalAt.bind`, `Decoder.LocalAt.many` : sequences and repetition;
* `Decoder.Inline.localAt` : inline decoders;
* `Request.decode_eq_of_consumed` : requests.
-/

namespace ImapRequest

namespace Decoder

variable {α β : Type}

/-- The octets that a run consumes and the one behind them decide the run.  Where a literal is
refused, only the octets that were consumed do. -/
def LocalAt (x : Decoder α) (c : Cursor) : Prop :=
  ∃ w, c.Reaches w (x c).2 ∧ (Refused (x c).1 → w ≠ []) ∧
    (Conclusive (x c).1 → ∀ s, s.head? = (x c).2.rest.head? ∨ Refused (x c).1 →
      x (c.withRest (w ++ s)) = ((x c).1, (x c).2.withRest s))

namespace LocalAt

variable {x y : Decoder α} {f : α → Decoder β} {c : Cursor}

theorem congr (hc : c.Steady) (h : ∀ d : Cursor, d.Steady → x d = y d) (hy : LocalAt y c) :
    LocalAt x c := by
  obtain ⟨w, hw, hrefused, hsame⟩ := hy
  rw [← h c hc] at hw hrefused hsame
  exact ⟨w, hw, hrefused, fun hr s hs => by rw [h _ (hc.withRest _), hsame hr s hs]⟩

/-- Failing for lack of octets says nothing about other octets. -/
theorem of_io (hc : c.Steady) (hx : Forward x) {e : IoError} {d : Cursor}
    (h : x c = (.error (.io e), d)) : LocalAt x c := by
  obtain ⟨w, hw⟩ := hx c hc
  refine ⟨w, hw, ?_, fun hr => ?_⟩
  · rw [h]
    exact fun hrefused => absurd hrefused (not_refused_io e)
  · exact absurd (by rw [h]) (hr e)

/-- A run that consumes some octets and refuses no literal. -/
theorem of_run {w : List UInt8} {r : Except Failure α} {e : Cursor} (h : x c = (r, e))
    (hw : c.Reaches w e) (hrefused : ¬ Refused r)
    (hsame : ∀ s, s.head? = e.rest.head? → x (c.withRest (w ++ s)) = (r, e.withRest s)) :
    LocalAt x c := by
  refine ⟨w, by rw [h]; exact hw, by rw [h]; exact fun hr => absurd hr hrefused, ?_⟩
  rw [h]
  exact fun _ s hs => hsame s (hs.resolve_right hrefused)

theorem pure (a : α) (c : Cursor) : LocalAt (pure a) c :=
  of_run rfl (.refl c) (not_refused_ok a) fun _ _ => rfl

theorem reject (e : DecodingError) (c : Cursor) : LocalAt (reject e : Decoder α) c :=
  of_run rfl (.refl c) (not_refused_rejected e) fun _ _ => rfl

theorem bind (hx : LocalAt x c) (hf : ∀ a d, x c = (.ok a, d) → LocalAt (f a) d) :
    LocalAt (x >>= f) c := by
  obtain ⟨v, hv, hrefused, hsame⟩ := hx
  rcases h : x c with ⟨e | a, d⟩
  · rw [h] at hv hrefused hsame
    have hrun : (x >>= f) c = (.error e, d) := bind_of_error h
    refine ⟨v, by rw [hrun]; exact hv, ?_, ?_⟩
    · rw [hrun]
      rintro ⟨length, limit, heq⟩
      exact hrefused ⟨length, limit, by simpa using heq⟩
    · rw [hrun]
      intro hr s hs
      refine bind_of_error (hsame ?_ s (hs.imp_right ?_))
      · intro io hio
        exact hr io (by simpa using hio)
      · rintro ⟨length, limit, heq⟩
        exact ⟨length, limit, by simpa using heq⟩
  · rw [h] at hv hrefused hsame
    obtain ⟨w, hw, hrefused', hsame'⟩ := hf a d h
    have hrun : (x >>= f) c = f a d := bind_of_ok h
    refine ⟨v ++ w, by rw [hrun]; exact hv.trans hw, ?_, ?_⟩
    · rw [hrun]
      exact fun hr hnil => hrefused' hr (List.append_eq_nil_iff.1 hnil).2
    · rw [hrun]
      intro hr s hs
      -- What the first part saw behind itself is the front of the second part, or behind both.
      have hhead : (w ++ s).head? = d.rest.head? := by
        rw [hw.rest_eq]
        by_cases hnil : w = []
        · subst hnil
          exact hs.resolve_right fun hr => hrefused' hr rfl
        · obtain ⟨b, u, rfl⟩ := List.exists_cons_of_ne_nil hnil
          rfl
      have hfirst := hsame (fun _ => by simp) (w ++ s) (Or.inl hhead)
      rw [List.append_assoc, bind_of_ok hfirst, hsame' hr s hs]

theorem ite {p : Prop} [Decidable p] (hx : LocalAt x c) (hy : LocalAt y c) :
    LocalAt (if p then x else y) c := by
  split
  · exact hx
  · exact hy

/-! ### Octets -/

theorem peek (hc : c.Steady) : LocalAt peek c := by
  cases h : c.rest with
  | nil =>
    obtain ⟨e, he⟩ := peek_of_nil h
    exact of_io hc .peek he
  | cons b bs =>
    refine of_run (peek_of_rest hc h) (.refl c) (not_refused_ok b) fun s hs => ?_
    obtain ⟨t, rfl⟩ : ∃ t, s = b :: t := by simpa [h, List.head?_eq_some_iff] using hs
    exact peek_of_rest (hc.withRest _) rfl

theorem isConsumed (hc : c.Steady) : LocalAt isConsumed c := by
  refine of_run (isConsumed_apply hc) (.refl c) (not_refused_ok _) fun s hs => ?_
  rw [List.nil_append, isConsumed_apply (hc.withRest s), Cursor.rest_withRest]
  have h : s.isEmpty = c.rest.isEmpty := by
    cases s <;> cases hrest : c.rest <;> simp_all
  rw [h]

theorem consume (hc : c.Steady) : LocalAt consume c := by
  cases h : c.rest with
  | nil =>
    obtain ⟨e, he⟩ := consume_of_nil h
    exact of_io hc .consume he
  | cons b bs =>
    exact of_run (consume_of_rest hc h) (.front (w := [b]) h) (not_refused_ok b)
      fun s _ => consume_of_rest (hc.withRest _) rfl

theorem takeWhile (p : UInt8 → Bool) (hc : c.Steady) : LocalAt (takeWhile p) c := by
  obtain ⟨w, t, hrest, hw, ht⟩ := exists_run p c.rest
  refine of_run (takeWhile_of_rest hc hrest hw ht) (.front hrest) (not_refused_ok _) fun s hs => ?_
  have hs' : s.head? = t.head? := by simpa [hrest] using hs
  rw [takeWhile_of_rest (hc.withRest _) rfl hw (hs' ▸ ht), Cursor.withRest_append_advance]

theorem digits (hc : c.Steady) : LocalAt digits c := by
  rcases digits_cases c with ⟨ds, t, n, hrest, hds, ht⟩ | ⟨ds, b, t, hrest, hds, hb, hle, hlt⟩ |
    ⟨b, t, hrest, hb⟩ | hrest
  · refine of_run (digits_of_le hc hrest hds ht) (.front hrest) (not_refused_ok _) fun s hs => ?_
    have hs' : s.head? = t.head? := by simpa [hrest] using hs
    rw [digits_of_le (hc.withRest _) rfl hds (hs' ▸ ht), Cursor.withRest_append_advance]
  · have hrest' : c.rest = (ds ++ [b]) ++ t := by rw [hrest]; simp
    have hlen : (ds ++ [b]).length = ds.length + 1 := by simp
    have hw : c.Reaches (ds ++ [b]) (c.advance (ds.length + 1)) := by
      simpa using Cursor.Reaches.front hrest'
    refine of_run (digits_of_lt hc hrest hds hb hle hlt) hw
      (not_refused_rejected _) fun s _ => ?_
    rw [digits_of_lt (s := s) (hc.withRest _) (by simp) hds hb hle hlt, ← hlen,
      Cursor.withRest_append_advance]
  · refine of_run (digits_of_ne hc hrest hb) (.refl c) (not_refused_rejected _) fun s hs => ?_
    obtain ⟨u, rfl⟩ : ∃ u, s = b :: u := by simpa [hrest, List.head?_eq_some_iff] using hs
    exact digits_of_ne (hc.withRest _) rfl hb
  · obtain ⟨e, he⟩ := digits_of_nil hc hrest
    exact of_io hc .digits he

theorem take (n : Nat) (hc : c.Steady) : LocalAt (take n) c := by
  by_cases hn : n ≤ c.rest.length
  · have hlen : (c.rest.take n).length = n := List.length_take_of_le hn
    refine of_run (take_of_le hc hn) (.advance c hn) (not_refused_ok _) fun s _ => ?_
    have hle : n ≤ (c.withRest (c.rest.take n ++ s)).rest.length := by simp [hlen]
    rw [take_of_le (hc.withRest _) hle, Cursor.rest_withRest, List.take_left' hlen]
    have h := Cursor.withRest_append_advance c (c.rest.take n) s
    rw [hlen] at h
    rw [h]
  · obtain ⟨e, k, hk, he⟩ := take_of_lt hc (Nat.not_le.1 hn)
    exact of_io hc (.take n) he

theorem skip (n : Nat) (hc : c.Steady) : LocalAt (skip n) c := by
  by_cases hn : n ≤ c.rest.length
  · have hlen : (c.rest.take n).length = n := List.length_take_of_le hn
    refine of_run (skip_of_le hc hn) (.advance c hn) (not_refused_ok _) fun s _ => ?_
    have hle : n ≤ (c.withRest (c.rest.take n ++ s)).rest.length := by simp [hlen]
    have h := Cursor.withRest_append_advance c (c.rest.take n) s
    rw [hlen] at h
    rw [skip_of_le (hc.withRest _) hle, h]
  · obtain ⟨e, k, hk, he⟩ := skip_of_lt hc (Nat.not_le.1 hn)
    exact of_io hc (.skip n) he

theorem request (c : Cursor) : LocalAt request c := by
  rcases request_eq c with h | h
  · refine of_run h (.asked c) (not_refused_ok _) fun s _ => ?_
    rw [List.nil_append, request_withRest, h]
  · refine ⟨[], by rw [h]; exact .refl c, ?_, fun hr => absurd (by rw [h]) (hr .writerFailed)⟩
    rw [h]
    exact fun hr => absurd hr (not_refused_io _)

theorem expect (b : UInt8) (hc : c.Steady) : LocalAt (expect b) c := by
  refine (peek hc).bind fun a d hd => .ite ?_ (reject _ d)
  have hd' : d.Steady := Forward.peek.steady_of_run hc hd
  exact (consume hd').bind fun _ d _ => pure _ d

theorem ofExcept (r : Except DecodingError α) (c : Cursor) : LocalAt (ofExcept r) c := by
  cases r with
  | ok a => exact pure a c
  | error e => exact reject e c

/-- A sequence on a steady source, where the first decoder moves forward. -/
theorem bind_forward (hc : c.Steady) (hforward : Forward x) (hx : LocalAt x c)
    (hf : ∀ a d, d.Steady → d.rest.length ≤ c.rest.length → LocalAt (f a) d) :
    LocalAt (x >>= f) c := by
  refine hx.bind fun a d hd => hf a d ?_ ?_
  · exact hforward.steady_of_run hc hd
  · exact hforward.length_le_of_run hc hd

/-! ### Strings -/

theorem eol (leniency : Leniency) (hc : c.Steady) : LocalAt (eol leniency) c := by
  refine (peek hc).bind_forward hc .peek fun b d hd _ => .ite ?_ (.ite (.ite ?_ ?_) ?_)
  · refine (consume hd).bind_forward hd .consume fun _ d hd _ => ?_
    refine (peek hd).bind_forward hd .peek fun _ d hd _ => .ite ?_ (reject _ d)
    exact (consume hd).bind fun _ d _ => pure _ d
  · exact (consume hd).bind fun _ d _ => pure _ d
  · exact reject _ d
  · exact reject _ d

theorem quotedItem (hc : c.Steady) : LocalAt quotedItem c := by
  refine (peek hc).bind_forward hc .peek fun b d hd _ => .ite ?_ (.ite ?_ (.ite ?_ ?_))
  · exact (consume hd).bind fun _ d _ => pure _ d
  · refine (consume hd).bind_forward hd .consume fun _ d hd _ => ?_
    refine (peek hd).bind_forward hd .peek fun _ d hd _ => .ite ?_ (reject _ d)
    exact (consume hd).bind fun _ d _ => pure _ d
  · exact reject _ d
  · exact (consume hd).bind fun _ d _ => pure _ d

/-- By induction on the octets that are left: what follows an item has fewer of them. -/
theorem quotedRest (n : Nat) : ∀ {c : Cursor} (d : TextDecoder) (piece : List UInt8), c.Steady →
    c.rest.length ≤ n → LocalAt (quotedRest d piece) c := by
  induction n with
  | zero =>
    intro c d piece hc hn
    have hrest : c.rest = [] := List.length_eq_zero_iff.1 (Nat.le_zero.1 hn)
    obtain ⟨e, he⟩ := quotedItem_of_nil hrest
    exact of_io hc (Forward.bound.bind fun _ => .quotedUpTo _ _ _)
      ((quotedRest_apply hc d piece).trans (bind_of_error he))
  | succ n ih =>
    intro c d piece hc hn
    refine congr hc (fun c hc => quotedRest_apply hc d piece) ?_
    refine (quotedItem hc).bind fun item e he => ?_
    have he' : e.Steady := Forward.quotedItem.steady_of_run hc he
    cases item with
    | none => exact (ofExcept _ e).bind fun _ e _ => pure _ e
    | some b =>
      have hlt : e.rest.length < c.rest.length := length_lt_of_quotedItem hc he
      refine .ite ?_ (ih _ _ he' (by omega))
      exact (ofExcept _ e).bind_forward he' (.ofExcept _) fun _ _ hd' hle => ih _ _ hd' (by omega)

theorem quoted (charset : Charset) (hc : c.Steady) : LocalAt (quoted charset) c :=
  (expect _ hc).bind_forward hc (.expect _) fun _ _ hd _ => quotedRest _ _ _ hd (Nat.le_refl _)

theorem quotedToken (hc : c.Steady) : LocalAt quotedToken c :=
  (expect _ hc).bind_forward hc (.expect _) fun _ _ hd _ =>
    (takeWhile _ hd).bind_forward hd (.takeWhile _) fun _ _ hd _ =>
      (expect _ hd).bind fun _ d _ => pure _ d

/-- Where a literal is refused, its closing brace was consumed. -/
theorem refuse (length limit : Nat) (hc : c.Steady) :
    LocalAt (do Decoder.expect Octet.rbrace; fail (.literalTooLarge length limit) :
      Decoder α) c := by
  cases h : c.rest with
  | nil =>
    obtain ⟨e, he⟩ := expect_of_nil h Octet.rbrace
    exact of_io hc ((Forward.expect _).bind fun _ => .fail _) (bind_of_error he)
  | cons b bs =>
    by_cases hb : b = Octet.rbrace
    · subst hb
      have hrun : ∀ d : Cursor, d.Steady → ∀ s, d.rest = Octet.rbrace :: s →
          (do Decoder.expect Octet.rbrace; fail (.literalTooLarge length limit) : Decoder α) d =
            (.error (.literalTooLarge length limit), d.advance 1) :=
        fun d hd s hs => bind_of_ok (expect_of_rest hd hs)
      refine ⟨[Octet.rbrace], ?_, fun _ => by simp, fun _ s _ => ?_⟩
      · rw [hrun c hc bs h]
        exact .front (w := [Octet.rbrace]) h
      · rw [hrun c hc bs h]
        exact hrun _ (hc.withRest _) s rfl
    · refine of_run (bind_of_error (expect_of_ne hc h hb)) (.refl c) (not_refused_rejected _)
        fun s hs => ?_
      obtain ⟨u, rfl⟩ : ∃ u, s = b :: u := by simpa [h, List.head?_eq_some_iff] using hs
      exact bind_of_error (expect_of_ne (hc.withRest _) rfl hb)

theorem literalMode (hc : c.Steady) : LocalAt literalMode c := by
  refine (peek hc).bind_forward hc .peek fun _ d hd _ => .ite ?_ (pure _ d)
  exact (consume hd).bind fun _ d _ => pure _ d

theorem announcement (ctx : Context) (hc : c.Steady) : LocalAt (announcement ctx) c := by
  refine (expect _ hc).bind_forward hc (.expect _) fun _ d hd _ => ?_
  refine (digits hd).bind_forward hd .digits fun length d hd _ => ?_
  refine (literalMode hd).bind_forward hd .literalMode fun mode d hd _ => ?_
  by_cases hlength : ctx.maxLiteral < length
  · simp only [if_pos hlength]
    cases mode with
    | atOnce => exact refuse _ _ hd
    | onRequest => exact (expect _ hd).bind fun _ d _ => reject _ d
  · simp only [if_neg hlength]
    refine (expect _ hd).bind_forward hd (.expect _) fun _ d hd _ => ?_
    exact (eol _ hd).bind fun _ d _ => pure _ d

theorem literalData (length : Nat) (hc : c.Steady) : LocalAt (literalData length) c := by
  refine (take length hc).bind fun data d _ => ?_
  split
  · exact reject _ d
  · exact pure _ d

theorem literalOctets (ctx : Context) (hc : c.Steady) : LocalAt (literalOctets ctx) c :=
  (announcement ctx hc).bind_forward hc (.announcement ctx) fun ⟨length, _⟩ d hd _ => .ite
    ((request d).bind_forward hd .request fun _ _ hd _ => literalData length hd)
    (literalData length hd)

/-! ### Repetition -/

/-- By induction on the octets that are left: the announcement of an element consumes some. -/
theorem many {more : Decoder Bool} {element : Decoder α} (hadvances : Advances more)
    (hmore : Forward more) (helement : Forward element)
    (hm : ∀ c : Cursor, c.Steady → LocalAt more c)
    (he : ∀ c : Cursor, c.Steady → LocalAt element c) (n : Nat) : ∀ {c : Cursor}, c.Steady →
    c.rest.length < n → LocalAt (many more element) c := by
  induction n with
  | zero => intro c _ hn; exact absurd hn (Nat.not_lt_zero _)
  | succ n ih =>
    intro c hc hn
    refine congr hc (fun c hc => many_apply hadvances hmore helement hc) ?_
    refine (hm c hc).bind fun t d hd => ?_
    have hd' : d.Steady := hmore.steady_of_run hc hd
    cases t with
    | false => exact pure _ d
    | true =>
      have hlt : d.rest.length < c.rest.length := hadvances c d hc hd
      refine (he d hd').bind_forward hd' helement fun a e he' hle => ?_
      exact (ih he' (by omega)).bind fun _ d _ => pure _ d

end LocalAt

/-- What an inline decoder answers is decided by what it consumes and one more octet. -/
theorem Inline.localAt {limit : Nat} {leniency : Leniency} {x : Decoder α}
    (h : Inline limit leniency x) : ∀ {c : Cursor}, c.Steady → LocalAt x c := by
  induction h with
  | pure a => exact fun {c} _ => .pure a c
  | reject e => exact fun {c} _ => .reject e c
  | peek => exact .peek
  | isConsumed => exact .isConsumed
  | expect b => exact .expect b
  | takeWhile p => exact .takeWhile p
  | digits => exact .digits
  | quotedToken => exact .quotedToken
  | quoted charset => exact .quoted charset
  | literalOctets ctx => exact .literalOctets ctx
  | bind hx _ ihx ihf =>
    exact fun hc => (ihx hc).bind_forward hc hx.forward fun a d hd _ => ihf a hd
  | many hadvances hmore helement ihmore ihelement =>
    exact fun hc => .many hadvances hmore.forward helement.forward (fun _ => ihmore)
      (fun _ => ihelement) _ hc (Nat.lt_succ_self _)

theorem LocalAt.attempt {x : Decoder α} {c : Cursor} (h : LocalAt x c) :
    LocalAt (attempt x) c := by
  obtain ⟨w, hw, hrefused, hsame⟩ := h
  rcases hrun : x c with ⟨f | a, d⟩ <;> rw [hrun] at hw hrefused hsame
  · cases f with
    | rejected error =>
      refine of_run (attempt_of_rejected hrun) hw (not_refused_ok _) fun s hs => ?_
      exact attempt_of_rejected (hsame (fun _ => by simp) s (Or.inl hs))
    | io e =>
      have hfail := attempt_of_fatal hrun rfl
      refine ⟨w, by rw [hfail]; exact hw, ?_, ?_⟩ <;> rw [hfail]
      · exact fun hr => absurd hr (not_refused_io e)
      · exact fun hr => absurd rfl (hr e)
    | literalTooLarge length limit =>
      have hfail := attempt_of_fatal hrun rfl
      have hr : Refused (.error (.literalTooLarge length limit) : Except Failure α) :=
        ⟨length, limit, rfl⟩
      refine ⟨w, by rw [hfail]; exact hw, fun _ => hrefused hr, fun _ s _ => ?_⟩
      rw [hfail]
      exact attempt_of_fatal (hsame (fun _ => by simp) s (Or.inr hr)) rfl
  · refine of_run (attempt_of_ok hrun) hw (not_refused_ok _) fun s hs => ?_
    exact attempt_of_ok (hsame (fun _ => by simp) s (Or.inl hs))

/-! ### Runs that end sharply -/

/-- The octets that a run consumes, of which there are some, decide it. -/
def SharpAt (x : Decoder α) (c : Cursor) : Prop :=
  ∃ w, c.Reaches w (x c).2 ∧ w ≠ [] ∧ ∀ s, x (c.withRest (w ++ s)) = ((x c).1, (x c).2.withRest s)

namespace SharpAt

variable {x : Decoder α} {f : α → Decoder β} {c d e : Cursor} {a : α}

/-- Refusing a literal is sharp. -/
theorem of_refused (h : LocalAt x c) (hr : Refused (x c).1) : SharpAt x c := by
  obtain ⟨w, hw, hrefused, hsame⟩ := h
  refine ⟨w, hw, hrefused hr, fun s => hsame ?_ s (Or.inr hr)⟩
  obtain ⟨length, limit, hr⟩ := hr
  intro io
  simp [hr]

theorem of_run {w : List UInt8} {r : Except Failure α} (h : x c = (r, e)) (hw : c.Reaches w e)
    (hne : w ≠ []) (hsame : ∀ s, x (c.withRest (w ++ s)) = (r, e.withRest s)) : SharpAt x c :=
  ⟨w, by rw [h]; exact hw, hne, by rw [h]; exact hsame⟩

/-- A sharp end makes the whole run sharp. -/
theorem bind (hx : LocalAt x c) (hrun : x c = (.ok a, d)) (hf : SharpAt (f a) d) :
    SharpAt (x >>= f) c := by
  obtain ⟨v, hv, -, hsame⟩ := hx
  obtain ⟨w, hw, hne, hsame'⟩ := hf
  rw [hrun] at hv hsame
  refine of_run (bind_of_ok hrun) (hv.trans hw) (by simp [hne]) fun s => ?_
  have hhead : (w ++ s).head? = d.rest.head? := by
    obtain ⟨b, u, rfl⟩ := List.exists_cons_of_ne_nil hne
    rw [hw.rest_eq]
    rfl
  rw [List.append_assoc, bind_of_ok (hsame (fun _ => by simp) _ (Or.inl hhead)), hsame' s]

/-- A refusal ends the whole run. -/
theorem bind_refused (hx : LocalAt x c) {length limit : Nat}
    (hrun : x c = (.error (.literalTooLarge length limit), d)) : SharpAt (x >>= f) c := by
  obtain ⟨w, hw, hne, hsame⟩ := of_refused hx ⟨length, limit, by rw [hrun]⟩
  rw [hrun] at hw hsame
  exact of_run (bind_of_error hrun) hw hne fun s => bind_of_error (hsame s)

theorem bind_pure {g : α → β} (hx : SharpAt x c) (hrun : x c = (.ok a, d)) :
    SharpAt (do return g (← x)) c := by
  obtain ⟨w, hw, hne, hsame⟩ := hx
  rw [hrun] at hw hsame
  have hrun' : ∀ {c d : Cursor}, x c = (.ok a, d) → (do return g (← x)) c = (.ok (g a), d) :=
    fun h => bind_of_ok h
  exact of_run (hrun' hrun) hw hne fun s => hrun' (hsame s)

theorem attempt (hx : SharpAt x c) (hrun : x c = (.ok a, d)) : SharpAt (attempt x) c := by
  obtain ⟨w, hw, hne, hsame⟩ := hx
  rw [hrun] at hw hsame
  exact of_run (attempt_of_ok hrun) hw hne fun s => attempt_of_ok (hsame s)

theorem eol {leniency : Leniency} (hc : c.Steady) (h : eol leniency c = (.ok (), e)) :
    SharpAt (eol leniency) c := by
  cases hrest : c.rest with
  | nil =>
    obtain ⟨f, hf⟩ : ∃ f, Decoder.eol leniency c = (.error (.io f), c) := eol_of_nil hrest
    simp [hf] at h
  | cons b bs =>
    by_cases hcr : b = Octet.cr
    · subst hcr
      cases bs with
      | nil =>
        obtain ⟨f, hf⟩ : ∃ f, Decoder.eol leniency c = (.error (.io f), c.advance 1) :=
          eol_of_cr_nil hc hrest
        simp [hf] at h
      | cons b' bs =>
        by_cases hlf : b' = Octet.lf
        · subst hlf
          exact of_run (eol_of_crlf hc hrest) (.front (w := [Octet.cr, Octet.lf]) hrest) (by simp)
            fun s => eol_of_crlf (hc.withRest _) rfl
        · simp [eol_of_cr hc hrest hlf] at h
    by_cases hlf : b = Octet.lf
    · subst hlf
      cases hbare : leniency.bareLineFeed with
      | true =>
        exact of_run (eol_of_lf hc hrest hbare) (.front (w := [Octet.lf]) hrest) (by simp)
          fun s => eol_of_lf (hc.withRest _) rfl hbare
      | false => simp [eol_of_strict_lf hc hrest hbare] at h
    · simp [eol_of_ne hc hrest hcr hlf] at h

/-- One octet, and a sharp run after it. -/
theorem cons {y : Decoder α} {b : UInt8} {bs : List UInt8} (hc : c.Steady)
    (hrest : c.rest = b :: bs)
    (hstep : ∀ d : Cursor, d.Steady → ∀ s, d.rest = b :: s → x d = y (d.advance 1))
    (hy : SharpAt y (c.advance 1)) : SharpAt x c := by
  obtain ⟨w, hw, -, hsame⟩ := hy
  have hfront : c.Reaches [b] (c.advance 1) := .front (w := [b]) hrest
  rw [← hstep c hc bs hrest] at hw hsame
  refine ⟨b :: w, hfront.trans hw, by simp, fun s => ?_⟩
  exact (hstep _ (hc.withRest _) (w ++ s) rfl).trans (hsame s)

/-- Discarding ends sharply unless it ends with the octets. -/
theorem discardFrom (n : Nat) : ∀ {c : Cursor} {a : Announcement}, c.Steady →
    c.rest.length ≤ n → discardFrom a c = (.ok (), e) → e.rest ≠ [] →
    SharpAt (discardFrom a) c := by
  induction n with
  | zero =>
    intro c a _ hn h hne
    have hrest : c.rest = [] := List.length_eq_zero_iff.1 (Nat.le_zero.1 hn)
    rw [discardFrom_of_nil hrest] at h
    obtain rfl : c = e := congrArg Prod.snd h
    exact absurd hrest hne
  | succ n ih =>
    intro c a hc hn h hne
    cases hrest : c.rest with
    | nil =>
      rw [discardFrom_of_nil hrest] at h
      obtain rfl : c = e := congrArg Prod.snd h
      exact absurd hrest hne
    | cons b bs =>
      have hlen : (c.advance 1).rest.length ≤ n := by simp [hrest] at hn ⊢; exact hn
      by_cases hb : b = Octet.lf
      · subst hb
        cases ha : a.length? with
        | none =>
          exact of_run (discardFrom_of_lf hc hrest ha) (.front (w := [Octet.lf]) hrest) (by simp)
            fun s => discardFrom_of_lf (hc.withRest _) rfl ha
        | some k =>
          rw [discardFrom_of_announced hc hrest ha] at h
          have hk : k ≤ (c.advance 1).rest.length := by
            refine Nat.not_lt.1 fun hk => ?_
            obtain ⟨f, m, _, hf⟩ := skip_of_lt (hc.advance 1) hk
            simp [bind_of_error hf] at h
          have hskip := skip_of_le (hc.advance 1) hk
          rw [bind_of_ok hskip] at h
          -- Discarding goes on behind the data, where fewer octets are left.
          have hle : ((c.advance 1).advance k).rest.length ≤ n := by
            rw [Cursor.rest_advance, List.length_drop]
            omega
          refine cons hc hrest (fun d hd s hs => discardFrom_of_announced hd hs ha) ?_
          exact bind (.skip k (hc.advance 1)) hskip (ih ((hc.advance 1).advance k) hle h hne)
      · rw [discardFrom_of_ne hc hrest hb a] at h
        exact cons hc hrest (fun d hd s hs => discardFrom_of_ne hd hs hb a)
          (ih (hc.advance 1) hlen h hne)

end SharpAt

end Decoder

namespace Request

open Decoder

variable {ctx : Context} {c e : Cursor} {r : Except Failure Request}

/-- The answer does not depend on octets that may still come: it is a command, a refused literal,
or a malformed request whose end was seen. -/
def Settled (r : Except Failure Request) (e : Cursor) : Prop :=
  match r with
  | .ok (.command _) => True
  | .ok (.malformed _ _) => e.rest ≠ []
  | .error (.literalTooLarge _ _) => True
  | .error _ => False

theorem discard_sharpAt {tag : Option Tag} {error : DecodingError} (hc : c.Steady)
    (h : discard tag error c = (r, e)) (hr : Settled r e) : SharpAt (discard tag error) c := by
  rcases hline : discardLine c with ⟨f | u, d⟩
  · obtain ⟨io, rfl⟩ := discardFrom_error _ hc (Nat.le_refl _) hline
    rw [discard_of_error hline] at h
    obtain ⟨rfl, rfl⟩ : Except.error (.io io) = r ∧ d = e := by simpa using h
    exact absurd hr id
  · rw [discard_of_ok hline] at h
    obtain ⟨rfl, rfl⟩ : .ok (.malformed tag error) = r ∧ d = e := by simpa using h
    exact SharpAt.bind_pure (SharpAt.discardFrom _ hc (Nat.le_refl _) hline hr) hline

theorem decodeCommand_localAt (tag : Tag) (hc : c.Steady) : LocalAt (decodeCommand ctx tag) c := by
  rw [decodeCommand_eq]
  refine ((decodeUnended_inline ctx tag).localAt hc).bind_forward hc
    (decodeUnended_inline ctx tag).forward fun _ d hd _ => ?_
  exact (LocalAt.eol _ hd).bind fun _ d _ => .pure _ d

theorem decodeCommand_sharpAt {tag : Tag} {command : Command} (hc : c.Steady)
    (h : decodeCommand ctx tag c = (.ok command, e)) : SharpAt (decodeCommand ctx tag) c := by
  rw [decodeCommand_eq] at h ⊢
  obtain ⟨command', d, hrun, h⟩ := exists_of_bind h
  have hd : d.Steady := (decodeUnended_inline ctx tag).forward.steady_of_run hc hrun
  obtain ⟨_, d', heol, -⟩ := exists_of_bind h
  exact .bind ((decodeUnended_inline ctx tag).localAt hc) hrun
    (SharpAt.bind_pure (SharpAt.eol hd heol) heol)

/-- A settled answer is decided by the octets that were consumed. -/
theorem decode_sharpAt (hc : c.Steady) (h : decode ctx c = (r, e)) (hr : Settled r e) :
    SharpAt (decode ctx) c := by
  have hinline : Inline ctx.maxLiteral ctx.leniency Tag.decode := Tag.decode_inline
  have htag : LocalAt (attempt Tag.decode) c := (hinline.localAt hc).attempt
  rcases hrun : Tag.decode c with ⟨f | tag, d⟩
  · cases f with
    | rejected error =>
      have hd : d.Steady := Tag.decode_forward.steady_of_run hc hrun
      rw [decode, bind_of_ok (attempt_of_rejected hrun)] at h
      exact .bind htag (attempt_of_rejected hrun) (discard_sharpAt hd h hr)
    | io io =>
      rw [decode, bind_of_error (attempt_of_fatal hrun rfl)] at h
      obtain ⟨rfl, rfl⟩ : Except.error (.io io) = r ∧ d = e := by simpa using h
      exact absurd hr id
    | literalTooLarge length limit => exact .bind_refused htag (attempt_of_fatal hrun rfl)
  · have hd : d.Steady := Tag.decode_forward.steady_of_run hc hrun
    -- The tag was read, so the end of the command decides.
    refine .bind htag (attempt_of_ok hrun) ?_
    rw [decode_of_tag hrun] at h
    have hcommand : LocalAt (attempt (decodeCommand ctx tag)) d :=
      (decodeCommand_localAt tag hd).attempt
    rcases hrun' : decodeCommand ctx tag d with ⟨f | command, d'⟩
    · cases f with
      | rejected error =>
        have hd' : d'.Steady := (decodeCommand_forward ctx tag).steady_of_run hd hrun'
        rw [bind_of_ok (attempt_of_rejected hrun')] at h
        exact .bind hcommand (attempt_of_rejected hrun') (discard_sharpAt hd' h hr)
      | io io =>
        rw [bind_of_error (attempt_of_fatal hrun' rfl)] at h
        obtain ⟨rfl, rfl⟩ : Except.error (.io io) = r ∧ d' = e := by simpa using h
        exact absurd hr id
      | literalTooLarge length limit => exact .bind_refused hcommand (attempt_of_fatal hrun' rfl)
    · obtain ⟨w, hw, hne, hsame⟩ := (decodeCommand_sharpAt hd hrun').attempt hrun'
      rw [attempt_of_ok hrun'] at hw hsame
      exact .of_run (bind_of_ok (attempt_of_ok hrun')) hw hne fun s => bind_of_ok (hsame s)

/-- Where the source shows nothing more, there is not even one octet of a tag. -/
theorem decode_of_isConsumed (ctx : Context) (h : c.isConsumed = true) :
    ∃ io, decode ctx c = (.error (.io io), c) := by
  obtain ⟨io, hpeek⟩ := peek_of_isConsumed h
  have hconsumed : Decoder.isConsumed c = (.ok true, c) := by rw [Decoder.isConsumed, h]
  have hrun : Decoder.takeWhile Octet.isTagChar c = (.ok [], c) := by
    change takeWhileUpTo Octet.isTagChar c.rest.length c = _
    cases c.rest.length with
    | zero => rfl
    | succ n => rw [takeWhileUpTo, bind_of_ok hconsumed]; rfl
  have htag : Tag.decode c = (.error (.io io), c) := by
    refine bind_of_error ?_
    rw [takeWhile1, bind_of_ok hrun]
    exact bind_of_error hpeek
  exact ⟨io, by rw [decode, bind_of_error (attempt_of_fatal htag rfl)]⟩

theorem decode_of_not_steady (ctx : Context) (hc : ¬ c.Steady) :
    ∃ io, decode ctx c = (.error (.io io), c) :=
  decode_of_isConsumed ctx (Cursor.isConsumed_of_not_steady hc)

/-- A source that shows nothing gives no settled answer. -/
theorem steady_of_settled (h : decode ctx c = (r, e)) (hr : Settled r e) : c.Steady := by
  refine Classical.byContradiction fun hc => ?_
  obtain ⟨io, hio⟩ := decode_of_not_steady ctx hc
  obtain ⟨rfl, rfl⟩ : Except.error (.io io) = r ∧ c = e := by simpa [hio] using h
  exact hr

/-- **Locality.**  A settled answer is given again, at the same position and with the same requests
for data, to all octets that begin with those it consumed, and no command is read from fewer. -/
theorem decode_eq_of_consumed (h : decode ctx c = (r, e)) (hr : Settled r e) :
    ∃ n ≤ c.rest.length, e.position = c.position + n ∧ e.rest = c.rest.drop n ∧
      (∀ bs : List UInt8, n ≤ bs.length → bs.take n = c.rest.take n →
        decode ctx (c.withRest bs) = (r, e.withRest (bs.drop n))) ∧
      ∀ m < n, ∀ command d,
        decode ctx (c.withRest (c.rest.take m)) ≠ (.ok (.command command), d) := by
  have hc := steady_of_settled h hr
  obtain ⟨w, hw, -, hsame⟩ := decode_sharpAt hc h hr
  rw [h] at hw hsame
  have htake : c.rest.take w.length = w := by rw [hw.rest_eq, List.take_left]
  refine ⟨w.length, ?_, hw.position_eq, ?_, ?_, ?_⟩
  · rw [hw.rest_eq, List.length_append]
    omega
  · rw [hw.rest_eq, List.drop_left]
  · intro bs _ hbs
    obtain ⟨s, rfl⟩ : ∃ s, bs = w ++ s :=
      ⟨bs.drop w.length, by
        have hsplit := (List.take_append_drop w.length bs).symm
        rwa [hbs, htake] at hsplit⟩
    rw [hsame s, List.drop_left]
  · -- A command read from the first `m` octets would be read from all of them, too early.
    intro m hm command d hcommand
    obtain ⟨v, hv, -, hsame'⟩ := decode_sharpAt (hc.withRest _) hcommand trivial
    rw [hcommand] at hv hsame'
    have hlen : v.length ≤ m := by
      have hle := congrArg List.length hv.rest_eq
      rw [Cursor.rest_withRest, List.length_take, List.length_append] at hle
      omega
    obtain ⟨s, hs⟩ : ∃ s, c.rest = v ++ s :=
      ⟨d.rest ++ c.rest.drop m, by
        rw [← List.append_assoc, ← hv.rest_eq, Cursor.rest_withRest, List.take_append_drop]⟩
    have hagain := hsame' s
    rw [Cursor.withRest_withRest, ← hs, Cursor.withRest_rest, h] at hagain
    have hposition : e.position = d.position := by rw [(Prod.mk.inj hagain).2]; rfl
    have hfar := hw.position_eq
    have hnear := hv.position_eq
    rw [Cursor.position_withRest] at hnear
    dsimp only at hfar hnear
    omega

/-- A command is read without the octets behind it as it was read with them. -/
theorem decode_eq_of_consumed_noop :
    decode {} (.ofOctets (Octet.ofText "A NOOP\r\nB")) =
        (.ok (.command ⟨⟨"A"⟩, .noop⟩), ⟨Octet.ofText "B", 8, [], .memory⟩) ∧
      decode {} (.ofOctets (Octet.ofText "A NOOP\r\n")) =
        (.ok (.command ⟨⟨"A"⟩, .noop⟩), ⟨[], 8, [], .memory⟩) := by
  have hrun : decode {} (.ofOctets (Octet.ofText "A NOOP\r\nB")) =
      (.ok (.command ⟨⟨"A"⟩, .noop⟩), ⟨Octet.ofText "B", 8, [], .memory⟩) := by cbv
  obtain ⟨n, -, hn, -, hsame, -⟩ := decode_eq_of_consumed hrun trivial
  obtain rfl : 8 = n := hn.trans (Nat.zero_add n)
  refine ⟨hrun, ?_⟩
  have h := hsame (Octet.ofText "A NOOP\r\n") (by cbv) (by cbv)
  have hrest : (Octet.ofText "A NOOP\r\n").drop 8 = [] := by cbv
  rw [hrest] at h
  exact h

end Request

end ImapRequest
