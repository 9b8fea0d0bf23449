import ImapRequest.Proofs.Announcement
import ImapRequest.Proofs.Arguments

/-!
# Staying within a line

On a line that does not end in the announcement of a literal an inline decoder stays within the
line, and what it reads there, or why it rejects the line, depends on the line alone.

* `Octet.IsPlainLine` : a line that announces no literal at its end;
* `Decoder.Contained` : a decoder stays within a line and can not tell what comes after it;
* `Decoder.Inline.contained` : inline decoders do.
-/

namespace ImapRequest

namespace Octet

/-- The line ends in the announcement of a literal, of either form. -/
def EndsInAnnouncement (line : List UInt8) : Prop :=
  ∃ (front : List UInt8) (mode : LiteralMode) (ds tail : List UInt8),
    line = front ++ (mode.announced ds ++ tail) ∧ ds ≠ [] ∧ ds.all isDigit = true ∧ IsLineTail tail

/-- The octets of a line before its line feed, which announce no literal. -/
structure IsPlainLine (line : List UInt8) : Prop where
  no_lf : lf ∉ line
  no_announcement : ¬ EndsInAnnouncement line

theorem IsPlainLine.of_append {w t : List UInt8} (h : IsPlainLine (w ++ t)) : IsPlainLine t where
  no_lf hmem := h.no_lf (List.mem_append_right w hmem)
  no_announcement := by
    rintro ⟨front, mode, ds, tail, rfl, hds⟩
    exact h.no_announcement ⟨w ++ front, mode, ds, tail, by simp, hds⟩

/-- Without a closing brace nothing is announced. -/
theorem IsPlainLine.of_all {line : List UInt8}
    (h : (line.all fun b => b != lf && b != rbrace) = true) : IsPlainLine line where
  no_lf hmem := by simpa using List.all_eq_true.1 h _ hmem
  no_announcement := by
    rintro ⟨front, mode, ds, tail, rfl, -⟩
    have hmem : rbrace ∈ front ++ (mode.announced ds ++ tail) := by simp [LiteralMode.announced]
    simpa using List.all_eq_true.1 h _ hmem

/-- The octets of a line before its line feed, behind which no data comes without waiting. -/
structure IsWaitingLine (line : List UInt8) : Prop where
  no_lf : lf ∉ line
  no_announcement : ∀ front ds n tail,
    line = front ++ (LiteralMode.atOnce.announced ds ++ tail) → Decimal.IsNumber ds n →
      ¬ IsLineTail tail

theorem IsWaitingLine.of_append {w t : List UInt8} (h : IsWaitingLine (w ++ t)) :
    IsWaitingLine t where
  no_lf hmem := h.no_lf (List.mem_append_right w hmem)
  no_announcement := by
    rintro front ds n tail rfl
    exact h.no_announcement (w ++ front) ds n tail (by simp)

theorem IsPlainLine.isWaitingLine {line : List UInt8} (h : IsPlainLine line) :
    IsWaitingLine line where
  no_lf := h.no_lf
  no_announcement front ds _ tail heq hds htail :=
    h.no_announcement ⟨front, .atOnce, ds, tail, heq, hds.ne_nil, hds.all_isDigit, htail⟩

end Octet

namespace Decoder

open Octet (IsPlainLine)

variable {α β : Type}

/-- A literal is refused only if the line announces it, beyond the limit. -/
def RefusedIn (limit : Nat) (line : List UInt8) (r : Except Failure α) : Prop :=
  ∀ n m, r = .error (.literalTooLarge n m) →
    m = limit ∧ limit < n ∧ ∃ ds, Decimal.IsNumber ds n ∧ LiteralMode.atOnce.announced ds <:+: line

/-- On this line the decoder stays within the line and does not fail for lack of octets.  Neither
its answer nor its position depends on what comes after the line. -/
def Contained (limit : Nat) (x : Decoder α) (line : List UInt8) : Prop :=
  ∃ w t r, line = w ++ t ∧ Conclusive r ∧ RefusedIn limit line r ∧
    ∀ (c : Cursor) (more : List UInt8), c.Steady → c.rest = line ++ Octet.lf :: more →
      x c = (r, c.advance w.length)

variable {limit : Nat} {x y : Decoder α} {f : α → Decoder β} {line : List UInt8}

theorem refusedIn_ok (a : α) : RefusedIn limit line (.ok a) := by
  intro n m h
  simp at h

theorem refusedIn_rejected (e : DecodingError) :
    RefusedIn limit line (.error (.rejected e) : Except _ α) := by
  intro n m h
  simp at h

namespace Contained

/-- A run within the line that is understood or rejected. -/
theorem of_ok {w t : List UInt8} (a : α) (hline : line = w ++ t)
    (h : ∀ (c : Cursor) (more : List UInt8), c.Steady → c.rest = line ++ Octet.lf :: more →
      x c = (.ok a, c.advance w.length)) : Contained limit x line :=
  ⟨w, t, _, hline, fun _ => by simp, refusedIn_ok a, h⟩

theorem of_rejected {w t : List UInt8} (error : DecodingError) (hline : line = w ++ t)
    (h : ∀ (c : Cursor) (more : List UInt8), c.Steady → c.rest = line ++ Octet.lf :: more →
      x c = (.error (.rejected error), c.advance w.length)) : Contained limit x line :=
  ⟨w, t, _, hline, fun _ => by simp, refusedIn_rejected error, h⟩

theorem congr (h : ∀ (c : Cursor) (more : List UInt8), c.Steady →
    c.rest = line ++ Octet.lf :: more → x c = y c) (hy : Contained limit y line) :
    Contained limit x line := by
  obtain ⟨w, t, r, hline, hr, hrefused, hrun⟩ := hy
  exact ⟨w, t, r, hline, hr, hrefused, fun c more hc hrest =>
    (h c more hc hrest).trans (hrun c more hc hrest)⟩

/-- One step within the line, and a run on what is left of the line. -/
theorem step {w t : List UInt8} (hline : line = w ++ t) (hy : Contained limit y t)
    (h : ∀ (c : Cursor) (more : List UInt8), c.Steady → c.rest = line ++ Octet.lf :: more →
      x c = y (c.advance w.length)) : Contained limit x line := by
  obtain ⟨w', t', r, rfl, hr, hrefused, hrun⟩ := hy
  refine ⟨w ++ w', t', r, by rw [hline, List.append_assoc], hr, ?_, fun c more hc hrest => ?_⟩
  · intro n m hnm
    obtain ⟨hm, hn, ds, hds, hin⟩ := hrefused n m hnm
    exact ⟨hm, hn, ds, hds, hin.trans (hline ▸ (List.suffix_append w _).isInfix)⟩
  · have hrest' : (c.advance w.length).rest = (w' ++ t') ++ Octet.lf :: more := by
      rw [Cursor.rest_advance, hrest, hline, List.append_assoc, List.drop_left]
    rw [h c more hc hrest, hrun _ more (hc.advance _) hrest', Cursor.advance_advance,
      List.length_append]

theorem pure (a : α) (line : List UInt8) : Contained limit (pure a) line :=
  of_ok (w := []) a rfl fun _ _ _ _ => rfl

theorem reject (e : DecodingError) (line : List UInt8) :
    Contained limit (reject e : Decoder α) line :=
  of_rejected (w := []) e rfl fun _ _ _ _ => rfl

theorem bind (hx : Contained limit x line)
    (hf : ∀ a w t, line = w ++ t → (∀ (c : Cursor) (more : List UInt8), c.Steady →
      c.rest = line ++ Octet.lf :: more → x c = (.ok a, c.advance w.length)) →
      Contained limit (f a) t) : Contained limit (x >>= f) line := by
  obtain ⟨w, t, r, hline, hr, hrefused, hrun⟩ := hx
  cases r with
  | error e =>
    refine ⟨w, t, .error e, hline, fun io hio => hr io (by simpa using hio), ?_,
      fun c more hc hrest => bind_of_error (hrun c more hc hrest)⟩
    intro n m hnm
    exact hrefused n m (by simpa using hnm)
  | ok a =>
    exact step hline (hf a w t hline hrun) fun c more hc hrest => bind_of_ok (hrun c more hc hrest)

theorem ite {p : Prop} [Decidable p] (hx : Contained limit x line) (hy : Contained limit y line) :
    Contained limit (if p then x else y) line := by
  split
  · exact hx
  · exact hy

/-! ### Octets -/

/-- The octet in front of a line feed, which may be that of an empty line. -/
theorem exists_front (line more : List UInt8) :
    ∃ b s, line ++ Octet.lf :: more = b :: s ∧ (line ++ [Octet.lf]).head? = some b := by
  cases line with
  | nil => exact ⟨_, more, rfl, rfl⟩
  | cons b line => exact ⟨b, _, rfl, rfl⟩

theorem peek_bind {f : UInt8 → Decoder β}
    (hf : ∀ b, (line ++ [Octet.lf]).head? = some b → Contained limit (f b) line) :
    Contained limit (peek >>= f) line := by
  obtain ⟨b, s, -, hb⟩ := exists_front line []
  refine step (w := []) rfl (hf b hb) fun c more hc hrest => ?_
  obtain ⟨b', s, hrest', hb'⟩ := exists_front line more
  obtain rfl : b = b' := by simpa [hb] using hb'
  exact bind_of_ok (peek_of_rest hc (hrest.trans hrest'))

theorem isConsumed (line : List UInt8) : Contained limit isConsumed line := by
  refine of_ok (w := []) false rfl fun c more hc hrest => ?_
  rw [isConsumed_apply hc, hrest]
  simp

theorem expect_bind {f : Unit → Decoder β} {b : UInt8} (hb : b ≠ Octet.lf)
    (hf : ∀ t, line = b :: t → Contained limit (f ()) t) :
    Contained limit (expect b >>= f) line := by
  by_cases h : ∃ t, line = b :: t
  · obtain ⟨t, rfl⟩ := h
    exact step (w := [b]) rfl (hf t rfl) fun c more hc hrest =>
      bind_of_ok (expect_of_rest hc hrest)
  · obtain ⟨b', s, -, hb'⟩ := exists_front line []
    refine of_rejected (w := []) (.unexpected b' (inQuotes (Octet.escaped b))) rfl
      fun c more hc hrest => ?_
    obtain ⟨a, s, hrest', ha⟩ := exists_front line more
    obtain rfl : a = b' := by simpa [hb'] using ha.symm
    refine bind_of_error (expect_of_ne hc (hrest.trans hrest') ?_)
    rintro rfl
    cases line with
    | nil => exact hb (by simpa using ha.symm)
    | cons a line => exact h ⟨line, by simpa using ha⟩

theorem expect {b : UInt8} (hb : b ≠ Octet.lf) (line : List UInt8) :
    Contained limit (expect b) line := by
  rw [← bind_pure (Decoder.expect b)]
  exact expect_bind hb fun t _ => pure () t

/-- A run of octets without line feeds ends within the line. -/
theorem takeWhile {p : UInt8 → Bool} (hp : p Octet.lf = false) (line : List UInt8) :
    Contained limit (takeWhile p) line := by
  obtain ⟨w, t, hline, hw, ht⟩ := exists_run p line
  refine of_ok w hline fun c more hc hrest => ?_
  have hrest' : c.rest = w ++ (t ++ Octet.lf :: more) := by rw [hrest, hline, List.append_assoc]
  refine takeWhile_of_rest hc hrest' hw ?_
  cases t with
  | nil => simpa using hp
  | cons b t => exact ht

theorem digits_bind {f : Nat → Decoder β}
    (hf : ∀ ds t n, line = ds ++ t → Decimal.IsNumber ds n → Contained limit (f n) t) :
    Contained limit (digits >>= f) line := by
  have hlf : Octet.isDigit Octet.lf = false := by decide
  rcases exists_digits 0 (Nat.zero_le _) line with ⟨ds, t, hline, hds, hle, ht⟩ |
    ⟨ds, b, t, hline, hds, hb, hle, hlt⟩
  · by_cases hnil : ds = []
    · obtain ⟨b, s, -, hb⟩ := exists_front line []
      refine of_rejected (w := []) (.unexpected b "number") rfl fun c more hc hrest => ?_
      obtain ⟨a, s, hrest', ha⟩ := exists_front line more
      obtain rfl : a = b := by simpa [hb] using ha.symm
      refine bind_of_error (digits_of_ne hc (hrest.trans hrest') ?_)
      subst hnil
      rw [hline] at ha
      cases t with
      | nil =>
        obtain rfl : a = Octet.lf := by simpa using ha.symm
        exact hlf
      | cons a' t => exact ht a (by simpa using ha)
    · have hnumber : Decimal.IsNumber ds (Decimal.value ds) := ⟨hnil, hds, rfl, hle⟩
      refine step hline (hf ds t _ hline hnumber) fun c more hc hrest => ?_
      have hrest' : c.rest = ds ++ (t ++ Octet.lf :: more) := by
        rw [hrest, hline, List.append_assoc]
      refine bind_of_ok (digits_of_le hc hrest' hnumber ?_)
      cases t with
      | nil => simpa using hlf
      | cons b t => exact ht
  · have hline' : line = (ds ++ [b]) ++ t := by rw [hline]; simp
    refine of_rejected (.numberOutOfRange (ds.length + 1 : Nat)) hline' fun c more hc hrest => ?_
    have hrest' : c.rest = ds ++ b :: (t ++ Octet.lf :: more) := by rw [hrest, hline]; simp
    rw [List.length_append]
    exact bind_of_error (digits_of_lt hc hrest' hds hb hle hlt)

theorem digits (line : List UInt8) : Contained limit digits line := by
  rw [← bind_pure Decoder.digits]
  exact digits_bind fun _ t n _ _ => pure n t

theorem ofExcept (r : Except DecodingError α) (line : List UInt8) :
    Contained limit (ofExcept r) line := by
  cases r with
  | ok a => exact pure a line
  | error e => exact reject e line

/-! ### Strings -/

theorem quotedToken (line : List UInt8) : Contained limit quotedToken line :=
  expect_bind (by decide) fun t _ => (takeWhile (by decide) t).bind fun _ _ t _ _ =>
    expect_bind (by decide) fun t _ => pure _ t

theorem quotedItem_bind {f : Option UInt8 → Decoder β} (hline : Octet.lf ∉ line)
    (hnone : ∀ t, line = Octet.quote :: t → Contained limit (f none) t)
    (hsome : ∀ b w t, line = w ++ t → w ≠ [] → Contained limit (f (some b)) t) :
    Contained limit (quotedItem >>= f) line := by
  cases line with
  | nil =>
    exact of_rejected (w := []) _ rfl fun c more hc hrest =>
      bind_of_error (quotedItem_of_break hc hrest (Or.inl (by decide)))
  | cons b t =>
    by_cases hquote : b = Octet.quote
    · subst hquote
      exact step (w := [Octet.quote]) rfl (hnone t rfl) fun c more hc hrest =>
        bind_of_ok (quotedItem_of_quote hc hrest)
    by_cases hbackslash : b = Octet.backslash
    · subst hbackslash
      cases t with
      | nil =>
        exact of_rejected (w := [Octet.backslash]) _ rfl fun c more hc hrest =>
          bind_of_error (quotedItem_of_bad_escape hc hrest (by decide))
      | cons b t =>
        cases hb : Octet.isQuotedSpecial b with
        | true =>
          exact step (w := [Octet.backslash, b]) rfl (hsome b [Octet.backslash, b] t rfl (by simp))
            fun c more hc hrest => bind_of_ok (quotedItem_of_escape hc hrest hb)
        | false =>
          exact of_rejected (w := [Octet.backslash]) _ rfl fun c more hc hrest =>
            bind_of_error (quotedItem_of_bad_escape hc hrest hb)
    by_cases hbreak : Octet.isLineBreak b = true ∨ b = 0
    · exact of_rejected (w := []) _ rfl fun c more hc hrest =>
        bind_of_error (quotedItem_of_break hc hrest hbreak)
    · have hplain := isQuotedPlain_of_not hquote hbackslash hbreak
      exact step (w := [b]) rfl (hsome b [b] t rfl (by simp)) fun c more hc hrest =>
        bind_of_ok (quotedItem_of_plain hc hrest hplain)

/-- By induction on the line, of which every item takes some octets. -/
theorem quotedRest (n : Nat) : ∀ {line : List UInt8} (d : TextDecoder) (piece : List UInt8),
    Octet.lf ∉ line → line.length ≤ n → Contained limit (quotedRest d piece) line := by
  induction n with
  | zero =>
    intro line d piece hline hn
    obtain rfl : line = [] := List.length_eq_zero_iff.1 (Nat.le_zero.1 hn)
    exact congr (fun c more hc _ => quotedRest_apply hc d piece) <|
      quotedItem_bind hline (fun t h => absurd h (by simp)) fun b w t h hw =>
        absurd (List.append_eq_nil_iff.1 h.symm).1 hw
  | succ n ih =>
    intro line d piece hline hn
    refine congr (fun c more hc _ => quotedRest_apply hc d piece) <|
      quotedItem_bind hline (fun t _ => ?_) fun b w t h hw => ?_
    · exact (ofExcept _ t).bind fun _ _ t _ _ => pure _ t
    · have ht : Octet.lf ∉ t := fun hmem => hline (h ▸ List.mem_append_right w hmem)
      have hlen : t.length ≤ n := by
        have hpos : 0 < w.length := List.length_pos_iff.2 hw
        rw [h, List.length_append] at hn
        omega
      refine .ite ((ofExcept _ t).bind fun d' w' t' h' _ => ?_) (ih _ _ ht hlen)
      subst h'
      rw [List.length_append] at hlen
      exact ih _ _ (fun hmem => ht (List.mem_append_right w' hmem)) (by omega)

theorem quoted (charset : Charset) (hline : Octet.lf ∉ line) :
    Contained limit (quoted charset) line :=
  expect_bind (by decide) fun t h =>
    quotedRest t.length _ _ (fun hmem => hline (h ▸ List.mem_cons_of_mem _ hmem)) (Nat.le_refl _)

/-! ### Literals -/

/-- A line break is not read within a line. -/
theorem eol_bind {leniency : Leniency} {f : Unit → Decoder β} (hline : Octet.lf ∉ line)
    (htail : ¬ Octet.IsLineTail line) : Contained limit (eol leniency >>= f) line := by
  cases line with
  | nil => exact absurd (Or.inl rfl) htail
  | cons b t =>
    rw [List.mem_cons, not_or] at hline
    by_cases hcr : b = Octet.cr
    · subst hcr
      cases t with
      | nil => exact absurd (Or.inr rfl) htail
      | cons b t =>
        have hb : b ≠ Octet.lf := by
          rintro rfl
          exact hline.2 List.mem_cons_self
        exact of_rejected (w := [Octet.cr]) _ rfl fun c more hc hrest =>
          bind_of_error (eol_of_cr hc hrest hb)
    · exact of_rejected (w := []) _ rfl fun c more hc hrest =>
        bind_of_error (eol_of_ne hc hrest hcr (Ne.symm hline.1))

theorem literalMode_bind {f : LiteralMode → Decoder β}
    (hf : ∀ (mode : LiteralMode) t, line = mode.sign ++ t → Contained limit (f mode) t) :
    Contained limit (literalMode >>= f) line := by
  by_cases h : ∃ t, line = Octet.plus :: t
  · obtain ⟨t, rfl⟩ := h
    exact step (w := [Octet.plus]) rfl (hf .atOnce t rfl) fun c more hc hrest =>
      bind_of_ok (literalMode_of_plus hc hrest)
  · refine step (w := []) rfl (hf .onRequest line rfl) fun c more hc hrest => ?_
    obtain ⟨b, s, hrest', hb⟩ := exists_front line more
    refine bind_of_ok (literalMode_of_ne hc (hrest.trans hrest') ?_)
    rintro rfl
    cases line with
    | nil => exact absurd hb (by decide)
    | cons a line => exact h ⟨line, by simpa using hb⟩

/-- A line that is no announcement of a literal within the limit announces no literal; it may
announce one that is refused. -/
theorem announcement_bind_of_not {ctx : Context} (hlimit : ctx.maxLiteral = limit)
    {f : Nat × LiteralMode → Decoder β} (hline : Octet.lf ∉ line)
    (hno : ∀ (mode : LiteralMode) ds n tail, line = mode.announced ds ++ tail →
      Decimal.IsNumber ds n → n ≤ ctx.maxLiteral → ¬ Octet.IsLineTail tail) :
    Contained limit (announcement ctx >>= f) line := by
  -- Refusing a literal ends the run at its closing brace, before the line break is looked at.
  by_cases h : ∃ ds n t, line = LiteralMode.atOnce.announced ds ++ t ∧ Decimal.IsNumber ds n ∧
      ctx.maxLiteral < n
  · obtain ⟨ds, n, t, hline', hds, hn⟩ := h
    refine ⟨_, t, .error (.literalTooLarge n ctx.maxLiteral), hline', fun _ => by simp, ?_, ?_⟩
    · intro n' m heq
      obtain ⟨rfl, rfl⟩ : n = n' ∧ ctx.maxLiteral = m := by simpa using heq
      exact ⟨hlimit, hlimit ▸ hn, ds, hds, hline' ▸ (List.prefix_append _ t).isInfix⟩
    · intro c more hc hrest
      have hrest' : c.rest = LiteralMode.atOnce.announced ds ++ (t ++ Octet.lf :: more) := by
        rw [hrest, hline', List.append_assoc]
      refine bind_of_error ?_
      rw [announcement_of_number ctx hc hrest' hds, if_pos hn]
      rfl
  · rw [announcement_eq]
    simp only [bind_assoc]
    refine expect_bind (by decide) fun t₁ h₁ => digits_bind fun ds t₂ n h₂ hds =>
      literalMode_bind fun mode t₃ h₃ => expect_bind (by decide) fun t₄ h₄ => ?_
    -- The parts that were read make up an announcement, which does not end the line.
    have hwhole : line = mode.announced ds ++ t₄ := by
      rw [h₁, h₂, h₃, h₄, LiteralMode.announced]
      simp
    by_cases hn : ctx.maxLiteral < n
    · rw [if_pos hn]
      cases mode with
      | atOnce => exact absurd ⟨ds, n, t₄, hwhole, hds, hn⟩ h
      | onRequest => exact reject _ t₄
    · rw [if_neg hn]
      have hlf : Octet.lf ∉ t₄ := fun hmem => hline (hwhole ▸ List.mem_append_right _ hmem)
      simp only [bind_assoc]
      exact eol_bind hlf (hno mode ds n t₄ hwhole hds (Nat.not_lt.1 hn))

/-- A line that does not end in an announcement is none. -/
theorem announcement_bind {ctx : Context} (hlimit : ctx.maxLiteral = limit)
    {f : Nat × LiteralMode → Decoder β} (hline : IsPlainLine line) :
    Contained limit (announcement ctx >>= f) line :=
  announcement_bind_of_not hlimit hline.no_lf fun mode ds _ tail heq hds _ htail =>
    hline.no_announcement ⟨[], mode, ds, tail, heq, hds.ne_nil, hds.all_isDigit, htail⟩

/-! ### Repetition -/

/-- By induction on the line: the announcement of an element takes some octets of it. -/
theorem many {more : Decoder Bool} {element : Decoder α} (hadvances : Advances more)
    (hmore : Forward more) (helement : Forward element)
    (hm : ∀ line, IsPlainLine line → Contained limit more line)
    (he : ∀ line, IsPlainLine line → Contained limit element line) (n : Nat) :
    ∀ {line : List UInt8}, IsPlainLine line → line.length < n →
      Contained limit (many more element) line := by
  induction n with
  | zero => intro line _ hn; exact absurd hn (Nat.not_lt_zero _)
  | succ n ih =>
    intro line hline hn
    refine congr (fun c rest hc _ => many_apply hadvances hmore helement hc) ?_
    refine (hm line hline).bind fun t w line' hsplit hrun => ?_
    cases t with
    | false => exact pure _ line'
    | true =>
      subst hsplit
      -- That an element was announced took octets on every cursor, so also on one in memory.
      have hlt : line'.length < n := by
        let c : Cursor := .ofOctets ((w ++ line') ++ Octet.lf :: [])
        have hc : c.Steady := by intro link hlink; simp [c, Cursor.ofOctets] at hlink
        have h := hadvances c _ hc (hrun c [] hc rfl)
        simp [c, Cursor.ofOctets] at h hn
        omega
      refine (he line' hline.of_append).bind fun a w' line'' hsplit _ => ?_
      subst hsplit
      rw [List.length_append] at hlt
      exact (ih hline.of_append.of_append (by omega)).bind fun _ _ t _ _ => pure _ t

end Contained

/-- Inline decoders stay within a line that does not end in an announcement. -/
theorem Inline.contained {leniency : Leniency} {x : Decoder α} (h : Inline limit leniency x) :
    ∀ {line : List UInt8}, IsPlainLine line → Contained limit x line := by
  induction h with
  | pure a => exact fun {line} _ => .pure a line
  | reject e => exact fun {line} _ => .reject e line
  | peek =>
    intro line _
    rw [← bind_pure Decoder.peek]
    exact .peek_bind fun b _ => .pure b line
  | isConsumed => exact fun {line} _ => .isConsumed line
  | expect b hb =>
    refine fun {line} _ => .expect ?_ line
    rintro rfl
    exact absurd hb (by decide)
  | takeWhile p hp =>
    refine fun {line} _ => .takeWhile ?_ line
    cases hlf : p Octet.lf with
    | false => rfl
    | true => exact absurd (hp _ hlf) (by decide)
  | digits => exact fun {line} _ => .digits line
  | quotedToken => exact fun {line} _ => .quotedToken line
  | quoted charset => exact fun hline => .quoted charset hline.no_lf
  | literalOctets ctx hlimit => exact fun hline => .announcement_bind hlimit hline
  | bind _ _ ihx ihf =>
    intro line hline
    refine (ihx hline).bind fun a w t hsplit _ => ihf a ?_
    subst hsplit
    exact hline.of_append
  | many hadvances hmore helement ihmore ihelement =>
    exact fun hline => .many hadvances hmore.forward helement.forward (fun _ => ihmore)
      (fun _ => ihelement) _ hline (Nat.lt_succ_self _)

end Decoder

end ImapRequest
