import ImapRequest.Proofs.Announcement
import ImapRequest.Proofs.Arguments

/-!
# Data that comes without waiting

A line that ends in `{n+}` is followed by `n` octets of data whatever the server thinks of the line.
While such a line is decoded the position is *ahead* of the opening brace or *beyond* the data.  A
request may also be rejected in between, behind the brace and not behind the line feed.  Then what
is left of the line is no announcement any more: only the line is discarded, and the data is taken
for requests.

* `AnnouncingLine` : a line that ends in an announcement;
* `Lands` : where a run on such a line ends;
* `Decoder.Inline.lands` : inline decoders;
* `Request.dataConsumed_iff` : when the data is consumed together with its line.
-/

namespace ImapRequest

open Decoder

/-- The octets of a line before its line feed, which end in the announcement of a literal that comes
without waiting. -/
structure AnnouncingLine where
  /-- What stands before the opening brace. -/
  front : List UInt8
  /-- The digits between the brace and the plus sign. -/
  digits : List UInt8
  /-- The number of octets that are announced. -/
  length : Nat
  /-- What stands behind the closing brace. -/
  tail : List UInt8
  no_lf : Octet.lf ∉ front
  isNumber : Decimal.IsNumber digits length
  isLineTail : Octet.IsLineTail tail

namespace AnnouncingLine

/-- The announcement, and what stands behind it. -/
def ending (l : AnnouncingLine) : List UInt8 := LiteralMode.atOnce.announced l.digits ++ l.tail

/-- All octets of the line. -/
def octets (l : AnnouncingLine) : List UInt8 := l.front ++ l.ending

/-- A request can be rejected behind the brace: in a string that was opened before it, or at a line
feed that is no line break. -/
def Trap (l : AnnouncingLine) (leniency : Leniency) : Prop :=
  Octet.quote ∈ l.front ∨ l.tail = [] ∧ leniency.bareLineFeed = false

/-- The brace is still in front of the cursor, at the position `brace`. -/
structure Ahead (l : AnnouncingLine) (brace : Nat) (c : Cursor) (front : List UInt8) : Prop where
  steady : c.Steady
  suffix : front <:+ l.front
  rest_eq : ∃ more, c.rest = front ++ (l.ending ++ Octet.lf :: more)
  position_eq : c.position + front.length = brace

/-- The data is behind the cursor. -/
def Beyond (l : AnnouncingLine) (brace : Nat) (c : Cursor) : Prop :=
  brace + l.ending.length + 1 + l.length ≤ c.position

/-- The brace is behind the cursor, the line feed is not. -/
def Between (l : AnnouncingLine) (brace : Nat) (c : Cursor) : Prop :=
  brace < c.position ∧ c.position ≤ brace + l.ending.length

end AnnouncingLine

/-- Where a run on the line ends: ahead of the brace or beyond the data, or somewhere within the
line where it is rejected. -/
def Lands {α : Type} (l : AnnouncingLine) (brace : Nat) (leniency : Leniency) :
    Except Failure α × Cursor → Prop
  | (.ok _, e) => (∃ front, l.Ahead brace e front) ∨ l.Beyond brace e
  | (.error (.rejected _), e) =>
    e.position ≤ brace ∨ l.Between brace e ∧ l.Trap leniency ∨ l.Beyond brace e
  | (.error _, _) => True

namespace AnnouncingLine

variable {l : AnnouncingLine} {brace : Nat} {c d e : Cursor} {front w t : List UInt8} {b : UInt8}

theorem Beyond.of_reaches (h : l.Beyond brace c) (hw : c.Reaches w e) : l.Beyond brace e :=
  Nat.le_trans h hw.position_le

theorem Ahead.advance (h : l.Ahead brace c (w ++ t)) : l.Ahead brace (c.advance w.length) t where
  steady := h.steady.advance _
  suffix := (List.suffix_append w t).trans h.suffix
  rest_eq := by
    obtain ⟨more, hrest⟩ := h.rest_eq
    exact ⟨more, by rw [Cursor.rest_advance, hrest, List.append_assoc, List.drop_left]⟩
  position_eq := by
    have hposition := h.position_eq
    rw [List.length_append] at hposition
    rw [Cursor.position_advance]
    omega

theorem Ahead.no_lf (h : l.Ahead brace c front) : Octet.lf ∉ front :=
  fun hmem => l.no_lf (h.suffix.subset hmem)

theorem Ahead.position_le (h : l.Ahead brace c front) : c.position ≤ brace := by
  have hposition := h.position_eq
  omega

/-- Behind the closing brace the line breaks. -/
theorem Ahead.exists_break (h : l.Ahead brace c front) : ∃ b s, Octet.isLineBreak b = true ∧
    c.rest = front ++ (LiteralMode.atOnce.announced l.digits ++ b :: s) := by
  obtain ⟨more, hrest⟩ := h.rest_eq
  rcases l.isLineTail with htail | htail
  · exact ⟨Octet.lf, more, by decide, by rw [hrest, ending, htail, List.append_nil]⟩
  · exact ⟨Octet.cr, Octet.lf :: more, by decide, by
      rw [hrest, ending, htail, List.append_assoc]
      rfl⟩

/-- The octets of an announcement are all read in a string. -/
theorem isQuotedPlain_of_mem (hb : b ∈ LiteralMode.atOnce.announced l.digits) :
    isQuotedPlain b = true := by
  simp only [LiteralMode.announced, LiteralMode.sign, List.mem_cons, List.mem_append,
    List.not_mem_nil, or_false] at hb
  rcases hb with rfl | hb | rfl | rfl
  · decide
  · have hdigit := List.all_eq_true.1 l.isNumber.all_isDigit b hb
    refine isQuotedPlain_of_not ?_ ?_ ?_
    · rintro rfl
      exact absurd hdigit (by decide)
    · rintro rfl
      exact absurd hdigit (by decide)
    · rintro (hbreak | rfl)
      · simp only [Octet.isLineBreak, Bool.or_eq_true, beq_iff_eq] at hbreak
        rcases hbreak with rfl | rfl <;> exact absurd hdigit (by decide)
      · exact absurd hdigit (by decide)
  · decide
  · decide

theorem no_lf_ending (l : AnnouncingLine) : Octet.lf ∉ l.ending := by
  intro hmem
  rcases List.mem_append.1 hmem with hmem | hmem
  · exact absurd (isQuotedPlain_of_mem hmem) (by decide)
  · rcases l.isLineTail with htail | htail <;> rw [htail] at hmem
    · exact absurd hmem (by simp)
    · exact absurd hmem (by decide)

/-- Behind its brace, a part of the announcement announces nothing. -/
theorem length?_after_ending {u t : List UInt8} (h : l.ending = u ++ t) (hne : u ≠ []) :
    (Announcement.none.after t).length? = none := by
  refine Option.eq_none_iff_forall_not_mem.2 fun n hn => ?_
  obtain ⟨front, ds, tail, rfl, -, -⟩ := Announcement.length?_after.1 hn
  obtain ⟨a, u, rfl⟩ := List.exists_cons_of_ne_nil hne
  have hmem : Octet.lbrace ∈ l.digits ++ (LiteralMode.atOnce.sign ++ [Octet.rbrace]) ++ l.tail := by
    have htail : l.digits ++ (LiteralMode.atOnce.sign ++ [Octet.rbrace]) ++ l.tail =
        u ++ (front ++ LiteralMode.atOnce.announced ds ++ tail) := (List.cons.inj h).2
    rw [htail]
    simp [LiteralMode.announced]
  simp only [List.mem_append, or_assoc] at hmem
  rcases hmem with hmem | hmem | hmem | hmem
  · exact absurd (List.all_eq_true.1 l.isNumber.all_isDigit _ hmem) (by decide)
  · exact absurd hmem (by decide)
  · exact absurd hmem (by decide)
  · rcases l.isLineTail with htail | htail <;> rw [htail] at hmem <;> exact absurd hmem (by decide)

theorem length_announced_le (l : AnnouncingLine) :
    (LiteralMode.atOnce.announced l.digits).length ≤ l.ending.length := by
  rw [ending, List.length_append]
  omega

/-- The octet at the position is one of the line before the brace, or the brace. -/
theorem Ahead.exists_next (h : l.Ahead brace c front) :
    (∃ b t, front = b :: t) ∨ front = [] ∧ ∃ s, c.rest = Octet.lbrace :: s := by
  obtain ⟨more, hrest⟩ := h.rest_eq
  cases front with
  | nil => exact Or.inr ⟨rfl, _, hrest⟩
  | cons b t => exact Or.inl ⟨b, t, rfl⟩

end AnnouncingLine

namespace Lands

variable {α β : Type} {l : AnnouncingLine} {brace : Nat} {leniency : Leniency} {c d : Cursor}
  {front w t : List UInt8} {x y : Decoder α} {f : α → Decoder β}

theorem ahead {a : α} (h : x c = (.ok a, d)) (hd : l.Ahead brace d front) :
    Lands l brace leniency (x c) := by
  rw [h]
  exact Or.inl ⟨front, hd⟩

/-- Rejected before the brace was consumed. -/
theorem rejected {error : DecodingError} (h : x c = (.error (.rejected error), d))
    (hd : d.position ≤ brace) : Lands l brace leniency (x c) := by
  rw [h]
  exact Or.inl hd

theorem trapped {error : DecodingError} (h : x c = (.error (.rejected error), d))
    (hd : l.Between brace d) (htrap : l.Trap leniency) : Lands l brace leniency (x c) := by
  rw [h]
  exact Or.inr (Or.inl ⟨hd, htrap⟩)

/-- Whoever starts beyond the data ends beyond it. -/
theorem beyond (hx : Forward x) (hc : c.Steady) (h : l.Beyond brace c) :
    Lands l brace leniency (x c) := by
  obtain ⟨w, hw⟩ := hx c hc
  have hbeyond := h.of_reaches hw
  rcases hrun : x c with ⟨f | a, d⟩ <;> rw [hrun] at hbeyond
  · cases f with
    | rejected error => exact Or.inr (Or.inr hbeyond)
    | io io => trivial
    | literalTooLarge length limit => trivial
  · exact Or.inr hbeyond

theorem bind (hc : c.Steady) (hx : Lands l brace leniency (x c)) (hxf : Forward x)
    (hff : ∀ a, Forward (f a))
    (hf : ∀ a d front, x c = (.ok a, d) → l.Ahead brace d front →
      Lands l brace leniency (f a d)) : Lands l brace leniency ((x >>= f) c) := by
  rcases hrun : x c with ⟨g | a, d⟩ <;> rw [hrun] at hx
  · rw [bind_of_error hrun]
    cases g <;> exact hx
  · rw [bind_of_ok hrun]
    rcases hx with ⟨front, hahead⟩ | hbeyond
    · exact hf a d front hrun hahead
    · have hd : d.Steady := hxf.steady_of_run hc hrun
      exact beyond (hff a) hd hbeyond

theorem ite {p : Prop} [Decidable p] (hx : Lands l brace leniency (x c))
    (hy : Lands l brace leniency (y c)) : Lands l brace leniency ((if p then x else y) c) := by
  split
  · exact hx
  · exact hy

theorem pure (a : α) (hc : l.Ahead brace c front) :
    Lands l brace leniency ((pure a : Decoder α) c) := Or.inl ⟨front, hc⟩

theorem reject (e : DecodingError) (hc : l.Ahead brace c front) :
    Lands l brace leniency ((reject e : Decoder α) c) := by
  refine Or.inl ?_
  have h := hc.position_eq
  change c.position ≤ brace
  omega

/-! ### Octets -/

theorem peek (hc : l.Ahead brace c front) : Lands l brace leniency (peek c) := by
  rcases hc.exists_next with ⟨b, t, rfl⟩ | ⟨rfl, s, hrest⟩
  · obtain ⟨more, hrest⟩ := hc.rest_eq
    exact ahead (peek_of_rest hc.steady hrest) hc
  · exact ahead (peek_of_rest hc.steady hrest) hc

theorem isConsumed (hc : l.Ahead brace c front) : Lands l brace leniency (isConsumed c) :=
  ahead (isConsumed_apply hc.steady) hc

/-- A given octet is consumed, unless it is the brace. -/
theorem expect {b : UInt8} (hb : b ≠ Octet.lbrace) (hc : l.Ahead brace c front) :
    Lands l brace leniency (expect b c) := by
  have hle : c.position ≤ brace := by
    have h := hc.position_eq
    omega
  rcases hc.exists_next with ⟨a, t, rfl⟩ | ⟨rfl, s, hrest⟩
  · obtain ⟨more, hrest⟩ := hc.rest_eq
    by_cases hab : a = b
    · subst hab
      exact ahead (expect_of_rest hc.steady hrest) (AnnouncingLine.Ahead.advance (w := [a]) hc)
    · exact rejected (expect_of_ne hc.steady hrest hab) hle
  · exact rejected (expect_of_ne hc.steady hrest hb.symm) hle

theorem takeWhile {p : UInt8 → Bool} (hp : p Octet.lbrace = false) (hc : l.Ahead brace c front) :
    Lands l brace leniency (takeWhile p c) := by
  obtain ⟨w, t, rfl, hw, ht⟩ := exists_run p front
  obtain ⟨more, hrest⟩ := hc.rest_eq
  rw [List.append_assoc] at hrest
  refine ahead (takeWhile_of_rest hc.steady hrest hw ?_) hc.advance
  cases t with
  | nil =>
    intro b hb
    obtain rfl : Octet.lbrace = b := by
      simpa [AnnouncingLine.ending, LiteralMode.announced] using hb
    exact hp
  | cons b t => exact ht

theorem digits (hc : l.Ahead brace c front) : Lands l brace leniency (digits c) := by
  have hlbrace : Octet.isDigit Octet.lbrace = false := by decide
  obtain ⟨more, hrest⟩ := hc.rest_eq
  have hle := hc.position_le
  rcases exists_digits 0 (Nat.zero_le _) front with ⟨ds, t, rfl, hds, hle', ht⟩ |
    ⟨ds, b, t, rfl, hds, hb, hle', hlt⟩
  · rw [List.append_assoc] at hrest
    have hend : ∀ b ∈ (t ++ (l.ending ++ Octet.lf :: more)).head?, Octet.isDigit b = false := by
      cases t with
      | nil =>
        intro b hb
        obtain rfl : Octet.lbrace = b := by
          simpa [AnnouncingLine.ending, LiteralMode.announced] using hb
        exact hlbrace
      | cons b t => exact ht
    by_cases hnil : ds = []
    · subst hnil
      obtain ⟨b, s, hbs⟩ : ∃ b s, t ++ (l.ending ++ Octet.lf :: more) = b :: s := by
        cases t with
        | nil => exact ⟨_, _, rfl⟩
        | cons b t => exact ⟨b, _, rfl⟩
      rw [List.nil_append, hbs] at hrest
      exact rejected (digits_of_ne hc.steady hrest (hend b (by rw [hbs]; rfl))) hle
    · exact ahead (digits_of_le hc.steady hrest ⟨hnil, hds, rfl, hle'⟩ hend) hc.advance
  · rw [List.append_assoc] at hrest
    refine rejected (digits_of_lt hc.steady hrest hds hb hle' hlt) ?_
    have hposition := hc.position_eq
    rw [List.length_append, List.length_cons] at hposition
    rw [Cursor.position_advance]
    omega

/-! ### Strings -/

/-- A string that goes on through the announcement is rejected where the line breaks, at the
latest. -/
theorem quotedRest_of_break (u : List UInt8) : ∀ {c : Cursor} {b : UInt8} {s : List UInt8}
    (d : TextDecoder) (piece : List UInt8), c.Steady → c.rest = u ++ b :: s →
    (∀ a ∈ u, isQuotedPlain a = true) → Octet.isLineBreak b = true →
    ∃ error k, k ≤ u.length ∧
      quotedRest d piece c = (.error (.rejected error), c.advance k) := by
  induction u with
  | nil =>
    intro c b s d piece hc hrest _ hb
    exact ⟨_, 0, Nat.le_refl _, (quotedRest_apply hc d piece).trans
      (bind_of_error (quotedItem_of_break hc hrest (Or.inl hb)))⟩
  | cons a u ih =>
    intro c b s d piece hc hrest hu hb
    have hrest' : (c.advance 1).rest = u ++ b :: s := by rw [Cursor.rest_advance, hrest]; rfl
    have hu' : ∀ a ∈ u, isQuotedPlain a = true := fun a ha => hu a (List.mem_cons_of_mem _ ha)
    have hitem := quotedItem_of_plain hc hrest (hu a List.mem_cons_self)
    have hgo : ∀ d piece, ∃ error k, k ≤ (a :: u).length ∧
        quotedRest d piece (c.advance 1) = (.error (.rejected error), c.advance k) := by
      intro d piece
      obtain ⟨error, k, hk, hrun⟩ := ih d piece (hc.advance 1) hrest' hu' hb
      exact ⟨error, 1 + k, by rw [List.length_cons]; omega, by
        rw [hrun, Cursor.advance_advance]⟩
    have hsplit : quotedRest d piece c = quotedAfter d piece (some a) (c.advance 1) :=
      (quotedRest_apply hc d piece).trans (bind_of_ok hitem)
    -- A full piece is read as text before the next octet.
    rw [hsplit, quotedAfter]
    split
    · rcases feed_cases d (piece ++ [a]) false (c.advance 1) with ⟨d', hfeed⟩ | ⟨error, hfeed⟩
      · rw [bind_of_ok hfeed]
        exact hgo d' []
      · exact ⟨error, 1, by simp, bind_of_error hfeed⟩
    · exact hgo _ _

/-- Reading a piece of text moves nothing, and ends the run where the piece is no text. -/
theorem feed_bind {f : TextDecoder → Decoder β} {d : TextDecoder} {piece : List UInt8}
    {last : Bool} (hc : l.Ahead brace c front) (hf : ∀ d, Lands l brace leniency (f d c)) :
    Lands l brace leniency ((feed d piece last >>= f) c) := by
  rcases feed_cases d piece last c with ⟨d', hfeed⟩ | ⟨error, hfeed⟩
  · rw [bind_of_ok hfeed]
    exact hf d'
  · exact rejected (bind_of_error hfeed) hc.position_le

/-- At the brace a string goes on with the octets of the announcement, and is rejected behind it. -/
theorem quotedRest_nil (htrap : l.Trap leniency) (d : TextDecoder) (piece : List UInt8)
    (hc : l.Ahead brace c []) : Lands l brace leniency (quotedRest d piece c) := by
  obtain ⟨b, s, hb, hrest⟩ := hc.exists_break
  obtain ⟨error, k, hk, hrun⟩ := quotedRest_of_break
    (LiteralMode.atOnce.announced l.digits) d piece hc.steady hrest
    (fun _ => AnnouncingLine.isQuotedPlain_of_mem) hb
  have hposition : c.position = brace := hc.position_eq
  have hend := l.length_announced_le
  by_cases hzero : k = 0
  · exact rejected hrun (by rw [Cursor.position_advance]; omega)
  · refine trapped hrun ⟨?_, ?_⟩ htrap <;> rw [Cursor.position_advance] <;> omega

/-- A string that was opened before the brace ends before it, or is rejected. -/
theorem quotedRest (htrap : l.Trap leniency) (n : Nat) : ∀ {c : Cursor} {front : List UInt8}
    (d : TextDecoder) (piece : List UInt8), l.Ahead brace c front → front.length ≤ n →
    Lands l brace leniency (quotedRest d piece c) := by
  induction n with
  | zero =>
    intro c front d piece hc hn
    obtain rfl : front = [] := List.length_eq_zero_iff.1 (Nat.le_zero.1 hn)
    exact quotedRest_nil htrap d piece hc
  | succ n ih =>
    intro c front d piece hc hn
    cases front with
    | nil => exact quotedRest_nil htrap d piece hc
    | cons b t =>
      obtain ⟨more, hrest⟩ := hc.rest_eq
      have hle := hc.position_le
      -- However the item is written, fewer octets are left before the brace.
      have hafter : ∀ {e : Cursor} {w : List UInt8} {a : UInt8}, l.Ahead brace e w → w.length ≤ n →
          Lands l brace leniency (quotedAfter d piece (some a) e) := by
        intro e w a he hw
        refine ite (feed_bind he fun d => ih d [] he hw) (ih d _ he hw)
      rw [quotedRest_apply hc.steady]
      by_cases hquote : b = Octet.quote
      · subst hquote
        have hd := AnnouncingLine.Ahead.advance (w := [Octet.quote]) hc
        rw [bind_of_ok (quotedItem_of_quote hc.steady hrest)]
        exact feed_bind hd fun d => pure _ hd
      by_cases hbackslash : b = Octet.backslash
      · subst hbackslash
        cases t with
        | nil =>
          refine rejected (bind_of_error (quotedItem_of_bad_escape hc.steady hrest (by decide))) ?_
          have hposition := hc.position_eq
          simp at hposition ⊢
          omega
        | cons b t =>
          cases hb : Octet.isQuotedSpecial b with
          | true =>
            rw [bind_of_ok (quotedItem_of_escape hc.steady hrest hb)]
            have hd := AnnouncingLine.Ahead.advance (w := [Octet.backslash, b]) hc
            exact hafter hd (by simp at hn; omega)
          | false =>
            refine rejected (bind_of_error (quotedItem_of_bad_escape hc.steady hrest hb)) ?_
            have hposition := hc.position_eq
            simp at hposition ⊢
            omega
      by_cases hbreak : Octet.isLineBreak b = true ∨ b = 0
      · exact rejected (bind_of_error (quotedItem_of_break hc.steady hrest hbreak)) hle
      · have hplain := isQuotedPlain_of_not hquote hbackslash hbreak
        rw [bind_of_ok (quotedItem_of_plain hc.steady hrest hplain)]
        have hd := AnnouncingLine.Ahead.advance (w := [b]) hc
        exact hafter hd (Nat.le_of_succ_le_succ hn)

/-- The quote that opens a string stands before the brace. -/
theorem quote_bind {f : Unit → Decoder β} (hc : l.Ahead brace c front)
    (hff : ∀ a, Forward (f a))
    (hf : ∀ {d front}, l.Trap leniency → l.Ahead brace d front →
      Lands l brace leniency (f () d)) :
    Lands l brace leniency ((Decoder.expect Octet.quote >>= f) c) := by
  refine bind hc.steady (expect (by decide) hc) (Forward.expect _) hff fun _ d front' hrun hd => ?_
  refine hf (Or.inl (hc.suffix.subset ?_)) hd
  rcases hc.exists_next with ⟨a, t, rfl⟩ | ⟨rfl, s, hrest⟩
  · obtain ⟨more, hrest⟩ := hc.rest_eq
    by_cases ha : a = Octet.quote
    · exact ha ▸ List.mem_cons_self
    · simp [expect_of_ne hc.steady hrest ha] at hrun
  · simp [expect_of_ne hc.steady hrest (by decide : Octet.lbrace ≠ Octet.quote)] at hrun

theorem quoted (charset : Charset) (hc : l.Ahead brace c front) :
    Lands l brace leniency (quoted charset c) :=
  quote_bind hc (fun _ => Forward.bound.bind fun _ => .quotedUpTo _ _ _) fun htrap hd =>
    quotedRest htrap _ _ _ hd (Nat.le_refl _)

theorem quotedToken (hc : l.Ahead brace c front) : Lands l brace leniency (quotedToken c) := by
  refine quote_bind hc (fun _ => (Forward.takeWhile _).bind fun _ =>
    (Forward.expect _).bind fun _ => .pure _) fun {d front} htrap hd => ?_
  obtain ⟨w, t, rfl, hw, ht⟩ := exists_run
    (fun b => b != Octet.quote && !Octet.isLineBreak b) front
  cases t with
  | nil =>
    rw [List.append_nil] at hd
    -- The token goes on through the announcement and meets the line break.
    obtain ⟨b, s, hb, hrest⟩ := hd.exists_break
    rw [← List.append_assoc] at hrest
    have hrun : ∀ a ∈ w ++ LiteralMode.atOnce.announced l.digits,
        (a != Octet.quote && !Octet.isLineBreak a) = true := by
      intro a ha
      rcases List.mem_append.1 ha with ha | ha
      · exact hw a ha
      · have hplain := AnnouncingLine.isQuotedPlain_of_mem ha
        simp only [isQuotedPlain, Octet.isQuotedSpecial] at hplain
        simp_all
    have hstop : ∀ a ∈ (b :: s).head?, (a != Octet.quote && !Octet.isLineBreak a) = false := by
      simpa using fun _ => hb
    have hquote : b ≠ Octet.quote := by
      rintro rfl
      exact absurd hb (by decide)
    have hrest' : (d.advance (w ++ LiteralMode.atOnce.announced l.digits).length).rest =
        b :: s := Cursor.rest_advance_append hrest
    rw [bind_of_ok (takeWhile_of_rest hd.steady hrest hrun hstop)]
    have hposition := hd.position_eq
    have hpositive : 0 < (LiteralMode.atOnce.announced l.digits).length := by
      simp [LiteralMode.announced]
    have hend := l.length_announced_le
    refine trapped (bind_of_error (expect_of_ne (hd.steady.advance _) hrest' hquote)) ⟨?_, ?_⟩ htrap
      <;> rw [Cursor.position_advance, List.length_append] <;> omega
  | cons b t =>
    obtain ⟨more, hrest⟩ := hd.rest_eq
    rw [List.append_assoc] at hrest
    rw [bind_of_ok (takeWhile_of_rest hd.steady hrest hw ht)]
    exact bind (hd.steady.advance _) (expect (by decide) hd.advance) (Forward.expect _)
      (fun _ => .pure _) fun _ e _ _ he => pure _ he

/-! ### Literals -/

/-- Ahead of the brace the line does not end. -/
theorem eol (hc : l.Ahead brace c front) : ∃ error d, d.position ≤ brace ∧
    Decoder.eol leniency c = (.error (.rejected error), d) := by
  have hle := hc.position_le
  obtain ⟨more, hrest⟩ := hc.rest_eq
  have hno := hc.no_lf
  cases front with
  | nil => exact ⟨_, c, hle, eol_of_ne hc.steady hrest (by decide) (by decide)⟩
  | cons b t =>
    rw [List.mem_cons, not_or] at hno
    by_cases hcr : b = Octet.cr
    · subst hcr
      have hle' : (c.advance 1).position ≤ brace := by
        have hposition := hc.position_eq
        rw [List.length_cons] at hposition
        rw [Cursor.position_advance]
        omega
      cases t with
      | nil => exact ⟨_, _, hle', eol_of_cr hc.steady hrest (by decide)⟩
      | cons b t =>
        have hb : b ≠ Octet.lf := by
          rintro rfl
          exact hno.2 List.mem_cons_self
        exact ⟨_, _, hle', eol_of_cr hc.steady hrest hb⟩
    · exact ⟨_, c, hle, eol_of_ne hc.steady hrest hcr (Ne.symm hno.1)⟩

theorem literalMode (hc : l.Ahead brace c front) :
    Lands l brace leniency (literalMode c) := by
  obtain ⟨more, hrest⟩ := hc.rest_eq
  cases front with
  | nil => exact ahead (literalMode_of_ne hc.steady hrest (by decide)) hc
  | cons b t =>
    by_cases hb : b = Octet.plus
    · subst hb
      exact ahead (literalMode_of_plus hc.steady hrest)
        (AnnouncingLine.Ahead.advance (w := [Octet.plus]) hc)
    · exact ahead (literalMode_of_ne hc.steady hrest hb) hc

/-- The data that was announced is taken as a whole, or there is less of it. -/
theorem literalData (hc : c.Steady) (hposition : c.position = brace + l.ending.length + 1) :
    Lands l brace leniency (literalData l.length c) := by
  by_cases hn : l.length ≤ c.rest.length
  · have hbeyond : l.Beyond brace (c.advance l.length) := by
      rw [AnnouncingLine.Beyond, Cursor.position_advance]
      omega
    rcases literalData_of_le hc hn with ⟨data, hrun⟩ | ⟨error, hrun⟩ <;> rw [hrun]
    · exact Or.inr hbeyond
    · exact Or.inr (Or.inr hbeyond)
  · obtain ⟨io, k, -, hrun⟩ := literalData_of_lt hc (Nat.not_le.1 hn)
    rw [hrun]
    trivial

/-- The announcement at the end of the line is read with its line break and its data, unless the
line feed is no line break. -/
theorem literalOctets_nil {ctx : Context} (hc : l.Ahead brace c []) :
    Lands l brace ctx.leniency (literalOctets ctx c) := by
  obtain ⟨more, hrest⟩ := hc.rest_eq
  rw [List.nil_append, AnnouncingLine.ending, List.append_assoc] at hrest
  have hposition : c.position = brace := hc.position_eq
  -- The cursor behind the closing brace.
  obtain ⟨d, hd⟩ : ∃ d, d = c.advance (LiteralMode.atOnce.announced l.digits).length := ⟨_, rfl⟩
  have hsteady : d.Steady := hd ▸ hc.steady.advance _
  have hbehind : d.position = brace + (LiteralMode.atOnce.announced l.digits).length := by
    rw [hd, Cursor.position_advance, hposition]
  have hrest' : d.rest = l.tail ++ Octet.lf :: more := by
    rw [hd, Cursor.rest_advance, hrest, List.drop_left]
  have hannounced := announcement_of_number ctx hc.steady hrest l.isNumber
  rw [← hd] at hannounced
  by_cases hlimit : ctx.maxLiteral < l.length
  · rw [if_pos hlimit] at hannounced
    rw [literalOctets_eq, bind_of_error hannounced]
    trivial
  rw [if_neg hlimit] at hannounced
  -- Behind the line break, if it is one, comes the data.
  have hread : ∀ e : Cursor, Decoder.eol ctx.leniency d = (.ok (), e) →
      e.position = d.position + (l.tail.length + 1) →
      Lands l brace ctx.leniency (Decoder.literalOctets ctx c) := by
    intro e heol he
    have hok : announcement ctx c = (.ok (l.length, .atOnce), e) :=
      hannounced.trans (bind_of_ok heol)
    have hesteady : e.Steady := (Forward.eol ctx.leniency).steady_of_run hsteady heol
    rw [literalOctets_eq, bind_of_ok hok]
    refine literalData hesteady ?_
    rw [he, hbehind, AnnouncingLine.ending, List.length_append]
    omega
  rcases l.isLineTail with htail | htail <;> rw [htail] at hrest' hread
  · cases hbare : ctx.leniency.bareLineFeed with
    | true => exact hread _ (eol_of_lf hsteady hrest' hbare) rfl
    | false =>
      have hreject := hannounced.trans (bind_of_error (eol_of_strict_lf hsteady hrest' hbare))
      have hpositive : 0 < (LiteralMode.atOnce.announced l.digits).length := by
        simp [LiteralMode.announced]
      have hend := l.length_announced_le
      rw [literalOctets_eq]
      refine trapped (bind_of_error hreject) ⟨?_, ?_⟩ (Or.inr ⟨htail, hbare⟩) <;> omega
  · exact hread _ (eol_of_crlf hsteady hrest') rfl

/-- An announcement before the one at the end of the line is rejected or refused, for the line goes
on behind it. -/
theorem announcement_bind {ctx : Context} {f : Nat × LiteralMode → Decoder β}
    (hff : ∀ a, Forward (f a)) (hc : l.Ahead brace c front) (hne : front ≠ []) :
    Lands l brace ctx.leniency ((announcement ctx >>= f) c) := by
  obtain ⟨b, t, rfl⟩ := List.exists_cons_of_ne_nil hne
  obtain ⟨more, hrest⟩ := hc.rest_eq
  have hforward (length : Nat) (mode : LiteralMode) :=
    (Composed.announced ctx length mode : Composed True True _).forward.bind hff
  rw [announcement_eq]
  simp only [bind_assoc (m := Decoder)]
  by_cases hb : b = Octet.lbrace
  · subst hb
    have hd := AnnouncingLine.Ahead.advance (w := [Octet.lbrace]) hc
    rw [bind_of_ok (expect_of_rest hc.steady hrest)]
    refine bind hd.steady (digits hd) .digits (fun _ => Forward.literalMode.bind fun _ =>
      (Forward.expect _).bind fun _ => hforward _ _) fun length d _ _ hd => ?_
    refine bind hd.steady (literalMode hd) .literalMode (fun _ =>
      (Forward.expect _).bind fun _ => hforward _ _) fun mode d _ _ hd => ?_
    refine bind hd.steady (expect (by decide) hd) (.expect _) (fun _ => hforward _ _)
      fun _ d _ _ hd => ?_
    by_cases hlimit : ctx.maxLiteral < length
    · rw [if_pos hlimit]
      cases mode with
      | atOnce => trivial
      | onRequest => exact Or.inl hd.position_le
    · rw [if_neg hlimit]
      obtain ⟨error, e, he, heol⟩ : ∃ error e, e.position ≤ brace ∧
          Decoder.eol ctx.leniency d = (.error (.rejected error), e) := eol hd
      exact rejected (bind_of_error (bind_of_error heol)) he
  · exact rejected (bind_of_error (expect_of_ne hc.steady hrest hb)) hc.position_le

theorem literalOctets {ctx : Context} (hc : l.Ahead brace c front) :
    Lands l brace ctx.leniency (literalOctets ctx c) := by
  by_cases hnil : front = []
  · subst hnil
    exact literalOctets_nil hc
  · exact announcement_bind (fun ⟨length, _⟩ =>
      .ite (Forward.request.bind fun _ => .literalData length) (.literalData length)) hc hnil

/-! ### Repetition -/

/-- By induction on the octets that are left. -/
theorem many {more : Decoder Bool} {element : Decoder α} (hadvances : Advances more)
    (hmore : Forward more) (helement : Forward element)
    (hm : ∀ {c : Cursor} {front}, l.Ahead brace c front → Lands l brace leniency (more c))
    (he : ∀ {c : Cursor} {front}, l.Ahead brace c front → Lands l brace leniency (element c))
    (n : Nat) : ∀ {c : Cursor} {front : List UInt8}, l.Ahead brace c front → c.rest.length < n →
      Lands l brace leniency (many more element c) := by
  induction n with
  | zero => intro c front _ hn; exact absurd hn (Nat.not_lt_zero _)
  | succ n ih =>
    intro c front hc hn
    rw [many_apply hadvances hmore helement hc.steady]
    refine bind hc.steady (hm hc) hmore (fun _ => .ite (helement.bind fun _ =>
      (hmore.many helement).bind fun _ => .pure _) (.pure _)) fun t d front hrun hd => ?_
    cases t with
    | false => exact pure _ hd
    | true =>
      have hlt : d.rest.length < c.rest.length := hadvances c d hc.steady hrun
      refine bind hd.steady (he hd) helement (fun _ => (hmore.many helement).bind fun _ => .pure _)
        fun a e front' hrun' he' => ?_
      have hle : e.rest.length ≤ d.rest.length :=
        helement.length_le_of_run hd.steady hrun'
      exact bind he'.steady (ih he' (by omega)) (hmore.many helement) (fun _ => .pure _)
        fun _ _ _ _ h => pure _ h

end Lands

/-- A run of an inline decoder from ahead of the brace. -/
theorem Decoder.Inline.lands {α : Type} {limit : Nat} {leniency : Leniency} {x : Decoder α}
    (h : Inline limit leniency x) (l : AnnouncingLine) (brace : Nat) :
    ∀ {c : Cursor} {front : List UInt8}, l.Ahead brace c front →
      Lands l brace leniency (x c) := by
  induction h with
  | pure a => exact .pure a
  | reject e => exact .reject e
  | peek => exact .peek
  | isConsumed => exact .isConsumed
  | expect b hb =>
    refine .expect ?_
    rintro rfl
    exact absurd hb (by decide)
  | takeWhile p hp =>
    refine .takeWhile ?_
    cases hbrace : p Octet.lbrace with
    | false => rfl
    | true => exact absurd (hp _ hbrace) (by decide)
  | digits => exact .digits
  | quotedToken => exact .quotedToken
  | quoted charset => exact .quoted charset
  | literalOctets ctx _ hleniency =>
    subst hleniency
    exact .literalOctets
  | bind hx hf ihx ihf =>
    exact fun hc => .bind hc.steady (ihx hc) hx.forward (fun a => (hf a).forward)
      fun a _ _ _ hd => ihf a hd
  | many hadvances hmore helement ihmore ihelement =>
    exact fun hc => .many hadvances hmore.forward helement.forward ihmore ihelement _ hc
      (Nat.lt_succ_self _)

/-- Of two ways to split octets, the shorter front is the front of the longer one. -/
theorem exists_of_append_eq_append {as bs xs ys : List UInt8} (h : as ++ bs = xs ++ ys)
    (hle : as.length ≤ xs.length) : ∃ t, xs = as ++ t ∧ bs = t ++ ys := by
  rcases List.append_eq_append_iff.1 h with ⟨t, hxs, hbs⟩ | ⟨t, has, hys⟩
  · exact ⟨t, hxs, hbs⟩
  · have hnil : t = [] := by
      have hlen := congrArg List.length has
      rw [List.length_append] at hlen
      exact List.length_eq_zero_iff.1 (by omega)
    subst hnil
    exact ⟨[], by simpa using has.symm, by simpa using hys.symm⟩

namespace Request

variable {ctx : Context} {l : AnnouncingLine} {brace : Nat} {c e : Cursor} {front : List UInt8}

/-- The line is in front of the cursor. -/
theorem ahead_of_rest (hc : c.Steady) {more : List UInt8}
    (hrest : c.rest = l.octets ++ Octet.lf :: more) :
    l.Ahead (c.position + l.front.length) c l.front where
  steady := hc
  suffix := List.suffix_refl _
  rest_eq := ⟨more, by rw [hrest, AnnouncingLine.octets, List.append_assoc]⟩
  position_eq := rfl

/-- A command is not read from a part of the line. -/
theorem beyond_of_read (hc : l.Ahead brace c front) {command : Command}
    (h : read ctx c = (.ok command, e)) : l.Beyond brace e := by
  have hlands := (parse_inline ctx).lands l brace hc
  have hforward := (parse_inline ctx).forward.steady hc.steady
  rcases hrun : parse ctx c with ⟨f | command', d⟩ <;> rw [hrun] at hlands hforward
  · simp [read, bind_of_error hrun] at h
  · rw [read, bind_of_ok hrun] at h
    rcases hlands with ⟨front', hd⟩ | hbeyond
    · obtain ⟨error, d', -, heol⟩ : ∃ error d', d'.position ≤ brace ∧
          Decoder.eol ctx.leniency d = (.error (.rejected error), d') := Lands.eol hd
      simp [bind_of_error heol] at h
    · have hend : Forward (do Decoder.eol ctx.leniency; return command') :=
        (Forward.eol _).bind fun _ => .pure _
      obtain ⟨w, hw⟩ := hend d hforward
      rw [h] at hw
      exact hbeyond.of_reaches hw

/-- A rejected request is rejected within the line or beyond its data. -/
theorem rejected_of_read (hc : l.Ahead brace c front) {error : DecodingError}
    (h : read ctx c = (.error (.rejected error), e)) :
    e.position ≤ brace ∨ l.Between brace e ∧ l.Trap ctx.leniency ∨ l.Beyond brace e := by
  have hlands : Lands l brace ctx.leniency (read ctx c) :=
    .bind hc.steady ((parse_inline ctx).lands l brace hc) (parse_inline ctx).forward
      (fun _ => (Forward.eol _).bind fun _ => .pure _) fun command d _ _ hd => by
        obtain ⟨error, d', hd', heol⟩ : ∃ error d', d'.position ≤ brace ∧
          Decoder.eol ctx.leniency d = (.error (.rejected error), d') := Lands.eol hd
        exact .rejected (bind_of_error heol) hd'
  rw [h] at hlands
  exact hlands

/-- The data is consumed together with its line, unless the connection ends. -/
def DataConsumed (ctx : Context) (l : AnnouncingLine) (c : Cursor) : Prop :=
  (∃ f e, decode ctx c = (.error f, e) ∧ f.isFatal = true) ∨
    ∃ request e, decode ctx c = (.ok request, e) ∧
      c.position + l.octets.length + 1 + l.length ≤ e.position

/-- The request is rejected behind the opening brace of the announcement, but not behind its line
feed. -/
def RejectedBetween (ctx : Context) (l : AnnouncingLine) (c : Cursor) : Prop :=
  ∃ error e, read ctx c = (.error (.rejected error), e) ∧
    l.Between (c.position + l.front.length) e

/-- Once discarding has come behind the data, the data is consumed. -/
theorem dataConsumed_of_discardFrom {error : DecodingError}
    (hread : read ctx c = (.error (.rejected error), e)) {d : Cursor} (hd : d.Steady)
    {a : Announcement} (hdiscard : discardLine e = discardFrom a d)
    (hbeyond : l.Beyond (c.position + l.front.length) d) : DataConsumed ctx l c := by
  have hforward : Forward (discardFrom a) := Forward.bound.bind fun _ => .discardUpTo _ _
  obtain ⟨w, hw⟩ := hforward d hd
  rcases hrun : discardFrom a d with ⟨f | u, d'⟩
  · obtain ⟨io, rfl⟩ := discardFrom_error _ hd (Nat.le_refl _) hrun
    exact Or.inl ⟨_, d', by
      rw [decode_of_rejected hread, discard_of_error (hdiscard.trans hrun)], rfl⟩
  · rw [hrun] at hw
    have hd' : l.Beyond (c.position + l.front.length) d' := hbeyond.of_reaches hw
    refine Or.inr ⟨_, d', by
      rw [decode_of_rejected hread, discard_of_ok (hdiscard.trans hrun)], ?_⟩
    rw [AnnouncingLine.Beyond] at hd'
    rw [AnnouncingLine.octets, List.length_append]
    omega

/-- Rejected before the brace, the announcement is seen when the line is discarded. -/
theorem dataConsumed_of_le (hc : c.Steady) {more : List UInt8}
    (hrest : c.rest = l.octets ++ Octet.lf :: more) {error : DecodingError}
    (hread : read ctx c = (.error (.rejected error), e))
    (hle : e.position ≤ c.position + l.front.length) : DataConsumed ctx l c := by
  obtain ⟨w, hw⟩ := read_forward ctx c hc
  rw [hread] at hw
  have he : e.Steady := hw.steady hc
  have hw' : e.position = c.position + w.length := hw.position_eq
  -- What is left of the front stands between the rejection and the brace.
  obtain ⟨t, ht, hrest'⟩ : ∃ t, l.front = w ++ t ∧
      e.rest = t ++ (l.ending ++ Octet.lf :: more) := by
    refine exists_of_append_eq_append ?_ (by omega)
    rw [← List.append_assoc, ← AnnouncingLine.octets, ← hrest]
    exact hw.rest_eq.symm
  rw [← List.append_assoc] at hrest'
  have hlf : Octet.lf ∉ t ++ l.ending := by
    rw [List.mem_append, not_or]
    exact ⟨fun hmem => l.no_lf (ht ▸ List.mem_append_right w hmem), l.no_lf_ending⟩
  have hlength : (Announcement.none.after (t ++ l.ending)).length? = some l.length :=
    Announcement.length?_after.2 ⟨t, l.digits, l.tail, by
      rw [AnnouncingLine.ending, List.append_assoc], l.isNumber, l.isLineTail⟩
  have hdiscard := discardLine_of_some he hrest' hlf hlength
  have hd := he.advance ((t ++ l.ending).length + 1)
  by_cases hn : l.length ≤ (e.advance ((t ++ l.ending).length + 1)).rest.length
  · rw [bind_of_ok (skip_of_le hd hn)] at hdiscard
    refine dataConsumed_of_discardFrom hread (hd.advance _) hdiscard ?_
    have hlen := congrArg List.length ht
    rw [List.length_append] at hlen
    simp only [AnnouncingLine.Beyond, Cursor.position_advance, List.length_append]
    omega
  · obtain ⟨io, k, -, hio⟩ := skip_of_lt hd (Nat.not_le.1 hn)
    rw [bind_of_error hio] at hdiscard
    exact Or.inl ⟨_, _, by rw [decode_of_rejected hread, discard_of_error hdiscard], rfl⟩

/-- Rejected behind the brace, only the line is discarded. -/
theorem decode_of_between (hc : c.Steady) {more : List UInt8}
    (hrest : c.rest = l.octets ++ Octet.lf :: more) (h : RejectedBetween ctx l c) :
    ∃ request e, decode ctx c = (.ok request, e) ∧
      e.position = c.position + l.octets.length + 1 := by
  obtain ⟨error, e, hread, hlow, hhigh⟩ := h
  obtain ⟨w, hw⟩ := read_forward ctx c hc
  rw [hread] at hw
  have he : e.Steady := hw.steady hc
  have hw' : e.position = c.position + w.length := hw.position_eq
  have hwhole : w ++ e.rest = l.front ++ (l.ending ++ Octet.lf :: more) := by
    rw [← List.append_assoc, ← AnnouncingLine.octets, ← hrest]
    exact hw.rest_eq.symm
  -- The brace was consumed, so that what is left of the line is no announcement.
  obtain ⟨u, rfl, hu⟩ := exists_of_append_eq_append hwhole.symm (by omega)
  rw [List.length_append] at hw'
  obtain ⟨t, ht, hrest'⟩ := exists_of_append_eq_append hu.symm (by omega)
  have hne : u ≠ [] := by
    rintro rfl
    rw [List.length_nil] at hw'
    omega
  have hlf : Octet.lf ∉ t := fun hmem => l.no_lf_ending (ht ▸ List.mem_append_right u hmem)
  have hdiscard := discardLine_of_none he hrest' hlf (AnnouncingLine.length?_after_ending ht hne)
  refine ⟨_, _, by rw [decode_of_rejected hread, discard_of_ok hdiscard], ?_⟩
  have hlen := congrArg List.length ht
  rw [List.length_append] at hlen
  rw [Cursor.position_advance, AnnouncingLine.octets, List.length_append]
  omega

/-- **Data that comes without waiting.**  It is consumed together with the line that announces it
exactly if there is none or the request is not rejected behind the opening brace.  There it can only
be rejected in a string that was opened before, or at a line feed that is no line break. -/
theorem dataConsumed_iff (ctx : Context) (l : AnnouncingLine) (hc : c.Steady) {more : List UInt8}
    (hrest : c.rest = l.octets ++ Octet.lf :: more) :
    (DataConsumed ctx l c ↔ l.length = 0 ∨ ¬ RejectedBetween ctx l c) ∧
      (RejectedBetween ctx l c → l.Trap ctx.leniency) := by
  have hahead := ahead_of_rest hc hrest
  refine ⟨⟨fun hconsumed => ?_, fun h => ?_⟩, ?_⟩
  · -- Discarding the line alone leaves the data, if there is some.
    refine Or.symm (Decidable.or_iff_not_imp_right.2 fun hn hbetween => ?_)
    obtain ⟨request, e, hrun, hposition⟩ := decode_of_between hc hrest hbetween
    rcases hconsumed with ⟨f, d, hfail, -⟩ | ⟨request', d, hok, hle⟩
    · simp [hrun] at hfail
    · obtain ⟨-, rfl⟩ : request = request' ∧ e = d := by simpa [hrun] using hok
      omega
  · -- A command, a failure, or a rejection in front of the brace or behind the data.
    rcases hread : read ctx c with ⟨f | command, e⟩
    · cases f with
      | io io => exact Or.inl ⟨_, e, decode_of_fatal hread rfl, rfl⟩
      | literalTooLarge length limit => exact Or.inl ⟨_, e, decode_of_fatal hread rfl, rfl⟩
      | rejected error =>
        rcases rejected_of_read hahead hread with hle | ⟨hbetween, -⟩ | hbeyond
        · exact dataConsumed_of_le hc hrest hread hle
        · have hrejected : RejectedBetween ctx l c := ⟨error, e, hread, hbetween⟩
          rcases h with hzero | hnot
          · obtain ⟨request, e, hrun, hposition⟩ := decode_of_between hc hrest hrejected
            exact Or.inr ⟨request, e, hrun, by omega⟩
          · exact absurd hrejected hnot
        · have he : e.Steady := (read_forward ctx).steady_of_run hc hread
          exact dataConsumed_of_discardFrom hread he (a := .none) rfl hbeyond
    · have hbeyond := beyond_of_read hahead hread
      rw [AnnouncingLine.Beyond] at hbeyond
      refine Or.inr ⟨_, e, decode_of_ok hread, ?_⟩
      rw [AnnouncingLine.octets, List.length_append]
      omega
  · rintro ⟨error, e, hread, hbetween⟩
    rcases rejected_of_read hahead hread with hle | ⟨-, htrap⟩ | hbeyond
    · exact absurd hle (Nat.not_le.2 hbetween.1)
    · exact htrap
    · have hhigh := hbetween.2
      rw [AnnouncingLine.Beyond] at hbeyond
      omega

/-- The line `A LOGIN {8+}`, with nothing behind the brace. -/
def loginLine : AnnouncingLine where
  front := Octet.ofText "A LOGIN "
  digits := [0x38]
  length := 8
  tail := []
  no_lf := by decide
  isNumber := ⟨by decide, by decide, by decide, by decide⟩
  isLineTail := Or.inl rfl

/-- Where a line feed alone is a line break, the data behind it is consumed. -/
theorem dataConsumed_iff_bareLineFeed :
    (Cursor.ofOctets (loginLine.octets ++ Octet.lf :: Octet.ofText "B NOOP\r\n")).Steady ∧
      DataConsumed { leniency := { bareLineFeed := true } } loginLine
        (.ofOctets (loginLine.octets ++ Octet.lf :: Octet.ofText "B NOOP\r\n")) := by
  have hc :
      (Cursor.ofOctets (loginLine.octets ++ Octet.lf :: Octet.ofText "B NOOP\r\n")).Steady := by
    intro link hlink
    simp [Cursor.ofOctets] at hlink
  obtain ⟨hiff, htrap⟩ :=
    dataConsumed_iff { leniency := { bareLineFeed := true } } loginLine hc rfl
  refine ⟨hc, hiff.2 (Or.inr fun h => ?_)⟩
  rcases htrap h with hquote | ⟨-, hstrict⟩
  · exact absurd hquote (by decide)
  · exact absurd hstrict (by decide)

/-- Eight octets of data after a line feed that is no line break are taken for a request. -/
theorem not_dataConsumed_loginLine :
    loginLine.octets ++ Octet.lf :: Octet.ofText "B NOOP\r\nC NOOP\r\n" =
        Octet.ofText "A LOGIN \x7b8+\x7d\nB NOOP\r\nC NOOP\r\n" ∧
      ¬ DataConsumed {} loginLine
        (.ofOctets (Octet.ofText "A LOGIN \x7b8+\x7d\nB NOOP\r\nC NOOP\r\n")) := by
  have hrun : decode {} (.ofOctets (Octet.ofText "A LOGIN \x7b8+\x7d\nB NOOP\r\nC NOOP\r\n")) =
      (.ok (.malformed (some ⟨"A"⟩) (.unexpected Octet.lf "CRLF")),
        ⟨Octet.ofText "B NOOP\r\nC NOOP\r\n", 13, [], .memory⟩) := by cbv
  refine ⟨by cbv, ?_⟩
  rintro (⟨f, e, hfail, -⟩ | ⟨request, e, hok, hle⟩)
  · simp [hrun] at hfail
  · rw [hrun] at hok
    obtain rfl : _ = e := congrArg Prod.snd hok
    exact absurd hle (by decide)

end Request

end ImapRequest
