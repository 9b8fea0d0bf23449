import ImapRequest.Proofs.Announcement

/-!
# What is discarded

The rest of a rejected request is a sequence of lines.  Each line but the last one ends in an
announcement `{n+}`, and the `n` octets behind its line feed belong to the request as well, whatever
they are.

* `Octet.AnnouncesAtOnce` : a line at whose end data is announced that comes at once;
* `Octet.Discarded` : the octets of a rejected request, in front of other octets;
* `Octet.CutShort` : octets that end within announced data;
* `Announcement.number?_le` : whatever the octets of a line are, the number that is kept fits 32
  bits;
* `Decoder.discardLine_stops` : discarding moves behind the rejected request and nowhere else, and
  it fails exactly where the octets end within announced data.
-/

namespace ImapRequest

namespace Octet

/-- The octets of a line before its line feed, at the end of which `n` octets are announced that
come at once. -/
def AnnouncesAtOnce (line : List UInt8) (n : Nat) : Prop :=
  ∃ front ds tail, line = front ++ LiteralMode.atOnce.announced ds ++ tail ∧
    Decimal.IsNumber ds n ∧ IsLineTail tail

/-- The octets `w` of a rejected request in front of the octets `s`. -/
inductive Discarded : List UInt8 → List UInt8 → Prop where
  /-- The octets end before the line does. -/
  | ended {line : List UInt8} (no_lf : lf ∉ line) : Discarded line []
  /-- The line announces nothing. -/
  | line {line s : List UInt8} (no_lf : lf ∉ line) (silent : ∀ n, ¬ AnnouncesAtOnce line n) :
      Discarded (line ++ [lf]) s
  /-- The line announces data, and behind the data it begins anew. -/
  | literal {line data w s : List UInt8} (no_lf : lf ∉ line)
      (announces : AnnouncesAtOnce line data.length) (further : Discarded w s) :
      Discarded (line ++ lf :: (data ++ w)) s

/-- Octets that end within the data that a line of a rejected request announces. -/
inductive CutShort : List UInt8 → Prop where
  | within {line data : List UInt8} {n : Nat} (no_lf : lf ∉ line)
      (announces : AnnouncesAtOnce line n) (short : data.length < n) :
      CutShort (line ++ lf :: data)
  | behind {line data bs : List UInt8} (no_lf : lf ∉ line)
      (announces : AnnouncesAtOnce line data.length) (further : CutShort bs) :
      CutShort (line ++ lf :: (data ++ bs))

end Octet

namespace Announcement

/-- The number that is kept. -/
def number? : Announcement → Option Nat
  | .none | .opened => Option.none
  | .digits n | .plus n | .closed n | .cr n => some n

theorem Spells.number?_le {a : Announcement} {s : List UInt8} {n : Nat} (h : Spells a s)
    (hn : a.number? = some n) : n ≤ Decimal.maxNumber := by
  cases a with
  | none => simp [number?] at hn
  | opened => simp [number?] at hn
  | digits m | plus m | closed m | cr m =>
    obtain ⟨ds, hds, -⟩ := h
    obtain rfl : m = n := by simpa [number?] using hn
    exact hds.le_maxNumber

/-- Every number that is kept fits 32 bits. -/
theorem number?_le {line : List UInt8} {n : Nat} (h : (none.after line).number? = some n) :
    n ≤ Decimal.maxNumber := by
  obtain ⟨_, _, -, hspells⟩ := spells_after (a := .none) (s := []) rfl line
  exact hspells.number?_le h

end Announcement

namespace Decoder

open Octet (AnnouncesAtOnce Discarded CutShort)

variable {c : Cursor} {line data s w : List UInt8} {n : Nat}

/-! ### One line -/

/-- The end of the octets ends a line as well. -/
theorem discardLine_of_ended (hc : c.Steady) (hrest : c.rest = line) (hline : Octet.lf ∉ line) :
    discardLine c = (.ok (), c.advance line.length) := by
  have hnil : (c.advance line.length).rest = [] := by
    rw [Cursor.rest_advance, hrest, List.drop_length]
  change discardFrom .none c = _
  rw [discardFrom_line (s := []) line _ hc (by rw [hrest, List.append_nil]) hline,
    discardFrom_of_nil hnil]

theorem discardLine_of_silent (hc : c.Steady) (hrest : c.rest = line ++ Octet.lf :: s)
    (hline : Octet.lf ∉ line) (hsilent : ∀ n, ¬ AnnouncesAtOnce line n) :
    discardLine c = (.ok (), c.advance (line.length + 1)) := by
  refine discardLine_of_none hc hrest hline ?_
  refine Option.eq_none_iff_forall_ne_some.2 fun n hn => ?_
  exact hsilent n (Announcement.length?_after.1 hn)

/-- Behind a line that announces data, the data is skipped. -/
theorem discardLine_of_announces (hc : c.Steady) (hrest : c.rest = line ++ Octet.lf :: s)
    (hline : Octet.lf ∉ line) (hannounces : AnnouncesAtOnce line n) :
    (c.advance (line.length + 1)).rest = s ∧
      discardLine c = (do skip n; discardLine) (c.advance (line.length + 1)) := by
  refine ⟨?_, discardLine_of_some hc hrest hline (Announcement.length?_after.2 hannounces)⟩
  rw [← Cursor.advance_advance, Cursor.rest_advance, Cursor.rest_advance, hrest, List.drop_left]
  rfl

/-- Behind announced data it begins anew. -/
theorem discardLine_of_literal (hc : c.Steady) (hrest : c.rest = line ++ Octet.lf :: (data ++ s))
    (hline : Octet.lf ∉ line) (hannounces : AnnouncesAtOnce line data.length) :
    (c.advance (line.length + 1 + data.length)).rest = s ∧
      discardLine c = discardLine (c.advance (line.length + 1 + data.length)) := by
  obtain ⟨hrest', hrun⟩ := discardLine_of_announces hc hrest hline hannounces
  have hlen : data.length ≤ (c.advance (line.length + 1)).rest.length := by
    rw [hrest', List.length_append]
    omega
  rw [hrun, bind_of_ok (skip_of_le (hc.advance _) hlen), ← Cursor.advance_advance,
    Cursor.rest_advance, hrest', List.drop_left]
  exact ⟨rfl, rfl⟩

/-- Without all of the announced data everything is read. -/
theorem discardLine_of_short (hc : c.Steady) (hrest : c.rest = line ++ Octet.lf :: data)
    (hline : Octet.lf ∉ line) (hannounces : AnnouncesAtOnce line n) (hshort : data.length < n) :
    ∃ io, discardLine c = (.error (.io io), c.advance c.rest.length) := by
  obtain ⟨hrest', hrun⟩ := discardLine_of_announces hc hrest hline hannounces
  have hlen : c.rest.length = line.length + 1 + data.length := by
    rw [hrest, List.length_append, List.length_cons]
    omega
  obtain ⟨io, hskip⟩ := skip_short (hc.advance (line.length + 1)) (by rw [hrest']; exact hshort)
  refine ⟨io, ?_⟩
  rw [hrun, bind_of_error hskip, Cursor.advance_advance, hrest', hlen]

/-! ### All lines -/

theorem discardLine_of_discarded (h : Discarded w s) : ∀ {c : Cursor}, c.Steady →
    c.rest = w ++ s → discardLine c = (.ok (), c.advance w.length) := by
  induction h with
  | ended hline =>
    intro c hc hrest
    rw [List.append_nil] at hrest
    exact discardLine_of_ended hc hrest hline
  | line hline hsilent =>
    intro c hc hrest
    rw [List.append_assoc] at hrest
    rw [discardLine_of_silent hc hrest hline hsilent, List.length_append, List.length_singleton]
  | @literal line data w s hline hannounces _ ih =>
    intro c hc hrest
    have hlen : (line ++ Octet.lf :: (data ++ w)).length =
        line.length + 1 + data.length + w.length := by
      simp only [List.length_append, List.length_cons]
      omega
    rw [List.append_assoc, List.cons_append, List.append_assoc] at hrest
    obtain ⟨hrest', hrun⟩ := discardLine_of_literal hc hrest hline hannounces
    rw [hrun, ih (hc.advance _) hrest', Cursor.advance_advance, hlen]

theorem discardLine_of_cutShort {bs : List UInt8} (h : CutShort bs) : ∀ {c : Cursor}, c.Steady →
    c.rest = bs → ∃ io, discardLine c = (.error (.io io), c.advance c.rest.length) := by
  induction h with
  | within hline hannounces hshort =>
    intro c hc hrest
    exact discardLine_of_short hc hrest hline hannounces hshort
  | @behind line data bs hline hannounces _ ih =>
    intro c hc hrest
    have hlen : c.rest.length = line.length + 1 + data.length + bs.length := by
      simp only [hrest, List.length_append, List.length_cons]
      omega
    obtain ⟨hrest', hrun⟩ := discardLine_of_literal hc hrest hline hannounces
    obtain ⟨io, hio⟩ := ih (hc.advance (line.length + 1 + data.length)) hrest'
    refine ⟨io, ?_⟩
    rw [hrun, hio, Cursor.advance_advance, hrest', hlen]

/-- Whatever the octets are, a rejected request ends among them, or they end within its data. -/
theorem discarded_or_cutShort (n : Nat) : ∀ bs : List UInt8, bs.length ≤ n →
    (∃ w s, bs = w ++ s ∧ Discarded w s) ∨ CutShort bs := by
  induction n with
  | zero =>
    intro bs hn
    obtain rfl : bs = [] := List.length_eq_zero_iff.1 (Nat.le_zero.1 hn)
    exact Or.inl ⟨[], [], rfl, .ended (by simp)⟩
  | succ n ih =>
    intro bs hn
    by_cases hlf : Octet.lf ∈ bs
    case neg => exact Or.inl ⟨bs, [], by simp, .ended hlf⟩
    obtain ⟨line, s, rfl, hline⟩ := List.eq_append_cons_of_mem hlf
    by_cases hannounces : ∃ m, AnnouncesAtOnce line m
    case neg =>
      refine Or.inl ⟨line ++ [Octet.lf], s, by simp, .line hline fun m hm => ?_⟩
      exact hannounces ⟨m, hm⟩
    obtain ⟨m, hm⟩ := hannounces
    by_cases hshort : s.length < m
    case pos => exact Or.inr (.within hline hm hshort)
    -- The data is there, and what follows it is shorter than all of the octets.
    obtain ⟨data, bs, rfl, rfl⟩ : ∃ data bs, s = data ++ bs ∧ m = data.length :=
      ⟨s.take m, s.drop m, (List.take_append_drop m s).symm, by simp; omega⟩
    have hlen : bs.length ≤ n := by
      simp only [List.length_append, List.length_cons] at hn
      omega
    rcases ih bs hlen with ⟨w, t, rfl, hw⟩ | hcut
    · exact Or.inl ⟨line ++ Octet.lf :: (data ++ w), t, by simp, .literal hline hm hw⟩
    · exact Or.inr (.behind hline hm hcut)

/-- Discarding reads a rejected request to its end and no further, and it fails, at the end of the
octets, exactly where they end within announced data.  The numbers that it keeps on the way fit 32
bits. -/
theorem discardLine_stops (hc : c.Steady) :
    (∀ e, discardLine c = (.ok (), e) ↔
      ∃ w s, c.rest = w ++ s ∧ Discarded w s ∧ e = c.advance w.length) ∧
    (∀ failure e, discardLine c = (.error failure, e) →
      CutShort c.rest ∧ (∃ io, failure = .io io) ∧ e = c.advance c.rest.length) ∧
    (CutShort c.rest → ∃ io, discardLine c = (.error (.io io), c.advance c.rest.length)) ∧
    ∀ line n, (Announcement.none.after line).number? = some n → n ≤ Decimal.maxNumber := by
  refine ⟨fun e => ⟨fun h => ?_, ?_⟩, fun failure e h => ?_,
    fun h => discardLine_of_cutShort h hc rfl, fun line n h => Announcement.number?_le h⟩
  · rcases discarded_or_cutShort _ c.rest (Nat.le_refl _) with ⟨w, s, hrest, hw⟩ | hcut
    · rw [discardLine_of_discarded hw hc hrest] at h
      exact ⟨w, s, hrest, hw, (congrArg Prod.snd h).symm⟩
    · obtain ⟨io, hio⟩ := discardLine_of_cutShort hcut hc rfl
      simp [hio] at h
  · rintro ⟨w, s, hrest, hw, rfl⟩
    exact discardLine_of_discarded hw hc hrest
  · rcases discarded_or_cutShort _ c.rest (Nat.le_refl _) with ⟨w, s, hrest, hw⟩ | hcut
    · simp [discardLine_of_discarded hw hc hrest] at h
    · obtain ⟨io, hio⟩ := discardLine_of_cutShort hcut hc rfl
      obtain ⟨rfl, rfl⟩ : .io io = failure ∧ c.advance c.rest.length = e := by simpa [hio] using h
      exact ⟨hcut, ⟨io, rfl⟩, rfl⟩

/-- Line breaks within the data do not end the request, and data that is not all there is none. -/
theorem discardLine_stops_literal :
    discardLine (.ofOctets (Octet.ofText "X \x7b004+\x7d\r\nA\r\nB\r\nC NOOP\r\n")) =
        (.ok (), ⟨Octet.ofText "C NOOP\r\n", 16, [], .memory⟩) ∧
      ∃ io, discardLine (.ofOctets (Octet.ofText "X \x7b004+\x7d\r\nA\r\n")) =
        (.error (.io io), ⟨[], 13, [], .memory⟩) := by
  have hannounces : AnnouncesAtOnce (Octet.ofText "X \x7b004+\x7d\r") 4 := by
    refine ⟨Octet.ofText "X ", Octet.ofText "004", [Octet.cr], ?_, ⟨?_, ?_, ?_, ?_⟩, Or.inr rfl⟩ <;>
      decide +kernel
  have hsilent (n : Nat) : ¬ AnnouncesAtOnce [Octet.cr] n := fun h =>
    nomatch (Announcement.length?_after.2 h : none = some n)
  have hdiscarded : Discarded (Octet.ofText "X \x7b004+\x7d\r" ++ Octet.lf ::
      (Octet.ofText "A\r\nB" ++ ([Octet.cr] ++ [Octet.lf]))) (Octet.ofText "C NOOP\r\n") :=
    .literal (by decide +kernel) hannounces (.line (by decide) hsilent)
  have hcut : CutShort (Octet.ofText "X \x7b004+\x7d\r" ++ Octet.lf :: Octet.ofText "A\r\n") :=
    .within (by decide +kernel) hannounces (by decide +kernel)
  constructor
  · exact ((discardLine_stops (Cursor.steady_ofOctets _)).1 _).2
      ⟨_, _, by decide +kernel, hdiscarded, by cbv⟩
  · exact (discardLine_stops (Cursor.steady_ofOctets _)).2.2.1 hcut

end Decoder

end ImapRequest
