import ImapRequest.Cursor

/-!
# Sources that show what they have

A source is *steady* when it shows at least one octet wherever there are any: everything but a
stream with an empty window.  How many octets a read has brought in does not matter.  On a steady
source the operations of a cursor depend on the octets that are left and on nothing else about the
source, except for the wording of a failure:

* `Cursor.peek_of_rest`, `Cursor.consume_of_rest`, `Cursor.isConsumed_eq` : one octet at a time;
* `Cursor.take_of_le`, `Cursor.skip_of_le` : as many octets as there are;
* `Cursor.take_short`, `Cursor.skip_short` : more octets than there are, which fails;
* `Cursor.request_eq` : asking for the data of a literal moves nothing.
-/

namespace ImapRequest

namespace Link

variable {link : Link} {position n : Nat}

theorem leftOfRead_pos (reads : List Nat) (h : leftOfRead reads position = some n) : 0 < n := by
  induction reads generalizing position with
  | nil => cases h
  | cons m reads ih =>
    rw [leftOfRead] at h
    split at h
    · obtain rfl := Option.some.inj h
      omega
    · exact ih h

/-- Octets are shown at every position or at none. -/
theorem windowAt_pos_iff : 0 < link.windowAt position ↔ 0 < link.window := by
  unfold windowAt
  cases hleft : leftOfRead link.reads position with
  | none => simp
  | some n =>
    have hn := leftOfRead_pos link.reads hleft
    change 0 < min link.window n ↔ _
    omega

end Link

namespace Cursor

/-- The source shows an octet wherever there is one. -/
def Steady (c : Cursor) : Prop := ∀ link, c.source = .stream link → 0 < link.window

/-- The same position in front of other octets. -/
def withRest (c : Cursor) (bs : List UInt8) : Cursor := { c with rest := bs }

/-- The cursor once the client was asked for the data of a literal. -/
def asked (c : Cursor) : Cursor :=
  { c with
    requests := c.requests ++ [c.position]
    source := match c.source with
      | .stream link => .stream { link with written := link.written ++ goAhead }
      | s => s }

/-- Where the cursor is left by taking more octets than there are. -/
def drained (c : Cursor) : Cursor :=
  match c.source with
  | .memory => c
  | _ => c.advance c.rest.length

@[simp] theorem rest_withRest (c : Cursor) (bs : List UInt8) : (c.withRest bs).rest = bs := rfl

@[simp] theorem position_withRest (c : Cursor) (bs : List UInt8) :
    (c.withRest bs).position = c.position := rfl

@[simp] theorem withRest_withRest (c : Cursor) (as bs : List UInt8) :
    (c.withRest as).withRest bs = c.withRest bs := rfl

@[simp] theorem withRest_rest (c : Cursor) : c.withRest c.rest = c := rfl

@[simp] theorem rest_advance (c : Cursor) (n : Nat) : (c.advance n).rest = c.rest.drop n := rfl

theorem rest_advance_append {c : Cursor} {w s : List UInt8} (h : c.rest = w ++ s) :
    (c.advance w.length).rest = s := by
  rw [rest_advance, h, List.drop_left]

theorem rest_advance_one {c : Cursor} {b : UInt8} {s : List UInt8} (h : c.rest = b :: s) :
    (c.advance 1).rest = s :=
  rest_advance_append (w := [b]) h

@[simp] theorem position_advance (c : Cursor) (n : Nat) :
    (c.advance n).position = c.position + n := rfl

@[simp] theorem requests_advance (c : Cursor) (n : Nat) :
    (c.advance n).requests = c.requests := rfl

@[simp] theorem advance_zero (c : Cursor) : c.advance 0 = c := rfl

theorem advance_advance (c : Cursor) (m n : Nat) :
    (c.advance m).advance n = c.advance (m + n) := by
  simp only [advance, List.drop_drop, Nat.add_assoc]

@[simp] theorem rest_asked (c : Cursor) : c.asked.rest = c.rest := rfl

@[simp] theorem position_asked (c : Cursor) : c.asked.position = c.position := rfl

@[simp] theorem requests_asked (c : Cursor) :
    c.asked.requests = c.requests ++ [c.position] := rfl

/-- Moving behind the front of other octets leaves what follows them. -/
theorem withRest_append_advance (c : Cursor) (as bs : List UInt8) :
    (c.withRest (as ++ bs)).advance as.length = (c.advance as.length).withRest bs := by
  simp [withRest, advance]

namespace Steady

variable {c : Cursor}

theorem withRest (h : c.Steady) (bs : List UInt8) : (c.withRest bs).Steady := h

theorem advance (h : c.Steady) (n : Nat) : (c.advance n).Steady := h

theorem asked (h : c.Steady) : c.asked.Steady := by
  intro link hlink
  cases hs : c.source with
  | memory => simp [Cursor.asked, hs] at hlink
  | octets => simp [Cursor.asked, hs] at hlink
  | stream own =>
    simp only [Cursor.asked, hs, Source.stream.injEq] at hlink
    subst hlink
    exact h own hs

end Steady

/-- Octets in memory are all shown. -/
theorem steady_ofOctets (bs : List UInt8) : (ofOctets bs).Steady := by
  intro link hlink
  cases hlink

variable {c : Cursor} {b : UInt8} {bs : List UInt8}

/-! ### One octet at a time -/

theorem front_of_rest (hc : c.Steady) (h : c.rest = b :: bs) : c.front = .ok (some b) := by
  unfold front
  split
  · rename_i link hlink
    have hwindow : link.windowAt c.position ≠ 0 :=
      Nat.ne_of_gt (Link.windowAt_pos_iff.2 (hc link hlink))
    simp [h, hwindow]
  · simp [h]

/-- A source that is not steady shows nothing. -/
theorem front_of_not_steady (hc : ¬ c.Steady) : c.front = .ok none ∨ ∃ e, c.front = .error e := by
  obtain ⟨link, hlink, hwindow⟩ : ∃ link, c.source = .stream link ∧ link.window = 0 := by
    simpa [Steady] using hc
  have hwindow : link.windowAt c.position = 0 := by
    refine Nat.eq_zero_of_not_pos fun hpos => ?_
    exact absurd (Link.windowAt_pos_iff.1 hpos) (by omega)
  unfold front
  rw [hlink]
  by_cases hbreaks : (c.rest.isEmpty && link.breaks) = true
  · exact Or.inr ⟨.readerFailed, if_pos hbreaks⟩
  · exact Or.inl ((if_neg hbreaks).trans (by rw [if_pos hwindow]))

theorem front_of_nil (h : c.rest = []) : c.front = .ok none ∨ ∃ e, c.front = .error e := by
  unfold front
  split
  · rename_i link _
    by_cases hb : link.breaks = true
    · exact Or.inr ⟨.readerFailed, by simp [h, hb]⟩
    · exact Or.inl (by simp [h, hb])
  · exact Or.inl (by simp [h])

theorem peek_of_rest (hc : c.Steady) (h : c.rest = b :: bs) : c.peek = .ok b := by
  unfold peek
  rw [front_of_rest hc h]

theorem peek_of_nil (h : c.rest = []) : ∃ e, c.peek = .error e := by
  unfold peek
  rcases front_of_nil h with hf | ⟨e, hf⟩
  · exact ⟨c.endError, by rw [hf]⟩
  · exact ⟨e, by rw [hf]⟩

theorem consume_of_rest (hc : c.Steady) (h : c.rest = b :: bs) :
    c.consume = (.ok b, c.advance 1) := by
  unfold consume
  rw [peek_of_rest hc h]

theorem consume_of_nil (h : c.rest = []) : ∃ e, c.consume = (.error e, c) := by
  obtain ⟨e, he⟩ := peek_of_nil h
  exact ⟨e, by unfold consume; rw [he]⟩

theorem isConsumed_eq (hc : c.Steady) : c.isConsumed = c.rest.isEmpty := by
  cases h : c.rest with
  | nil => rcases front_of_nil h with hf | ⟨e, hf⟩ <;> simp [isConsumed, hf]
  | cons a as => simp [isConsumed, front_of_rest hc h]

theorem isConsumed_of_not_steady (hc : ¬ c.Steady) : c.isConsumed = true := by
  rcases front_of_not_steady hc with hfront | ⟨e, hfront⟩ <;> simp [isConsumed, hfront]

/-- A source that shows something is steady and has it. -/
theorem steady_and_rest_ne_nil (h : c.isConsumed = false) : c.Steady ∧ c.rest ≠ [] := by
  have hc : c.Steady := Classical.byContradiction fun hc => by
    simp [isConsumed_of_not_steady hc] at h
  exact ⟨hc, by simpa [isConsumed_eq hc] using h⟩

/-! ### Several octets at once -/

theorem takeSingly_of_le (n : Nat) : ∀ {c : Cursor}, c.Steady → n ≤ c.rest.length →
    takeSingly n c = (.ok (c.rest.take n), c.advance n) := by
  induction n with
  | zero => intro c _ _; simp [takeSingly]
  | succ n ih =>
    intro c hc hn
    cases h : c.rest with
    | nil => simp [h] at hn
    | cons b bs =>
      have hlen : n ≤ (c.advance 1).rest.length := by simp [h] at hn ⊢; omega
      rw [takeSingly, consume_of_rest hc h]
      simp only [ih (hc.advance 1) hlen, rest_advance, h, List.drop_succ_cons, List.drop_zero,
        List.take_succ_cons, advance_advance, Nat.add_comm 1 n]

/-- Whoever takes octet by octet fails at the end. -/
theorem takeSingly_of_lt (n : Nat) : ∀ {c : Cursor}, c.Steady → c.rest.length < n →
    ∃ e, takeSingly n c = (.error e, c.advance c.rest.length) := by
  induction n with
  | zero => intro c _ hn; omega
  | succ n ih =>
    intro c hc hn
    cases h : c.rest with
    | nil =>
      obtain ⟨e, he⟩ := consume_of_nil h
      exact ⟨e, by simp [takeSingly, he]⟩
    | cons b bs =>
      have hlen : (c.advance 1).rest.length < n := by simp [h] at hn ⊢; omega
      obtain ⟨e, ht⟩ := ih (hc.advance 1) hlen
      refine ⟨e, ?_⟩
      rw [takeSingly, consume_of_rest hc h]
      simp only [ht, advance_advance, rest_advance, h, List.drop_succ_cons, List.drop_zero,
        List.length_cons, Nat.add_comm 1]

/-- One window of octets is taken, and at least one octet of it. -/
theorem takeWindows_step (short : IoError) {link : Link} (hs : c.source = .stream link)
    (hw : 0 < link.window) (h : c.rest ≠ []) (limit n : Nat) :
    ∃ m, 0 < m ∧ m ≤ n + 1 ∧ m ≤ c.rest.length ∧
      takeWindows short (limit + 1) (n + 1) c =
        ((takeWindows short limit (n + 1 - m) (c.advance m)).1.map (c.rest.take m ++ ·),
          (takeWindows short limit (n + 1 - m) (c.advance m)).2) := by
  obtain ⟨b, bs, hrest⟩ := List.exists_cons_of_ne_nil h
  have hw : 0 < link.windowAt c.position := Link.windowAt_pos_iff.2 hw
  have hshown : c.shown = .ok (c.rest.take (link.windowAt c.position)) := by
    unfold shown
    rw [hs]
    simp [hrest]
  generalize link.windowAt c.position = window at hw hshown
  have hcons : c.rest.take window = b :: bs.take (window - 1) := by
    rw [hrest, ← List.take_succ_cons, Nat.sub_add_cancel hw]
  have htaken : (b :: bs.take (window - 1)).take (n + 1) = c.rest.take (min (n + 1) window) := by
    rw [← hcons, List.take_take]
  have hlen : (c.rest.take (min (n + 1) window)).length =
      min (min (n + 1) window) c.rest.length := List.length_take
  have hpos : 0 < c.rest.length := List.length_pos_iff.2 h
  refine ⟨min (min (n + 1) window) c.rest.length, by omega, by omega, by omega, ?_⟩
  have hshort : c.rest.take (min (min (n + 1) window) c.rest.length) =
      c.rest.take (min (n + 1) window) := by
    rw [← List.take_take, List.take_length]
  rw [takeWindows, hshown, hcons, hshort]
  simp only [htaken, hlen]
  rcases takeWindows short limit _ _ with ⟨e | more, d⟩ <;> rfl

theorem takeWindows_of_le (short : IoError) {link : Link} (hw : 0 < link.window) (limit : Nat) :
    ∀ {c : Cursor} {n : Nat}, c.source = .stream link → n ≤ limit → n ≤ c.rest.length →
      takeWindows short limit n c = (.ok (c.rest.take n), c.advance n) := by
  induction limit with
  | zero =>
    intro c n _ hn _
    obtain rfl : n = 0 := by omega
    simp [takeWindows]
  | succ limit ih =>
    intro c n hs hn hlen
    cases n with
    | zero => simp [takeWindows]
    | succ n =>
      have hne : c.rest ≠ [] := List.length_pos_iff.1 (by omega)
      obtain ⟨m, hm, hmn, hml, hstep⟩ := takeWindows_step short hs hw hne limit n
      have hrest : n + 1 - m ≤ (c.advance m).rest.length := by simp; omega
      rw [hstep, ih (c := c.advance m) hs (by omega) hrest]
      simp only [Except.map, rest_advance, advance_advance, Nat.add_sub_of_le hmn, ← List.take_add]

/-- Whoever takes window by window fails at the end, where there are enough windows to get there. -/
theorem takeWindows_of_lt (short : IoError) {link : Link} (hw : 0 < link.window) (limit : Nat) :
    ∀ {c : Cursor} {n : Nat}, c.source = .stream link → c.rest.length < n →
      c.rest.length < limit →
      ∃ e, takeWindows short limit n c = (.error e, c.advance c.rest.length) := by
  induction limit with
  | zero => intro c n _ _ hlimit; exact absurd hlimit (Nat.not_lt_zero _)
  | succ limit ih =>
    intro c n hs hn hlimit
    obtain ⟨n, rfl⟩ := Nat.exists_eq_succ_of_ne_zero (Nat.ne_of_gt (Nat.zero_lt_of_lt hn))
    by_cases hne : c.rest = []
    · by_cases hb : link.breaks = true
      · exact ⟨.readerFailed, by simp [takeWindows, shown, hs, hne, hb]⟩
      · exact ⟨short, by simp [takeWindows, shown, hs, hne, hb]⟩
    · obtain ⟨m, hm, hmn, hml, hstep⟩ := takeWindows_step short hs hw hne limit n
      have hlen : (c.advance m).rest.length = c.rest.length - m := by simp
      obtain ⟨e, ht⟩ := ih (c := c.advance m) (n := n + 1 - m) hs (by omega) (by omega)
      refine ⟨e, ?_⟩
      rw [hstep, ht]
      simp only [Except.map, advance_advance, hlen, Nat.add_sub_of_le hml]

theorem take_of_le (hc : c.Steady) {n : Nat} (hn : n ≤ c.rest.length) :
    c.take n = (.ok (c.rest.take n), c.advance n) := by
  unfold take
  split
  · rw [if_neg (by omega)]
  · exact takeSingly_of_le n hc hn
  · rename_i link hs
    exact takeWindows_of_le .shortRead (hc link hs) _ hs (by omega) hn

/-- Octets in memory are all left where too many are to be taken; the other sources are at their
end. -/
theorem take_short (hc : c.Steady) {n : Nat} (hn : c.rest.length < n) :
    ∃ e, c.take n = (.error e, c.drained) := by
  unfold take drained
  cases hs : c.source with
  | memory => exact ⟨c.endError, if_pos hn⟩
  | octets => exact takeSingly_of_lt n hc hn
  | stream link => exact takeWindows_of_lt .shortRead (hc link hs) _ hs hn (by omega)

theorem take_of_lt (hc : c.Steady) {n : Nat} (hn : c.rest.length < n) :
    ∃ e k, k ≤ c.rest.length ∧ c.take n = (.error e, c.advance k) := by
  obtain ⟨e, h⟩ := take_short hc hn
  unfold drained at h
  split at h
  · exact ⟨e, 0, Nat.zero_le _, h⟩
  · exact ⟨e, _, Nat.le_refl _, h⟩

theorem skip_of_le (hc : c.Steady) {n : Nat} (hn : n ≤ c.rest.length) :
    c.skip n = (.ok (), c.advance n) := by
  unfold skip
  split
  · rw [if_neg (by omega)]
  · rw [takeSingly_of_le n hc hn]
    rfl
  · rename_i link hs
    rw [takeWindows_of_le .endOfInput (hc link hs) _ hs (by omega) hn]
    rfl

/-- Every source is at its end where too many octets are to be skipped. -/
theorem skip_short (hc : c.Steady) {n : Nat} (hn : c.rest.length < n) :
    ∃ e, c.skip n = (.error e, c.advance c.rest.length) := by
  unfold skip
  cases hs : c.source with
  | memory => exact ⟨c.endError, if_pos hn⟩
  | octets =>
    obtain ⟨e, ht⟩ := takeSingly_of_lt n hc hn
    exact ⟨e, by simp only [ht]; rfl⟩
  | stream link =>
    obtain ⟨e, ht⟩ :=
      takeWindows_of_lt .endOfInput (hc link hs) (c.rest.length + 1) hs hn (by omega)
    exact ⟨e, by simp only [ht]; rfl⟩

/-! ### Asking for the data of a literal -/

/-- Whether writing to the source fails, now or at some later time, is up to the source alone. -/
theorem request_eq (c : Cursor) :
    c.request = (.ok (), c.asked) ∨ c.request = (.error .writerFailed, c) := by
  unfold request asked
  split
  · rename_i link hs
    split
    · exact Or.inr rfl
    · exact Or.inl (by rw [hs])
  · rename_i hs
    refine Or.inl ?_
    cases h : c.source with
    | stream link => exact absurd h (hs link)
    | memory => rfl
    | octets => rfl

/-- Which of the two it is does not depend on the octets that are left. -/
theorem request_withRest (c : Cursor) (bs : List UInt8) :
    (c.withRest bs).request = (c.request.1, c.request.2.withRest bs) := by
  unfold request withRest
  dsimp only
  split
  · split <;> rfl
  · rfl

end Cursor

end ImapRequest
