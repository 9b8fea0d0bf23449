import ImapRequest.Decoder.Text
import ImapRequest.Proofs.Source

/-!
# Decoders on a steady source

What the decoders that look at the cursor answer on a steady source, and the laws by which all
other decoders are put together from them.

* `Decoder.peek_of_rest`, `Decoder.consume_of_rest`, `Decoder.take_of_le` : the cursor's operations;
* `Decoder.takeWhile_apply` : the longest run of octets of a class, without a bound on repetition;
* `Decoder.Composed`, `Decoder.Composed.leads` : the decoders that are programs of operations, and
  what they can do to a cursor;
* `Decoder.Forward` : a decoder moves forward, if at all;
* `Decoder.many_apply` : repetition without a bound.
-/

namespace ImapRequest

namespace Cursor

/-- The octets `w` lie between two positions. -/
structure Reaches (c : Cursor) (w : List UInt8) (e : Cursor) : Prop where
  rest_eq : c.rest = w ++ e.rest
  position_eq : e.position = c.position + w.length
  steady : c.Steady → e.Steady

namespace Reaches

variable {c d e : Cursor} {v w : List UInt8}

theorem refl (c : Cursor) : c.Reaches [] c := ⟨rfl, rfl, id⟩

theorem trans (hcd : c.Reaches v d) (hde : d.Reaches w e) : c.Reaches (v ++ w) e where
  rest_eq := by rw [hcd.rest_eq, hde.rest_eq, List.append_assoc]
  position_eq := by
    rw [hde.position_eq, hcd.position_eq, List.length_append, Nat.add_assoc]
  steady h := hde.steady (hcd.steady h)

theorem advance (c : Cursor) {n : Nat} (hn : n ≤ c.rest.length) :
    c.Reaches (c.rest.take n) (c.advance n) where
  rest_eq := (List.take_append_drop n c.rest).symm
  position_eq := by simp [Nat.min_eq_left hn]
  steady h := h.advance n

/-- Behind the front of the octets. -/
theorem front {s : List UInt8} (h : c.rest = w ++ s) : c.Reaches w (c.advance w.length) where
  rest_eq := by rw [rest_advance_append h, h]
  position_eq := rfl
  steady h := h.advance w.length

theorem asked (c : Cursor) : c.Reaches [] c.asked := ⟨rfl, rfl, Steady.asked⟩

theorem length_le (h : c.Reaches w e) : e.rest.length ≤ c.rest.length := by
  rw [h.rest_eq, List.length_append]
  omega

theorem position_le (h : c.Reaches w e) : c.position ≤ e.position := by
  rw [h.position_eq]
  omega

end Reaches

/-- What the operations can do to a cursor: it moves, and the client is asked for data. -/
inductive Leads (asks : Prop) (c : Cursor) : Cursor → Prop
  | refl : Leads asks c c
  | advance {d : Cursor} {n : Nat} (h : Leads asks c d) (hn : n ≤ d.rest.length) :
    Leads asks c (d.advance n)
  | asked (hasks : asks) {d : Cursor} (h : Leads asks c d) : Leads asks c d.asked

namespace Leads

variable {asks : Prop} {c d e : Cursor}

theorem trans (hcd : c.Leads asks d) (hde : d.Leads asks e) : c.Leads asks e := by
  induction hde with
  | refl => exact hcd
  | advance _ hn ih => exact ih.advance hn
  | asked hasks _ ih => exact ih.asked hasks

theorem reaches (h : c.Leads asks e) : ∃ w, c.Reaches w e := by
  induction h with
  | refl => exact ⟨[], .refl c⟩
  | advance _ hn ih =>
    obtain ⟨w, hw⟩ := ih
    exact ⟨_, hw.trans (.advance _ hn)⟩
  | asked _ _ ih =>
    obtain ⟨w, hw⟩ := ih
    exact ⟨_, hw.trans (.asked _)⟩

theorem steady (h : c.Leads asks e) (hc : c.Steady) : e.Steady := by
  obtain ⟨w, hw⟩ := h.reaches
  exact hw.steady hc

/-- Requests for data are only added, at the position where the cursor is. -/
theorem exists_requests (h : c.Leads asks e) :
    ∃ ps, e.requests = c.requests ++ ps ∧ ∀ p ∈ ps, c.position ≤ p := by
  induction h with
  | refl => exact ⟨[], by simp⟩
  | advance _ _ ih => exact ih
  | asked _ h ih =>
    rename_i d
    obtain ⟨ps, hps, hle⟩ := ih
    obtain ⟨w, hw⟩ := h.reaches
    refine ⟨ps ++ [d.position], by rw [requests_asked, hps, List.append_assoc], fun p hp => ?_⟩
    rcases List.mem_append.1 hp with hp | hp
    · exact hle p hp
    · rw [List.mem_singleton.1 hp]
      exact hw.position_le

/-- Without asking there are no more requests. -/
theorem requests_eq (h : c.Leads False e) : e.requests = c.requests := by
  induction h with
  | refl => rfl
  | advance _ _ ih => exact ih
  | asked hasks _ _ => exact hasks.elim

end Leads

end Cursor

namespace Decoder

variable {α β γ : Type}

/-! ### Laws -/

@[ext] theorem ext {x y : Decoder α} (h : ∀ c, x c = y c) : x = y := funext h

instance : LawfulMonad Decoder := LawfulMonad.mk' Decoder
  (fun x => by
    funext c
    change (x >>= fun a => pure a) c = x c
    rw [bind_apply]
    rcases x c with ⟨e | a, d⟩ <;> rfl)
  (fun _ _ => rfl)
  (fun x f g => by
    funext c
    simp only [bind_apply]
    rcases x c with ⟨e | a, d⟩ <;> rfl)

section Bind

variable {x : Decoder α} {f g : α → Decoder β} {c d : Cursor} {a : α} {e : Failure}

theorem bind_of_ok (h : x c = (.ok a, d)) : (x >>= f) c = f a d := by rw [bind_apply, h]

theorem bind_of_error (h : x c = (.error e, d)) : (x >>= f) c = (.error e, d) := by
  rw [bind_apply, h]

/-- What two decoders read one after the other is read by both. -/
theorem exists_of_bind {b : β} (h : (x >>= f) c = (.ok b, d)) :
    ∃ a c', x c = (.ok a, c') ∧ f a c' = (.ok b, d) := by
  rcases hrun : x c with ⟨e | a, c'⟩
  · simp [bind_of_error hrun] at h
  · exact ⟨a, c', rfl, (bind_of_ok hrun).symm.trans h⟩

theorem exists_of_map {g : α → β} {b : β} (h : (do return g (← x)) c = (.ok b, d)) :
    ∃ a, x c = (.ok a, d) ∧ g a = b := by
  obtain ⟨a, c', hrun, hb⟩ := exists_of_bind h
  obtain ⟨rfl, rfl⟩ : g a = b ∧ c' = d := by simpa [pure_apply] using hb
  exact ⟨a, hrun, rfl⟩

/-- What follows matters only where the decoder before it succeeds. -/
theorem bind_congr_at (h : ∀ a d, x c = (.ok a, d) → f a d = g a d) :
    (x >>= f) c = (x >>= g) c := by
  rw [bind_apply, bind_apply]
  rcases hx : x c with ⟨e | a, d⟩
  · rfl
  · exact h a d hx

end Bind

section Attempt

variable {x : Decoder α} {c d : Cursor}

theorem attempt_of_ok {a : α} (h : x c = (.ok a, d)) : attempt x c = (.ok (.ok a), d) := by
  rw [attempt, h]

theorem attempt_of_rejected {error : DecodingError} (h : x c = (.error (.rejected error), d)) :
    attempt x c = (.ok (.error error), d) := by
  rw [attempt, h]

theorem attempt_of_fatal {f : Failure} (h : x c = (.error f, d)) (hf : f.isFatal = true) :
    attempt x c = (.error f, d) := by
  cases f with
  | rejected error => simp [Failure.isFatal] at hf
  | io error => rw [attempt, h]
  | literalTooLarge length limit => rw [attempt, h]

end Attempt

/-! ### Outcomes -/

/-- The run did not fail for lack of octets. -/
def Conclusive (r : Except Failure α) : Prop := ∀ e, r ≠ .error (.io e)

/-- The run refused a literal that comes without waiting. -/
def Refused (r : Except Failure α) : Prop :=
  ∃ length limit, r = .error (.literalTooLarge length limit)

theorem not_refused_ok (a : α) : ¬ Refused (.ok a) := by rintro ⟨_, _, h⟩; simp at h

theorem not_refused_rejected (e : DecodingError) :
    ¬ Refused (.error (.rejected e) : Except _ α) := by
  rintro ⟨_, _, h⟩
  simp at h

theorem not_refused_io (e : IoError) : ¬ Refused (.error (.io e) : Except _ α) := by
  rintro ⟨_, _, h⟩
  simp at h

/-! ### Reading from a steady source -/

section Steady

variable {c : Cursor} {b : UInt8} {bs : List UInt8}

theorem peek_of_rest (hc : c.Steady) (h : c.rest = b :: bs) : peek c = (.ok b, c) := by
  simp only [peek, ofIo, Cursor.peek_of_rest hc h]
  rfl

theorem peek_of_nil (h : c.rest = []) : ∃ e, peek c = (.error (.io e), c) := by
  obtain ⟨e, he⟩ := Cursor.peek_of_nil h
  exact ⟨e, by simp only [peek, ofIo, he]; rfl⟩

/-- Where the source shows nothing more, there is no octet to look at. -/
theorem peek_of_isConsumed (h : c.isConsumed = true) : ∃ e, peek c = (.error (.io e), c) := by
  unfold Cursor.isConsumed at h
  cases hfront : c.front with
  | ok next =>
    obtain rfl : next = none := by simpa [hfront] using h
    exact ⟨c.endError, by simp only [peek, ofIo, Cursor.peek, hfront]; rfl⟩
  | error e => exact ⟨e, by simp only [peek, ofIo, Cursor.peek, hfront]; rfl⟩

theorem peek_of_not_steady (hc : ¬ c.Steady) : ∃ e, peek c = (.error (.io e), c) :=
  peek_of_isConsumed (Cursor.isConsumed_of_not_steady hc)

theorem isConsumed_of_not_steady (hc : ¬ c.Steady) : isConsumed c = (.ok true, c) := by
  rw [isConsumed, Cursor.isConsumed_of_not_steady hc]

/-- A source that shows an octet is steady. -/
theorem steady_of_peek {d : Cursor} (h : peek c = (.ok b, d)) : c.Steady := by
  refine Classical.byContradiction fun hc => ?_
  obtain ⟨e, he⟩ := peek_of_not_steady hc
  simp [he] at h

/-- A decoder that looks at the next octet first and succeeds has found one. -/
theorem exists_of_look {f : UInt8 → Decoder α} {a : α} {d : Cursor}
    (h : (peek >>= f) c = (.ok a, d)) : c.Steady ∧ ∃ b bs, c.rest = b :: bs ∧
      f b c = (.ok a, d) := by
  obtain ⟨b, c', hpeek, hrun⟩ := exists_of_bind h
  have hc := steady_of_peek hpeek
  refine ⟨hc, ?_⟩
  cases hrest : c.rest with
  | nil =>
    obtain ⟨e, he⟩ := peek_of_nil hrest
    simp [he] at hpeek
  | cons b bs => exact ⟨b, bs, rfl, (bind_of_ok (peek_of_rest hc hrest)).symm.trans h⟩

theorem consume_of_rest (hc : c.Steady) (h : c.rest = b :: bs) :
    consume c = (.ok b, c.advance 1) := by
  simp only [consume, ofIo, Cursor.consume_of_rest hc h]
  rfl

theorem consume_of_nil (h : c.rest = []) : ∃ e, consume c = (.error (.io e), c) := by
  obtain ⟨e, he⟩ := Cursor.consume_of_nil h
  exact ⟨e, by simp only [consume, ofIo, he]; rfl⟩

theorem bound_apply (c : Cursor) : bound c = (.ok c.rest.length, c) := rfl

theorem isConsumed_apply (hc : c.Steady) : isConsumed c = (.ok c.rest.isEmpty, c) := by
  simp only [isConsumed, Cursor.isConsumed_eq hc]

theorem take_of_le (hc : c.Steady) {n : Nat} (hn : n ≤ c.rest.length) :
    take n c = (.ok (c.rest.take n), c.advance n) := by
  simp only [take, ofIo, Cursor.take_of_le hc hn]
  rfl

theorem take_short (hc : c.Steady) {n : Nat} (hn : c.rest.length < n) :
    ∃ e, take n c = (.error (.io e), c.drained) := by
  obtain ⟨e, h⟩ := Cursor.take_short hc hn
  exact ⟨e, by simp only [take, ofIo, h]; rfl⟩

theorem take_of_lt (hc : c.Steady) {n : Nat} (hn : c.rest.length < n) :
    ∃ e k, k ≤ c.rest.length ∧ take n c = (.error (.io e), c.advance k) := by
  obtain ⟨e, k, hk, h⟩ := Cursor.take_of_lt hc hn
  exact ⟨e, k, hk, by simp only [take, ofIo, h]; rfl⟩

theorem skip_of_le (hc : c.Steady) {n : Nat} (hn : n ≤ c.rest.length) :
    skip n c = (.ok (), c.advance n) := by
  simp only [skip, ofIo, Cursor.skip_of_le hc hn]
  rfl

theorem skip_short (hc : c.Steady) {n : Nat} (hn : c.rest.length < n) :
    ∃ e, skip n c = (.error (.io e), c.advance c.rest.length) := by
  obtain ⟨e, h⟩ := Cursor.skip_short hc hn
  exact ⟨e, by simp only [skip, ofIo, h]; rfl⟩

theorem skip_of_lt (hc : c.Steady) {n : Nat} (hn : c.rest.length < n) :
    ∃ e k, k ≤ c.rest.length ∧ skip n c = (.error (.io e), c.advance k) := by
  obtain ⟨e, h⟩ := skip_short hc hn
  exact ⟨e, _, Nat.le_refl _, h⟩

theorem request_eq (c : Cursor) :
    request c = (.ok (), c.asked) ∨ request c = (.error (.io .writerFailed), c) := by
  rcases Cursor.request_eq c with h | h
  · exact Or.inl (by simp only [request, ofIo, h]; rfl)
  · exact Or.inr (by simp only [request, ofIo, h]; rfl)

theorem request_withRest (c : Cursor) (bs : List UInt8) :
    request (c.withRest bs) = ((request c).1, (request c).2.withRest bs) := by
  simp only [request, ofIo, Cursor.request_withRest]

/-! ### Single octets -/

theorem expect_of_rest (hc : c.Steady) (h : c.rest = b :: bs) :
    expect b c = (.ok (), c.advance 1) := by
  rw [expect, bind_of_ok (peek_of_rest hc h), if_pos (beq_self_eq_true b),
    bind_of_ok (consume_of_rest hc h)]
  rfl

theorem sp_of_rest (hc : c.Steady) (h : c.rest = Octet.sp :: bs) :
    sp c = (.ok (), c.advance 1) := by
  rw [sp, bind_of_ok (peek_of_rest hc h), if_pos (beq_self_eq_true _),
    bind_of_ok (consume_of_rest hc h), pure_apply]

theorem expect_of_ne (hc : c.Steady) (h : c.rest = b :: bs) {expected : UInt8}
    (hb : b ≠ expected) :
    expect expected c =
      (.error (.rejected (.unexpected b (inQuotes (Octet.escaped expected)))), c) := by
  rw [expect, bind_of_ok (peek_of_rest hc h), if_neg (by simpa using hb)]
  rfl

theorem expect_of_nil (h : c.rest = []) (expected : UInt8) :
    ∃ e, expect expected c = (.error (.io e), c) := by
  obtain ⟨e, he⟩ := peek_of_nil h
  exact ⟨e, by rw [expect, bind_of_error he]⟩

/-- A given octet that was read stood there. -/
theorem rest_of_expect (hc : c.Steady) {expected : UInt8} {u : Unit} {e : Cursor}
    (h : expect expected c = (.ok u, e)) :
    ∃ s, c.rest = expected :: s ∧ e = c.advance 1 := by
  cases hrest : c.rest with
  | nil =>
    obtain ⟨io, hio⟩ := expect_of_nil hrest expected
    simp [hio] at h
  | cons b s =>
    by_cases hb : b = expected
    · subst hb
      rw [expect_of_rest hc hrest] at h
      exact ⟨s, rfl, (congrArg Prod.snd h).symm⟩
    · simp [expect_of_ne hc hrest hb] at h

theorem nextIs_apply (hc : c.Steady) (b : UInt8) :
    nextIs b c = (.ok (c.rest.head? == some b), c) := by
  rw [nextIs, bind_of_ok (isConsumed_apply hc)]
  cases h : c.rest with
  | nil => rfl
  | cons a as =>
    simp only [List.isEmpty_cons, Bool.false_eq_true, ↓reduceIte, List.head?_cons]
    rw [bind_of_ok (peek_of_rest hc h)]
    rfl

/-! ### Runs of octets -/

theorem takeWhileUpTo_apply (p : UInt8 → Bool) (limit : Nat) : ∀ {c : Cursor}, c.Steady →
    c.rest.length ≤ limit →
    takeWhileUpTo p limit c =
      (.ok (c.rest.takeWhile p), c.advance (c.rest.takeWhile p).length) := by
  induction limit with
  | zero =>
    intro c _ hn
    have h : c.rest = [] := List.length_eq_zero_iff.1 (by omega)
    simp [takeWhileUpTo, h, pure_apply]
  | succ limit ih =>
    intro c hc hn
    rw [takeWhileUpTo, bind_of_ok (isConsumed_apply hc)]
    cases h : c.rest with
    | nil => simp [pure_apply]
    | cons b bs =>
      simp only [List.isEmpty_cons, Bool.false_eq_true, ↓reduceIte]
      rw [bind_of_ok (peek_of_rest hc h)]
      by_cases hp : p b = true
      · have hrest : (c.advance 1).rest = bs := by simp [h]
        have hlen : (c.advance 1).rest.length ≤ limit := by rw [hrest]; simp [h] at hn; exact hn
        rw [if_pos hp, bind_of_ok (consume_of_rest hc h), bind_of_ok (ih (hc.advance 1) hlen),
          pure_apply, hrest, Cursor.advance_advance, List.takeWhile_cons_of_pos hp,
          List.length_cons, Nat.add_comm]
      · rw [if_neg hp, List.takeWhile_cons_of_neg hp]
        rfl

theorem takeWhile_apply (p : UInt8 → Bool) (hc : c.Steady) :
    takeWhile p c = (.ok (c.rest.takeWhile p), c.advance (c.rest.takeWhile p).length) :=
  takeWhileUpTo_apply p c.rest.length hc (Nat.le_refl _)

/-- The octets in front of a source are a run of a class and what follows it. -/
theorem exists_run (p : UInt8 → Bool) (bs : List UInt8) : ∃ w s, bs = w ++ s ∧
    (∀ b ∈ w, p b = true) ∧ ∀ b ∈ s.head?, p b = false := by
  induction bs with
  | nil => exact ⟨[], [], rfl, by simp, by simp⟩
  | cons b bs ih =>
    obtain ⟨w, s, rfl, hw, hs⟩ := ih
    cases hb : p b with
    | true => exact ⟨b :: w, s, rfl, by simpa [hb] using hw, hs⟩
    | false => exact ⟨[], b :: (w ++ s), rfl, by simp, by simpa using hb⟩

/-- A run is the longest one where an octet of another class follows. -/
theorem takeWhile_run {p : UInt8 → Bool} {w s : List UInt8} (hw : ∀ b ∈ w, p b = true)
    (hs : ∀ b ∈ s.head?, p b = false) : (w ++ s).takeWhile p = w := by
  have hstop : s.takeWhile p = [] := by
    cases s with
    | nil => rfl
    | cons b s => exact List.takeWhile_cons_of_neg (by simp [hs b rfl])
  rw [List.takeWhile_append_of_pos hw, hstop, List.append_nil]

theorem takeWhile_of_rest {p : UInt8 → Bool} (hc : c.Steady) {w s : List UInt8}
    (h : c.rest = w ++ s) (hw : ∀ b ∈ w, p b = true) (hs : ∀ b ∈ s.head?, p b = false) :
    takeWhile p c = (.ok w, c.advance w.length) := by
  rw [takeWhile_apply p hc, h, takeWhile_run hw hs]

theorem takeWhile1_of_rest {p : UInt8 → Bool} {expected : String} (hc : c.Steady)
    {w s : List UInt8} (h : c.rest = w ++ s) (hne : w ≠ []) (hw : ∀ b ∈ w, p b = true)
    (hs : ∀ b ∈ s.head?, p b = false) : takeWhile1 p expected c = (.ok w, c.advance w.length) := by
  rw [takeWhile1, bind_of_ok (takeWhile_of_rest hc h hw hs), if_neg (by simpa using hne)]
  rfl

/-- What was read as a run stood there, and nothing of its class behind it. -/
theorem rest_of_takeWhile1 {p : UInt8 → Bool} {expected : String} (hc : c.Steady) {w : List UInt8}
    {e : Cursor} (h : takeWhile1 p expected c = (.ok w, e)) :
    ∃ s, c.rest = w ++ s ∧ w ≠ [] ∧ (∀ b ∈ w, p b = true) ∧ (∀ b ∈ s.head?, p b = false) ∧
      e = c.advance w.length := by
  obtain ⟨v, s, hrest, hv, hs⟩ := exists_run p c.rest
  rw [takeWhile1, bind_of_ok (takeWhile_of_rest hc hrest hv hs)] at h
  split at h
  · obtain ⟨b, d, -, h⟩ := exists_of_bind h
    simp [unexpected, reject, fail] at h
  · rename_i hne
    obtain ⟨rfl, rfl⟩ : v = w ∧ c.advance v.length = e := by simpa [pure_apply] using h
    exact ⟨s, hrest, by simpa using hne, hv, hs, rfl⟩

end Steady

/-! ### Programs of operations -/

/-- The decoders that are put together from the operations of a cursor.  Whether they may ask for
data, and whether they may take several octets at once, is up to `asks` and `takes`. -/
inductive Composed (asks takes : Prop) : {α : Type} → Decoder α → Prop
  | pure {α : Type} (a : α) : Composed asks takes (pure a)
  | reject {α : Type} (e : DecodingError) : Composed asks takes (reject e : Decoder α)
  | refuse {α : Type} (length limit : Nat) :
    Composed asks takes (fail (.literalTooLarge length limit) : Decoder α)
  | peek : Composed asks takes peek
  | consume : Composed asks takes consume
  | isConsumed : Composed asks takes isConsumed
  | bound : Composed asks takes bound
  | skip (n : Nat) : Composed asks takes (skip n)
  | take (htakes : takes) (n : Nat) : Composed asks takes (take n)
  | request (hasks : asks) : Composed asks takes request
  | bind {α β : Type} {x : Decoder α} {f : α → Decoder β} (hx : Composed asks takes x)
    (hf : ∀ a, Composed asks takes (f a)) : Composed asks takes (x >>= f)
  | attempt {α : Type} {x : Decoder α} (hx : Composed asks takes x) :
    Composed asks takes (attempt x)

namespace Composed

variable {asks takes : Prop} {x y : Decoder α}

theorem ite {p : Prop} [Decidable p] (hx : Composed asks takes x) (hy : Composed asks takes y) :
    Composed asks takes (if p then x else y) := by
  split
  · exact hx
  · exact hy

theorem manyUpTo {more : Decoder Bool} (hmore : Composed asks takes more)
    (hx : Composed asks takes x) (limit : Nat) : Composed asks takes (manyUpTo more x limit) := by
  induction limit with
  | zero => exact pure _
  | succ limit ih =>
    exact hmore.bind fun _ => .ite (hx.bind fun _ => ih.bind fun _ => pure _) (pure _)

theorem many {more : Decoder Bool} (hmore : Composed asks takes more)
    (hx : Composed asks takes x) : Composed asks takes (many more x) :=
  bound.bind fun _ => hmore.manyUpTo hx _

theorem takeWhileUpTo (p : UInt8 → Bool) (limit : Nat) :
    Composed asks takes (takeWhileUpTo p limit) := by
  induction limit with
  | zero => exact pure _
  | succ limit ih =>
    exact isConsumed.bind fun _ => .ite (pure _) <| peek.bind fun _ =>
      .ite (consume.bind fun _ => ih.bind fun _ => pure _) (pure _)

theorem takeWhile (p : UInt8 → Bool) : Composed asks takes (takeWhile p) :=
  bound.bind fun _ => .takeWhileUpTo p _

/-- What a run can do to a cursor. -/
theorem leads (h : Composed asks takes x) : ∀ {c : Cursor}, c.Steady → c.Leads asks (x c).2 := by
  induction h with
  | pure a => exact fun _ => .refl
  | reject e => exact fun _ => .refl
  | refuse length limit => exact fun _ => .refl
  | peek => exact fun _ => .refl
  | isConsumed => exact fun _ => .refl
  | bound => exact fun _ => .refl
  | consume =>
    intro c hc
    cases h : c.rest with
    | nil =>
      obtain ⟨e, he⟩ := consume_of_nil h
      rw [he]
      exact .refl
    | cons b bs =>
      rw [consume_of_rest hc h]
      exact .advance .refl (by simp [h])
  | skip n =>
    intro c hc
    by_cases hn : n ≤ c.rest.length
    · rw [skip_of_le hc hn]
      exact .advance .refl hn
    · obtain ⟨e, k, hk, h⟩ := skip_of_lt hc (Nat.not_le.1 hn)
      rw [h]
      exact .advance .refl hk
  | take _ n =>
    intro c hc
    by_cases hn : n ≤ c.rest.length
    · rw [take_of_le hc hn]
      exact .advance .refl hn
    · obtain ⟨e, k, hk, h⟩ := take_of_lt hc (Nat.not_le.1 hn)
      rw [h]
      exact .advance .refl hk
  | request hasks =>
    intro c _
    rcases request_eq c with h | h <;> rw [h]
    · exact .asked hasks .refl
    · exact .refl
  | @bind _ _ x f _ _ ihx ihf =>
    intro c hc
    have hx := ihx hc
    rcases h : x c with ⟨e | a, d⟩ <;> rw [h] at hx
    · rw [bind_of_error h]
      exact hx
    · rw [bind_of_ok h]
      exact hx.trans (ihf a (hx.steady hc))
  | @attempt _ x _ ih =>
    intro c hc
    have hx := ih hc
    unfold Decoder.attempt
    rcases h : x c with ⟨e | a, d⟩ <;> rw [h] at hx
    · cases e <;> exact hx
    · exact hx

/-- What can not ask asks for nothing. -/
theorem requests_eq (h : Composed False True x) {c : Cursor} (hc : c.Steady) :
    (x c).2.requests = c.requests := (h.leads hc).requests_eq

end Composed

/-! ### Forward motion -/

/-- The decoder moves forward, if at all. -/
def Forward (x : Decoder α) : Prop := ∀ c : Cursor, c.Steady → ∃ w, c.Reaches w (x c).2

theorem Composed.forward {x : Decoder α} (h : Composed True True x) : Forward x :=
  fun _ hc => (h.leads hc).reaches

namespace Forward

variable {x : Decoder α} {f : α → Decoder β}

theorem steady (h : Forward x) {c : Cursor} (hc : c.Steady) : (x c).2.Steady := by
  obtain ⟨w, hw⟩ := h c hc
  exact hw.steady hc

theorem length_le (h : Forward x) {c : Cursor} (hc : c.Steady) :
    (x c).2.rest.length ≤ c.rest.length := by
  obtain ⟨w, hw⟩ := h c hc
  exact hw.length_le

section Run

variable {c d : Cursor} {r : Except Failure α}

theorem steady_of_run (h : Forward x) (hc : c.Steady) (hrun : x c = (r, d)) : d.Steady := by
  simpa [hrun] using h.steady hc

theorem length_le_of_run (h : Forward x) (hc : c.Steady) (hrun : x c = (r, d)) :
    d.rest.length ≤ c.rest.length := by
  simpa [hrun] using h.length_le hc

end Run

theorem pure (a : α) : Forward (pure a) := (Composed.pure a).forward

theorem fail (e : Failure) : Forward (fail e : Decoder α) := fun c _ => ⟨[], .refl c⟩

theorem reject (e : DecodingError) : Forward (reject e : Decoder α) := fail _

theorem peek : Forward peek := Composed.peek.forward

theorem isConsumed : Forward isConsumed := Composed.isConsumed.forward

theorem bound : Forward bound := Composed.bound.forward

theorem consume : Forward consume := Composed.consume.forward

theorem take (n : Nat) : Forward (take n) := (Composed.take trivial n).forward

theorem skip (n : Nat) : Forward (skip n) := (Composed.skip n).forward

theorem request : Forward request := (Composed.request trivial).forward

theorem takeWhile (p : UInt8 → Bool) : Forward (takeWhile p) := (Composed.takeWhile p).forward

theorem bind (hx : Forward x) (hf : ∀ a, Forward (f a)) : Forward (x >>= f) := by
  intro c hc
  obtain ⟨v, hv⟩ := hx c hc
  rcases h : x c with ⟨e | a, d⟩
  · rw [bind_of_error h]
    rw [h] at hv
    exact ⟨v, hv⟩
  · rw [bind_of_ok h]
    rw [h] at hv
    obtain ⟨w, hw⟩ := hf a d (hv.steady hc)
    exact ⟨v ++ w, hv.trans hw⟩

theorem ite {y : Decoder α} {p : Prop} [Decidable p] (hx : Forward x) (hy : Forward y) :
    Forward (if p then x else y) := by
  split
  · exact hx
  · exact hy

theorem attempt (hx : Forward x) : Forward (attempt x) := by
  intro c hc
  obtain ⟨w, hw⟩ := hx c hc
  refine ⟨w, ?_⟩
  unfold Decoder.attempt
  rcases h : x c with ⟨e | a, d⟩
  · rw [h] at hw
    cases e <;> exact hw
  · rw [h] at hw
    exact hw

theorem manyUpTo {more : Decoder Bool} (hmore : Forward more) (hx : Forward x) (limit : Nat) :
    Forward (manyUpTo more x limit) := by
  induction limit with
  | zero => exact pure _
  | succ limit ih =>
    exact hmore.bind fun _ => .ite (hx.bind fun _ => ih.bind fun _ => pure _) (pure _)

theorem many {more : Decoder Bool} (hmore : Forward more) (hx : Forward x) :
    Forward (many more x) :=
  bound.bind fun _ => hmore.manyUpTo hx _

end Forward

/-! ### Repetition -/

/-- A bound of the octets that are left and `spare` more is large enough: more rounds are not
made. -/
def EndsItself (spare : Nat) (x : Nat → Decoder α) : Prop :=
  ∀ (c : Cursor) (extra : Nat), c.Steady →
    x (c.rest.length + spare + extra) c = x (c.rest.length + spare) c

theorem EndsItself.eq {spare m n : Nat} {x : Nat → Decoder α} {c : Cursor} (h : EndsItself spare x)
    (hc : c.Steady) (hm : c.rest.length + spare ≤ m) (hn : c.rest.length + spare ≤ n) :
    x m c = x n c := by
  obtain ⟨k, rfl⟩ := Nat.exists_eq_add_of_le hm
  obtain ⟨l, rfl⟩ := Nat.exists_eq_add_of_le hn
  rw [h c k hc, h c l hc]

/-- A repetition ends itself if after a round that is not the last one fewer octets are left.
Without a spare round, none is needed where no octet is left. -/
theorem endsItself_of_rounds {σ : Type} {spare : Nat} {x : Nat → σ → Decoder α}
    (hnil : spare = 0 → ∀ s (c : Cursor), c.Steady → c.rest = [] → x 1 s c = x 0 s c)
    (hround : ∀ m n s (c : Cursor), c.Steady →
      (∀ t (d : Cursor), d.Steady → d.rest.length < c.rest.length → x m t d = x n t d) →
      x (m + 1) s c = x (n + 1) s c) (s : σ) : EndsItself spare fun limit => x limit s := by
  have hextra (m : Nat) : ∀ (s : σ) (c : Cursor) (extra : Nat), c.Steady →
      c.rest.length + spare ≤ m → x (m + extra) s c = x m s c := by
    induction m with
    | zero =>
      intro s c extra hc hm
      have hrest : c.rest = [] := List.length_eq_zero_iff.1 (by omega)
      cases extra with
      | zero => rfl
      | succ extra =>
        rw [Nat.zero_add, ← hnil (by omega) s c hc hrest]
        exact hround extra 0 s c hc fun t d _ hd => absurd hd (by simp [hrest])
    | succ m ih =>
      intro s c extra hc hm
      rw [Nat.add_right_comm]
      exact hround _ _ s c hc fun t d hd' hd => ih t d extra hd' (by omega)
  exact fun c extra hc => hextra _ s c extra hc (Nat.le_refl _)

/-- The decoder announces more only by consuming octets. -/
def Advances (more : Decoder Bool) : Prop :=
  ∀ c e, c.Steady → more c = (.ok true, e) → e.rest.length < c.rest.length

section Many

variable {more : Decoder Bool} {element : Decoder α}

theorem manyUpTo_endsItself (hadvances : Advances more) (hmore : Forward more)
    (helement : Forward element) : EndsItself 1 (manyUpTo more element) := by
  refine endsItself_of_rounds (x := fun limit (_ : Unit) => manyUpTo more element limit)
    (fun h => absurd h (by decide)) (fun m n _ c hc hround => ?_) ()
  dsimp only [manyUpTo]
  refine bind_congr_at fun t d hd => ?_
  cases t with
  | false => rfl
  | true =>
    have hlt : d.rest.length < c.rest.length := hadvances c d hc hd
    have hd' : d.Steady := hmore.steady_of_run hc hd
    refine bind_congr_at fun a e he => ?_
    have hle : e.rest.length ≤ d.rest.length := helement.length_le_of_run hd' he
    rw [bind_apply, bind_apply, hround () e (helement.steady_of_run hd' he) (by omega)]

/-- Elements for as long as more are announced. -/
theorem many_apply (hadvances : Advances more) (hmore : Forward more) (helement : Forward element)
    {c : Cursor} (hc : c.Steady) :
    many more element c = (do
      if ← more then
        let a ← element
        let as ← many more element
        return a :: as
      else
        return []) c := by
  change manyUpTo more element (c.rest.length + 1) c = _
  rw [manyUpTo]
  refine bind_congr_at fun t d hd => ?_
  cases t with
  | false => rfl
  | true =>
    have hlt : d.rest.length < c.rest.length := hadvances c d hc hd
    have hd' : d.Steady := hmore.steady_of_run hc hd
    refine bind_congr_at fun a e he => ?_
    have hle : e.rest.length ≤ d.rest.length := helement.length_le_of_run hd' he
    have he' : e.Steady := helement.steady_of_run hd' he
    have hends : EndsItself 1 (manyUpTo more element) :=
      manyUpTo_endsItself hadvances hmore helement
    rw [bind_apply, bind_apply, hends.eq he' (n := e.rest.length + 1) (by omega) (Nat.le_refl _)]
    rfl

end Many

end Decoder

end ImapRequest
