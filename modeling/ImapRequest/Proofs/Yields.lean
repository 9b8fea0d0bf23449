import ImapRequest.Proofs.Decoder

/-!
# What a decoder answers with

`Decoder.Yields x P` says that every value that `x` answers with has the property `P`, on any source
and whatever the octets.  It is kept by `do` and by repetition, so a property of a value is proved
along the decoder that makes it.
-/

namespace ImapRequest

namespace Decoder

/-- Whatever the decoder answers with has a property, on any source. -/
def Yields {α : Type} (x : Decoder α) (P : α → Prop) : Prop :=
  ∀ ⦃c : Cursor⦄ ⦃a : α⦄ ⦃d : Cursor⦄, x c = (.ok a, d) → P a

namespace Yields

variable {α β : Type} {x y : Decoder α} {P P' : α → Prop} {Q : β → Prop} {f : α → Decoder β}

theorem pure {a : α} (h : P a) : Yields (pure a) P := by
  intro c b d hrun
  rw [pure_apply] at hrun
  cases hrun
  exact h

theorem bind (hx : Yields x P) (hf : ∀ a, P a → Yields (f a) Q) : Yields (x >>= f) Q := by
  intro c b d hrun
  rcases h : x c with ⟨e | a, c'⟩
  · rw [bind_of_error h] at hrun
    cases hrun
  · rw [bind_of_ok h] at hrun
    exact hf a (hx h) hrun

/-- Of what comes first nothing has to be known. -/
theorem after (hf : ∀ a, Yields (f a) Q) : Yields (x >>= f) Q :=
  bind (P := fun _ => True) (fun _ _ _ _ => trivial) fun a _ => hf a

theorem map {g : α → β} (hx : Yields x P) (h : ∀ a, P a → Q (g a)) :
    Yields (do return g (← x)) Q :=
  hx.bind fun a ha => pure (h a ha)

theorem imp (hx : Yields x P) (h : ∀ a, P a → P' a) : Yields x P' := fun _ _ _ hrun => h _ (hx hrun)

theorem fail {e : Failure} : Yields (fail e) P := by
  intro c a d hrun
  cases hrun

theorem reject {e : DecodingError} : Yields (reject e) P := fail

theorem ite {p : Prop} [Decidable p] (hx : p → Yields x P) (hy : ¬p → Yields y P) :
    Yields (if p then x else y) P := by
  split
  · exact hx ‹_›
  · exact hy ‹_›

theorem ofExcept {r : Except DecodingError α} (h : ∀ a, r = .ok a → P a) :
    Yields (ofExcept r) P := by
  cases r with
  | ok a => exact pure (h a rfl)
  | error e => exact reject

theorem token {kind : TokenKind} {read : List UInt8 → Except TokenFault α} {octets : List UInt8}
    (h : ∀ a, read octets = .ok a → P a) : Yields (token kind read octets) P := by
  unfold Decoder.token
  split
  · exact pure (h _ ‹_›)
  · exact reject

theorem attempt (hx : Yields x P) : Yields (attempt x) (fun r => ∀ a, r = .ok a → P a) := by
  intro c r d hrun
  unfold Decoder.attempt at hrun
  rcases h : x c with ⟨e | a, c'⟩
  · cases e <;> simp only [h, Prod.mk.injEq, Except.ok.injEq, reduceCtorEq, false_and] at hrun
    exact hrun.1 ▸ nofun
  · simp only [h, Prod.mk.injEq, Except.ok.injEq] at hrun
    rw [← hrun.1]
    rintro b ⟨⟩
    exact hx h

theorem many {more : Decoder Bool} (hx : Yields x P) : Yields (many more x) (∀ a ∈ ·, P a) := by
  refine after fun limit => ?_
  generalize limit + 1 = limit
  induction limit with
  | zero => exact pure (by simp)
  | succ limit ih =>
    refine after fun more => ite (fun _ => ?_) fun _ => pure (by simp)
    exact hx.bind fun a ha => ih.bind fun as has => pure (by simpa using ⟨ha, has⟩)

theorem oneOrMore {more : Decoder Bool} (hx : Yields x P) :
    Yields (oneOrMore more x) (∀ a ∈ ·.toList, P a) :=
  hx.bind fun a ha => hx.many.bind fun as has => pure (by simpa [OneOrMore.toList] using ⟨ha, has⟩)

/-- The octet that is consumed is the one that was looked at. -/
theorem takeWhileUpTo {p : UInt8 → Bool} (limit : Nat) :
    Yields (takeWhileUpTo p limit) (∀ b ∈ ·, p b = true) := by
  induction limit with
  | zero => exact pure (by simp)
  | succ limit ih =>
    refine after fun consumed => ite (fun _ => pure (by simp)) fun _ => ?_
    intro c bs d hrun
    cases hc : c.peek with
    | error e =>
      have hpeek : peek c = (.error (.io e), c) := by rw [peek, hc]; rfl
      rw [bind_of_error hpeek] at hrun
      cases hrun
    | ok b =>
      have hpeek : peek c = (.ok b, c) := by rw [peek, hc]; rfl
      have hconsume : consume c = (.ok b, c.advance 1) := by
        rw [consume, Cursor.consume, hc]
        rfl
      rw [bind_of_ok hpeek] at hrun
      by_cases hb : p b = true
      · rw [if_pos hb, bind_of_ok hconsume] at hrun
        exact ih.bind (fun bs hbs => pure (P := (∀ b ∈ ·, p b = true)) (by simpa using ⟨hb, hbs⟩))
          hrun
      · rw [if_neg hb] at hrun
        exact pure (P := (∀ b ∈ ·, p b = true)) (by simp) hrun

theorem takeWhile {p : UInt8 → Bool} : Yields (takeWhile p) (∀ b ∈ ·, p b = true) :=
  after fun limit => takeWhileUpTo limit

theorem takeWhile1 {p : UInt8 → Bool} {expected : String} :
    Yields (takeWhile1 p expected) (fun bs => bs ≠ [] ∧ ∀ b ∈ bs, p b = true) :=
  takeWhile.bind fun _ hbs => ite (fun _ => after fun _ => reject) fun hne =>
    pure ⟨by simpa using hne, hbs⟩

end Yields

end Decoder

end ImapRequest
