import ImapRequest.Proofs.Lenient.Basic

/-!
# Decoders that accept more

A decoder *relaxes* another one when it does whatever the other one does not reject, and reads
nothing that the other one does not read once it is tidied.  What relaxes is kept by `do` and by
repetition; a decoder that looks at the next octet has to end, or to read nothing, where it sees a
space or a line break, since there may be a line break in its place.

* `Decoder.Relaxes` : a decoder and one that accepts more;
* `Decoder.Relaxes.bind`, `Decoder.Relaxes.look`, `Decoder.Relaxes.many` : how they are put
  together;
* `Decoder.Refrains` : a decoder that reads nothing that starts with a space or a line break;
* `Decoder.literalOctets_relaxes`, `Decoder.astring_relaxes` : strings.
-/

namespace ImapRequest

open Sent

namespace Octet

/-- The octets of a class without spaces and line breaks. -/
theorem not_isLineBreak_of_class {p : UInt8 → Bool} (hp : ∀ b, isBlank b = true → p b = false)
    {b : UInt8} (hb : p b = true) : isLineBreak b = false := by
  refine Bool.eq_false_iff.2 fun hbreak => ?_
  simp [hp b (isBlank_of_isLineBreak hbreak)] at hb

/-- A given octet that is neither a space nor of a line break does not come in their place. -/
theorem ite_of_isBlank {γ : Type} {b expected : UInt8} (hb : isBlank b = true)
    (hexpected : isBlank expected = false) (x y : γ) : (if b == expected then x else y) = y := by
  refine if_neg fun h => ?_
  obtain rfl : b = expected := by simpa using h
  simp [hb] at hexpected

end Octet

namespace Decoder

variable {α β : Type}

/-- The second decoder accepts more than the first one, and nothing that the first one does not
accept once it is tidied. -/
structure Relaxes (trims : α → Prop) (x y : Decoder α) : Prop where
  strict_forward : Forward x
  loose_forward : Forward y
  keeps : Keeps x y
  tidiesAt : ∀ c : Cursor, c.Steady → TidiesAt trims x y c

/-- Where `b` is the next octet, the decoders do what such decoders do. -/
def RelaxesOn (trims : α → Prop) (b : UInt8) (x y : Decoder α) : Prop :=
  ∃ x' y', Relaxes trims x' y' ∧ ∀ c : Cursor, c.peek = .ok b → x c = x' c ∧ y c = y' c

/-- Nothing is read that starts with a space or a line break. -/
def Refrains (x : Decoder α) : Prop :=
  ∀ (c : Cursor) (b : UInt8), c.Steady → c.rest.head? = some b → Octet.isBlank b = true →
    ∀ a e, x c ≠ (.ok a, e)

namespace Refrains

variable {x : Decoder α} {f : α → Decoder β} {g : UInt8 → Decoder α}

theorem reject (e : DecodingError) : Refrains (reject e : Decoder α) := by
  intro c b _ _ _ a d hrun
  simp [Decoder.reject, fail] at hrun

theorem bind (hx : Refrains x) (f : α → Decoder β) : Refrains (x >>= f) := by
  intro c b hc hhead hb a e hrun
  obtain ⟨a', d, hy, -⟩ := exists_of_bind hrun
  exact hx c b hc hhead hb a' d hy

theorem look (h : ∀ b, Octet.isBlank b = true → Refrains (g b)) : Refrains (peek >>= g) := by
  intro c b hc hhead hb a e hrun
  obtain ⟨s, hrest⟩ := List.head?_eq_some_iff.1 hhead
  rw [bind_of_ok (peek_of_rest hc hrest)] at hrun
  exact h b hb c b hc hhead hb a e hrun

theorem takeWhile1 {p : UInt8 → Bool} (hp : ∀ b, Octet.isBlank b = true → p b = false)
    (expected : String) : Refrains (takeWhile1 p expected) := by
  intro c b hc hhead hb a e hrun
  obtain ⟨s, hrest⟩ := List.head?_eq_some_iff.1 hhead
  have hnone : takeWhile p c = (.ok [], c) :=
    takeWhile_of_rest hc (w := []) rfl (by simp) (by simpa [hrest] using hp b hb)
  rw [Decoder.takeWhile1, bind_of_ok hnone] at hrun
  change (peek >>= fun next => unexpected next expected) c = _ at hrun
  rw [bind_of_ok (peek_of_rest hc hrest)] at hrun
  simp [unexpected, Decoder.reject, fail] at hrun

theorem keyword : Refrains keyword :=
  (takeWhile1 (Octet.not_of_isBlank rfl rfl rfl) _).bind _

end Refrains

namespace Relaxes

variable {trims : α → Prop} {x y x' y' : Decoder α}

/-! ### How relaxed decoders are put together -/

/-- A decoder that accepts nothing beyond the grammar. -/
theorem self (hx : Forward x) (h : ∀ c : Cursor, c.Steady → TidiesAt trims x x c) :
    Relaxes trims x x :=
  ⟨hx, hx, .refl x, h⟩

theorem pure (a : α) : Relaxes trims (pure a) (pure a) := self (.pure a) fun c _ => .pure a c

theorem reject (e : DecodingError) : Relaxes trims (reject e) (reject e) :=
  self (.reject e) fun c _ => .reject e c

theorem ofExcept (r : Except DecodingError α) : Relaxes trims (ofExcept r) (ofExcept r) :=
  self (.ofExcept r) fun c _ => .ofExcept r c

theorem bind {trims : β → Prop} {f g : α → Decoder β} (hx : Relaxes (fun _ => False) x y)
    (hf : ∀ a, Relaxes trims (f a) (g a)) : Relaxes trims (x >>= f) (y >>= g) where
  strict_forward := hx.strict_forward.bind fun a => (hf a).strict_forward
  loose_forward := hx.loose_forward.bind fun a => (hf a).loose_forward
  keeps := hx.keeps.bind fun a => (hf a).keeps
  tidiesAt c hc := (hx.tidiesAt c hc).bind hc fun a d hd _ => (hf a).tidiesAt d hd

theorem map {trims : β → Prop} (f : α → β) (hx : Relaxes (fun a => trims (f a)) x y) :
    Relaxes trims (do return f (← x)) (do return f (← y)) where
  strict_forward := hx.strict_forward.bind fun _ => .pure _
  loose_forward := hx.loose_forward.bind fun _ => .pure _
  keeps := hx.keeps.bind fun _ => .refl _
  tidiesAt c hc := (hx.tidiesAt c hc).map f

theorem ite {p : Prop} [Decidable p] (hx : Relaxes trims x y) (hx' : Relaxes trims x' y') :
    Relaxes trims (if p then x else x') (if p then y else y') := by
  split
  · exact hx
  · exact hx'

theorem many {more more' : Decoder Bool} {trims : List α → Prop} (hadvances : Advances more)
    (hadvances' : Advances more') (hmore : Relaxes (fun _ => False) more more')
    (hx : Relaxes (fun _ => False) x y) : Relaxes trims (many more x) (many more' y) where
  strict_forward := .many hmore.strict_forward hx.strict_forward
  loose_forward := .many hmore.loose_forward hx.loose_forward
  keeps := hmore.keeps.many hx.keeps
  tidiesAt _ hc := .many hadvances hadvances' hmore.strict_forward hmore.loose_forward
    hx.strict_forward hx.loose_forward hmore.tidiesAt hx.tidiesAt _ hc (Nat.lt_succ_self _)

/-! ### Looking at the next octet -/

theorem on (h : Relaxes trims x y) {b : UInt8} : RelaxesOn trims b x y :=
  ⟨x, y, h, fun _ _ => ⟨rfl, rfl⟩⟩

theorem forward_look {f : UInt8 → Decoder α}
    (h : ∀ b, ∃ x, Forward x ∧ ∀ c : Cursor, c.peek = .ok b → f b c = x c) :
    Forward (peek >>= f) := by
  intro c hc
  cases hrest : c.rest with
  | nil =>
    obtain ⟨e, he⟩ := peek_of_nil hrest
    exact ⟨[], by rw [bind_of_error he]; exact .refl c⟩
  | cons b s =>
    obtain ⟨x, hx, heq⟩ := h b
    rw [bind_of_ok (peek_of_rest hc hrest), heq c (Cursor.peek_of_rest hc hrest)]
    exact hx c hc

/-- In front of a space or a line break there is an answer, whichever of them it is. -/
theorem tidiesAt_look_of_blank {f g : UInt8 → Decoder α} {c : Cursor} {b : UInt8} {s : List UInt8}
    (hc : c.Steady) (hrest : c.rest = b :: s) (hb : Octet.isBlank b = true)
    (h : ∀ a e, g b c = (.ok a, e) → e = c ∧ ∀ b', Octet.isBlank b' = true → f b' = Pure.pure a) :
    TidiesAt trims (peek >>= f) (peek >>= g) c := by
  intro a e hrun
  rw [bind_of_ok (peek_of_rest hc hrest)] at hrun
  obtain ⟨rfl, hpure⟩ := h a e hrun
  refine ⟨[], [], .refl e, .tidied .nil, ?_⟩
  rintro _ rfl s' hs c' hc' hrest'
  obtain ⟨b', u, hb', hu⟩ := hs.exists_blank (by rw [hrest]; rfl) hb
  have hpeek : peek c' = (.ok b', c') := peek_of_rest hc'.steady (hrest'.trans hu)
  rw [bind_of_ok hpeek, hpure b' hb']
  rfl

/-- In front of another octet the same octet is looked at once the others are tidied. -/
theorem tidiesAt_look_of_not {f g : UInt8 → Decoder α} {c : Cursor} {b : UInt8} {s : List UInt8}
    (hc : c.Steady) (hrest : c.rest = b :: s) (hb : Octet.isBlank b = false)
    (h : RelaxesOn trims b (f b) (g b)) : TidiesAt trims (peek >>= f) (peek >>= g) c := by
  intro a e hrun
  obtain ⟨x, y, hrel, heq⟩ := h
  rw [bind_of_ok (peek_of_rest hc hrest), (heq c (Cursor.peek_of_rest hc hrest)).2] at hrun
  obtain ⟨w, t, hw, htrimmed, hread⟩ := hrel.tidiesAt c hc a e hrun
  refine ⟨w, t, hw, htrimmed, ?_⟩
  rintro _ rfl s' hs c' hc' hrest'
  have hfollows := htrimmed.follows hs
  rw [← hw.rest_eq, hrest] at hfollows
  obtain ⟨u, hu⟩ := hfollows.exists_cons rfl hb
  have hpeek : c'.peek = .ok b := Cursor.peek_of_rest hc'.steady (hrest'.trans hu)
  rw [bind_of_ok (peek_of_peek hpeek), (heq c' hpeek).1]
  exact hread _ rfl s' hs c' hc' hrest'

/-- A decoder that looks at the next octet, and either ends at a space or a line break with an
answer of its own or reads nothing there. -/
theorem look_of {f g : UInt8 → Decoder α} (h : ∀ b, RelaxesOn trims b (f b) (g b))
    (hblank : ∀ (b : UInt8) (c : Cursor) a e, Octet.isBlank b = true → c.Steady →
      c.rest.head? = some b → g b c = (.ok a, e) →
        e = c ∧ ∀ b', Octet.isBlank b' = true → f b' = Pure.pure a) :
    Relaxes trims (peek >>= f) (peek >>= g) where
  strict_forward := forward_look fun b => by
    obtain ⟨x, y, hrel, heq⟩ := h b
    exact ⟨x, hrel.strict_forward, fun c hc => (heq c hc).1⟩
  loose_forward := forward_look fun b => by
    obtain ⟨x, y, hrel, heq⟩ := h b
    exact ⟨y, hrel.loose_forward, fun c hc => (heq c hc).2⟩
  keeps := .look fun b => by
    obtain ⟨x, y, hrel, heq⟩ := h b
    exact ⟨x, y, hrel.keeps, heq⟩
  tidiesAt c hc := by
    cases hrest : c.rest with
    | nil =>
      obtain ⟨io, hio⟩ := peek_of_nil hrest
      exact .of_error fun a e hrun => by simp [bind_of_error hio] at hrun
    | cons b s =>
      cases hb : Octet.isBlank b with
      | true =>
        exact tidiesAt_look_of_blank hc hrest hb fun a e hrun =>
          hblank b c a e hb hc (by rw [hrest]; rfl) hrun
      | false => exact tidiesAt_look_of_not hc hrest hb (h b)

/-- A decoder that reads nothing in front of a space or a line break. -/
theorem look {f g : UInt8 → Decoder α} (h : ∀ b, RelaxesOn trims b (f b) (g b))
    (hrefrains : Refrains (peek >>= g)) : Relaxes trims (peek >>= f) (peek >>= g) := by
  refine look_of h fun b c a e hb hc hhead hrun => ?_
  obtain ⟨s, hrest⟩ := List.head?_eq_some_iff.1 hhead
  exact absurd ((bind_of_ok (peek_of_rest hc hrest)).trans hrun) (hrefrains c b hc hhead hb a e)

/-- A decoder that ends in front of a space or a line break. -/
theorem lookOr {f g : UInt8 → Decoder α} (h : ∀ b, RelaxesOn trims b (f b) (g b)) (a : α)
    (hblank : ∀ b, Octet.isBlank b = true → f b = Pure.pure a ∧ g b = Pure.pure a) :
    Relaxes trims (peek >>= f) (peek >>= g) := by
  refine look_of h fun b c a' e hb _ _ hrun => ?_
  rw [(hblank b hb).2, pure_apply] at hrun
  obtain ⟨rfl, rfl⟩ : a = a' ∧ c = e := by simpa using hrun
  exact ⟨rfl, fun b' hb' => (hblank b' hb').1⟩

end Relaxes

namespace RelaxesOn

variable {trims : α → Prop} {b : UInt8} {x y x' y' : Decoder α}

/-- One branch for a given octet. -/
theorem ite {expected : UInt8} (hx : b = expected → RelaxesOn trims b x y)
    (hx' : RelaxesOn trims b x' y') :
    RelaxesOn trims b (if b == expected then x else x') (if b == expected then y else y') := by
  by_cases h : b = expected
  · rw [if_pos (by simpa using h), if_pos (by simpa using h)]
    exact hx h
  · rw [if_neg (by simpa using h), if_neg (by simpa using h)]
    exact hx'

end RelaxesOn

section

variable {trims : α → Prop}

/-- What reads some octets, if it ends where a list of them ends. -/
theorem Reads.of_run {x : Decoder α} {w : List UInt8} {F : List UInt8 → Prop} {a : α}
    (h : ∀ (c : Cursor) (s : List UInt8), c.Steady → c.rest = w ++ s → F s →
      x c = (.ok a, c.advance w.length)) : Reads x {plain w} F a := by
  rintro _ rfl s hs c hc hrest
  rw [octets_plain] at hrest
  rw [h c s hc.steady hrest hs, Cursor.after_plain]

/-! ### Octets and runs of octets -/

theorem expect_relaxes {trims : Unit → Prop} {b : UInt8} (hb : Octet.isLineBreak b = false) :
    Relaxes trims (expect b) (expect b) := by
  refine .self (.expect b) fun c hc => .of_reads fun u e hrun => ?_
  obtain ⟨s, hrest, rfl⟩ := rest_of_expect hc hrun
  exact ⟨[b], s, hrest, rfl, by simpa using hb, (expect_reads b).anywhere⟩

/-- An octet that was seen is consumed. -/
theorem RelaxesOn.consume {b : UInt8} {x y : Decoder α} (hb : Octet.isLineBreak b = false)
    (h : Relaxes trims x y) :
    RelaxesOn trims b (do let _ ← consume; x) (do let _ ← consume; y) := by
  refine ⟨_, _, (expect_relaxes hb).bind fun _ => h, fun c hc => ?_⟩
  rw [bind_of_ok (consume_of_peek hc), bind_of_ok (consume_of_peek hc),
    bind_of_ok (expect_of_peek hc), bind_of_ok (expect_of_peek hc)]
  exact ⟨rfl, rfl⟩

/-- A space that was read stood there. -/
theorem rest_of_sp {c e : Cursor} (hc : c.Steady) {u : Unit} (h : sp c = (.ok u, e)) :
    ∃ s, c.rest = Octet.sp :: s ∧ e = c.advance 1 := by
  obtain ⟨-, b, s, hrest, h⟩ := exists_of_look h
  split at h
  · rename_i hb
    rw [bind_of_ok (consume_of_rest hc hrest), pure_apply] at h
    exact ⟨s, by rw [hrest, beq_iff_eq.1 hb], (congrArg Prod.snd h).symm⟩
  · simp [unexpected, reject, fail] at h

theorem sp_forward : Forward sp :=
  Forward.peek.bind fun _ => .ite (Forward.consume.bind fun _ => .pure _) (.reject _)

theorem sp_relaxes {trims : Unit → Prop} : Relaxes trims sp sp := by
  refine .self sp_forward fun c hc => .of_reads fun u e hrun => ?_
  obtain ⟨s, hrest, rfl⟩ := rest_of_sp hc hrun
  exact ⟨[Octet.sp], s, hrest, rfl, List.forall_mem_singleton.2 rfl, sp_reads.anywhere⟩

theorem nextIs_forward (b : UInt8) : Forward (nextIs b) :=
  Forward.isConsumed.bind fun _ => .ite (.pure _) (Forward.peek.bind fun _ => .pure _)

theorem nextIs_relaxes {trims : Bool → Prop} {b : UInt8} (hb : Octet.isBlank b = false) :
    Relaxes trims (nextIs b) (nextIs b) := by
  refine .self (nextIs_forward b) fun c hc => .of_reads fun t e hrun => ?_
  rw [nextIs_apply hc] at hrun
  obtain ⟨rfl, rfl⟩ : (c.rest.head? == some b) = t ∧ c = e := by simpa using hrun
  refine ⟨[], c.rest, rfl, rfl, by simp, .of_run fun d s hd hrest hs => ?_⟩
  -- Neither a space nor a line break is the given octet.
  have hsame : (s.head? == some b) = (c.rest.head? == some b) := by
    rcases hs with hs | ⟨⟨b₁, hb₁, hblank⟩, b₂, hb₂, hbreak⟩
    · rw [hs]
    · have h₁ : b₁ ≠ b := by
        rintro rfl
        simp [hb] at hblank
      have h₂ : b₂ ≠ b := by
        rintro rfl
        simp [Octet.isBlank_of_isLineBreak hbreak] at hb
      rw [Option.mem_def.1 hb₁, Option.mem_def.1 hb₂]
      simp [h₁, h₂]
  rw [nextIs_apply hd, hrest, List.nil_append, hsame]
  rfl

theorem listContinues_relaxes {trims : Bool → Prop} :
    Relaxes trims listContinues listContinues := by
  have hforward : Forward listContinues :=
    (show Inline 0 {} listContinues from listContinues_inline).forward
  refine .self hforward fun c hc => .of_reads fun t e hrun => ?_
  obtain ⟨-, b, s, hrest, hrun⟩ := exists_of_look hrun
  split at hrun
  · rename_i hb
    rw [bind_of_ok (consume_of_rest hc hrest), pure_apply] at hrun
    obtain ⟨rfl, rfl⟩ : true = t ∧ c.advance 1 = e := by simpa using hrun
    obtain rfl : b = Octet.sp := by simpa using hb
    exact ⟨[Octet.sp], s, hrest, rfl, List.forall_mem_singleton.2 rfl,
      listContinues_reads_sp.anywhere⟩
  split at hrun
  · rename_i hb
    rw [bind_of_ok (consume_of_rest hc hrest), pure_apply] at hrun
    obtain ⟨rfl, rfl⟩ : false = t ∧ c.advance 1 = e := by simpa using hrun
    obtain rfl : b = Octet.rparen := by simpa using hb
    exact ⟨[Octet.rparen], s, hrest, rfl, List.forall_mem_singleton.2 rfl,
      listContinues_reads_rparen.anywhere⟩
  · simp [unexpected, reject, fail] at hrun

theorem oneOrMore_relaxes {trims : OneOrMore α → Prop} {more : Decoder Bool} {x y : Decoder α}
    (hadvances : Advances more) (hmore : Relaxes (fun _ => False) more more)
    (hx : Relaxes (fun _ => False) x y) :
    Relaxes trims (oneOrMore more x) (oneOrMore more y) :=
  hx.bind fun _ => (Relaxes.many hadvances hadvances hmore hx).bind fun _ => .pure _

theorem takeWhile_relaxes {trims : List UInt8 → Prop} {p : UInt8 → Bool}
    (hp : ∀ b, Octet.isBlank b = true → p b = false) :
    Relaxes trims (takeWhile p) (takeWhile p) := by
  refine .self (.takeWhile p) fun c hc => .of_reads fun bs e hrun => ?_
  obtain ⟨w, s, hrest, hw, hs⟩ := exists_run p c.rest
  rw [takeWhile_of_rest hc hrest hw hs] at hrun
  obtain ⟨rfl, rfl⟩ : w = bs ∧ c.advance w.length = e := by simpa using hrun
  exact ⟨w, s, hrest, rfl, fun b hb => Octet.not_isLineBreak_of_class hp (hw b hb),
    (takeWhile_reads (List.all_eq_true.2 hw)).imp fun s' hs' => hs'.stops hp hs⟩

/-- A decoder that has seen what it does not expect. -/
theorem peekUnexpected_relaxes (expected : String) :
    Relaxes trims (do unexpected (← peek) expected) (do unexpected (← peek) expected) := by
  refine .self (Forward.peek.bind fun _ => .reject _) fun c _ => .of_error fun a e hrun => ?_
  rw [bind_apply] at hrun
  split at hrun <;> simp [unexpected, reject, fail] at hrun

theorem takeWhile1_relaxes {trims : List UInt8 → Prop} {p : UInt8 → Bool}
    (hp : ∀ b, Octet.isBlank b = true → p b = false) (expected : String) :
    Relaxes trims (takeWhile1 p expected) (takeWhile1 p expected) :=
  (takeWhile_relaxes hp).bind fun _ => .ite (peekUnexpected_relaxes expected) (.pure _)

theorem keyword_relaxes {trims : String → Prop} : Relaxes trims keyword keyword :=
  .map _ (takeWhile1_relaxes (Octet.not_of_isBlank rfl rfl rfl) _)

theorem token_relaxes (kind : TokenKind) (read : List UInt8 → Except TokenFault α)
    (octets : List UInt8) : Relaxes trims (token kind read octets) (token kind read octets) := by
  unfold token
  split
  · exact .pure _
  · exact .reject _

/-! ### Numbers -/

theorem number_relaxes {trims : Nat → Prop} : Relaxes trims number number := by
  have hforward : Forward number := (show Inline 0 {} number from number_inline).forward
  refine .self hforward fun c hc => .of_reads fun n e hrun => ?_
  rw [number] at hrun
  obtain ⟨m, d, hdigits, hrun⟩ := exists_of_bind hrun
  obtain ⟨ds, s, hrest, hds, rfl⟩ := rest_of_digits hc hdigits
  have hd : (c.advance ds.length).Steady := hc.advance ds.length
  have hrest' : (c.advance ds.length).rest = s := Cursor.rest_advance_append hrest
  rw [bind_of_ok (isConsumed_apply hd), hrest'] at hrun
  -- The number ends the octets, or an octet that may follow a number does.
  have hend : n = m ∧ e = c.advance ds.length ∧ NumberEnds s := by
    cases s with
    | nil =>
      obtain ⟨rfl, rfl⟩ : m = n ∧ c.advance ds.length = e := by simpa [pure_apply] using hrun
      exact ⟨rfl, rfl, by simp [NumberEnds]⟩
    | cons b s =>
      simp only [List.isEmpty_cons, Bool.false_eq_true, ↓reduceIte] at hrun
      rw [bind_of_ok (peek_of_rest hd hrest')] at hrun
      split at hrun
      · rename_i hb
        obtain ⟨rfl, rfl⟩ : m = n ∧ c.advance ds.length = e := by simpa [pure_apply] using hrun
        exact ⟨rfl, rfl, by simpa [NumberEnds] using hb⟩
      · simp [unexpected, reject, fail] at hrun
  obtain ⟨rfl, rfl, hs⟩ := hend
  refine ⟨ds, s, hrest, rfl, fun b hb => ?_, ?_⟩
  · exact Octet.not_isLineBreak_of_class (Octet.not_of_isBlank rfl rfl rfl)
      (List.all_eq_true.1 hds.all_isDigit b hb)
  · refine ((number_reads n).of_mem ⟨ds, hds, rfl⟩).imp fun s' hs' b hb => ?_
    rcases hs' with hs' | ⟨-, b', hb', hbreak⟩
    · exact hs b (hs' ▸ hb)
    · obtain rfl : b' = b := Option.some.inj (hb'.symm.trans hb)
      simp only [Octet.isLineBreak, Bool.or_eq_true, beq_iff_eq] at hbreak
      rcases hbreak with rfl | rfl <;> rfl

theorem positive_relaxes {trims : Nat → Prop} : Relaxes trims positive positive :=
  number_relaxes.bind fun _ => .ite (.reject _) (.pure _)

/-! ### Quoted strings -/

theorem quotedToken_forward : Forward quotedToken :=
  (Forward.expect _).bind fun _ => (Forward.takeWhile _).bind fun _ =>
    (Forward.expect _).bind fun _ => .pure _

/-- Spaces may stand between the quotes, but what ends the token is a quote. -/
theorem quotedToken_relaxes {trims : List UInt8 → Prop} :
    Relaxes trims quotedToken quotedToken := by
  refine .self quotedToken_forward fun c hc => .of_reads fun bs e hrun => ?_
  rw [quotedToken] at hrun
  obtain ⟨_, d, hopen, hrun⟩ := exists_of_bind hrun
  obtain ⟨s, hrest, rfl⟩ := rest_of_expect hc hopen
  obtain ⟨w, s', rfl, hw, hs'⟩ := exists_run Octet.isUnquoted s
  have hd : (c.advance 1).Steady := hc.advance 1
  have hrest₁ : (c.advance 1).rest = w ++ s' := by rw [Cursor.rest_advance, hrest]; rfl
  change (takeWhile Octet.isUnquoted >>= _) _ = _ at hrun
  rw [bind_of_ok (takeWhile_of_rest hd hrest₁ hw hs')] at hrun
  have hd' : ((c.advance 1).advance w.length).Steady := hd.advance _
  obtain ⟨_, d, hclose, hrun⟩ := exists_of_bind hrun
  obtain ⟨t, hrest₂, rfl⟩ := rest_of_expect hd' hclose
  obtain ⟨rfl, rfl⟩ : w = bs ∧ ((c.advance 1).advance w.length).advance 1 = e := by
    simpa [pure_apply] using hrun
  obtain rfl : s' = Octet.quote :: t := by
    rwa [Cursor.rest_advance, hrest₁, List.drop_left] at hrest₂
  refine ⟨Octet.quote :: (w ++ [Octet.quote]), t, by rw [hrest]; simp, ?_, fun b hb => ?_,
    (quotedToken_reads (List.all_eq_true.2 hw)).anywhere⟩
  · rw [Cursor.advance_advance, Cursor.advance_advance]
    simp [Nat.add_comm]
  · rw [List.mem_cons, List.mem_append, List.mem_singleton] at hb
    rcases hb with rfl | hb | rfl
    · rfl
    · have hunquoted := hw b hb
      simp only [Octet.isUnquoted, Bool.and_eq_true, Bool.not_eq_true'] at hunquoted
      exact hunquoted.2
    · rfl

theorem quotedItem_tidiesAt {trims : Option UInt8 → Prop} {c : Cursor} (hc : c.Steady) :
    TidiesAt trims quotedItem quotedItem c := by
  refine .of_reads fun item e hrun => ?_
  cases hrest : c.rest with
  | nil =>
    obtain ⟨io, hio⟩ := quotedItem_of_nil hrest
    simp [hio] at hrun
  | cons b s =>
    by_cases hquote : b = Octet.quote
    · subst hquote
      rw [quotedItem_of_quote hc hrest] at hrun
      obtain ⟨rfl, rfl⟩ : none = item ∧ c.advance 1 = e := by simpa using hrun
      exact ⟨[Octet.quote], s, rfl, rfl, List.forall_mem_singleton.2 rfl,
        .of_run fun d t hd hrest _ => quotedItem_of_quote hd hrest⟩
    by_cases hbackslash : b = Octet.backslash
    · subst hbackslash
      cases s with
      | nil =>
        obtain ⟨io, hio⟩ := quotedItem_of_backslash hc hrest
        simp [hio] at hrun
      | cons b s =>
        cases hb : Octet.isQuotedSpecial b with
        | false => simp [quotedItem_of_bad_escape hc hrest hb] at hrun
        | true =>
          rw [quotedItem_of_escape hc hrest hb] at hrun
          obtain ⟨rfl, rfl⟩ : some b = item ∧ c.advance 2 = e := by simpa using hrun
          refine ⟨[Octet.backslash, b], s, rfl, rfl, ?_,
            .of_run fun d t hd hrest _ => quotedItem_of_escape hd hrest hb⟩
          have hplain : Octet.isLineBreak b = false :=
            Octet.not_isLineBreak_of_class (Octet.not_of_isBlank rfl rfl rfl) hb
          have hbackslash : Octet.isLineBreak Octet.backslash = false := rfl
          simp [hplain, hbackslash]
    by_cases hbreak : Octet.isLineBreak b = true ∨ b = 0
    · simp [quotedItem_of_break hc hrest hbreak] at hrun
    · have hplain := isQuotedPlain_of_not hquote hbackslash hbreak
      rw [quotedItem_of_plain hc hrest hplain] at hrun
      obtain ⟨rfl, rfl⟩ : some b = item ∧ c.advance 1 = e := by simpa using hrun
      refine ⟨[b], s, rfl, rfl, ?_,
        .of_run fun d t hd hrest _ => quotedItem_of_plain hd hrest hplain⟩
      simpa using fun h => hbreak (Or.inl h)

/-- By induction on the octets that are left: what follows an item has fewer of them. -/
theorem quotedRest_tidiesAt {trims : String → Prop} (n : Nat) : ∀ {c : Cursor} (d : TextDecoder)
    (piece : List UInt8), c.Steady → c.rest.length < n →
    TidiesAt trims (quotedRest d piece) (quotedRest d piece) c := by
  induction n with
  | zero => intro c d piece _ hn; exact absurd hn (Nat.not_lt_zero _)
  | succ n ih =>
    intro c d piece hc hn
    refine .congr hc (fun c hc => quotedRest_apply hc d piece)
      (fun c hc => quotedRest_apply hc d piece) ?_
    refine (quotedItem_tidiesAt hc).bind hc fun item e he hrun => ?_
    cases item with
    | none => exact (TidiesAt.ofExcept _ e).bind he fun _ e _ _ => .pure _ e
    | some b =>
      have hlt : e.rest.length < c.rest.length := length_lt_of_quotedItem hc hrun
      refine .ite ((TidiesAt.ofExcept _ e).bind he fun d' e' he' hfeed => ?_) (ih _ _ he (by omega))
      have hle : e'.rest.length ≤ e.rest.length := (Forward.ofExcept _).length_le_of_run he hfeed
      exact ih d' [] he' (by omega)

theorem quoted_relaxes {trims : String → Prop} (charset : Charset) :
    Relaxes trims (quoted charset) (quoted charset) :=
  (expect_relaxes rfl).bind fun _ =>
    .self (Forward.bound.bind fun _ => .quotedUpTo _ _ _)
      fun _ hc => quotedRest_tidiesAt _ _ _ hc (Nat.lt_succ_self _)

/-! ### Literals -/

/-- The data of a literal that was read stood there. -/
theorem rest_of_literalData {c e : Cursor} (hc : c.Steady) {n : Nat} {data : List UInt8}
    (h : literalData n c = (.ok data, e)) :
    ∃ s, c.rest = data ++ s ∧ data.length = n ∧ data.all Octet.isChar8 = true ∧
      e = c.advance data.length := by
  by_cases hn : n ≤ c.rest.length
  · have hlen : (c.rest.take n).length = n := List.length_take_of_le hn
    have hsplit := (List.take_append_drop n c.rest).symm
    rw [← hlen] at h
    rcases literalData_apply hc hsplit with ⟨hnul, hrun⟩ | ⟨i, -, hrun⟩ <;> rw [hrun] at h
    · obtain ⟨⟨rfl⟩, rfl⟩ := Prod.mk.inj h
      refine ⟨_, hsplit, hlen, List.all_eq_true.2 fun b hb => ?_, rfl⟩
      exact bne_iff_ne.2 fun hzero => hnul (hzero ▸ hb)
    · simp at h
  · obtain ⟨io, k, -, hio⟩ := literalData_of_lt hc (Nat.not_le.1 hn)
    simp [hio] at h

/-- An announcement that was read, and the data behind it. -/
theorem rest_of_literalOctets (ctx : Context) {c e : Cursor} (hc : c.Steady) {data : List UInt8}
    (h : literalOctets ctx c = (.ok data, e)) :
    ∃ mode w, Announces ctx.maxLiteral ctx.leniency mode data.length w ∧ c.Reaches (w ++ data) e ∧
      data.all Octet.isChar8 = true := by
  rw [literalOctets_eq] at h
  obtain ⟨⟨n, mode⟩, d, hrun, h⟩ := exists_of_bind h
  obtain ⟨w, hw, hreaches, -⟩ := announces_of_announcement ctx hc hrun
  have hd : d.Steady := hreaches.steady hc
  -- Asking for the data moves nothing.
  obtain ⟨d', hd', hdata⟩ : ∃ d', d.Reaches [] d' ∧ literalData n d' = (.ok data, e) := by
    cases mode with
    | atOnce => exact ⟨d, .refl d, h⟩
    | onRequest =>
      rcases request_eq d with hask | hask
      · exact ⟨d.asked, .asked d, (bind_of_ok hask).symm.trans h⟩
      · exact absurd ((bind_of_error hask).symm.trans h) (by simp)
  obtain ⟨s, hrest, rfl, hall, rfl⟩ := rest_of_literalData (hd'.steady hd) hdata
  refine ⟨mode, w, hw, ?_, hall⟩
  simpa using (hreaches.trans hd').trans (.front hrest)

theorem literalOctets_relaxes {trims : List UInt8 → Prop} {ctx ctx' : Context}
    (hlimit : ctx'.maxLiteral = ctx.maxLiteral) (hleniency : ctx.leniency.Within ctx'.leniency) :
    Relaxes trims (literalOctets ctx) (literalOctets ctx') where
  strict_forward := .literalOctets ctx
  loose_forward := .literalOctets ctx'
  keeps := .literalOctets hlimit hleniency
  tidiesAt := by
    intro c hc data e hrun
    obtain ⟨mode, w, hw, hreaches, hall⟩ := rest_of_literalOctets ctx' hc hrun
    obtain ⟨ds, brk, rfl, hds, hbrk⟩ := hw.exists_eq
    obtain ⟨tail, htail, rfl⟩ := hbrk.exists_tail
    have ht : plain (mode.announced ds ++ [Octet.cr, Octet.lf]) ++ (mode.pause ++ plain data) ∈
        Written.literal ctx.maxLiteral data :=
      ⟨mode, ds, hds, hlimit ▸ hw.le_limit, hall, rfl⟩
    refine ⟨_, _, hreaches, .tidied ?_, ((literalOctets_reads ctx data).of_mem ht).anywhere⟩
    have htidied := Tidied.literal mode hds htail .nil
    cases mode <;> simpa [LiteralMode.pause, octets] using htidied

end

/-! ### Strings -/

variable {ctx ctx' : Context} {trims : String → Prop}

theorem literal_relaxes (h : ctx.Loosens ctx') : Relaxes trims (literal ctx) (literal ctx') := by
  rw [literal, literal, h.charset_eq]
  exact (literalOctets_relaxes h.maxLiteral_eq h.within).bind fun _ => .ofExcept _

theorem wordOrString_relaxes (h : ctx.Loosens ctx') {p : UInt8 → Bool}
    (hp : ∀ b, Octet.isBlank b = true → p b = false) (expected : String) :
    Relaxes trims (wordOrString p expected ctx) (wordOrString p expected ctx') := by
  rw [wordOrString, wordOrString, h.charset_eq]
  refine .look (fun b => .ite (fun _ => (quoted_relaxes _).on) <| .ite
    (fun _ => (literal_relaxes h).on) (Relaxes.on (.map _ (takeWhile1_relaxes hp _))))
    (.look fun b hb => ?_)
  rw [Octet.ite_of_isBlank hb rfl, Octet.ite_of_isBlank hb rfl]
  exact (Refrains.takeWhile1 hp expected).bind _

theorem astring_relaxes (h : ctx.Loosens ctx') : Relaxes trims (astring ctx) (astring ctx') :=
  wordOrString_relaxes h (Octet.not_of_isBlank rfl rfl rfl) _

theorem charset_relaxes (h : ctx.Loosens ctx') {trims : Charset → Prop} :
    Relaxes trims (charset ctx) (charset ctx') := by
  have hascii :
      Context.Loosens { ctx with charset := .usAscii } { ctx' with charset := .usAscii } :=
    ⟨rfl, h.maxLiteral_eq, h.within⟩
  refine (astring_relaxes hascii).bind fun label => ?_
  split
  · exact .pure _
  · exact .reject _

end Decoder

end ImapRequest
