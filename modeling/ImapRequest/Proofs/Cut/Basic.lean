import ImapRequest.Proofs.Arguments
import ImapRequest.Proofs.Yields

/-!
# Decoders on octets that end too early

A decoder has read something from octets, and the same decoder is run on a front of them only.  Most
decoders then fail for lack of octets as soon as the cut is reached.  But the end of input ends a
word as well as any other octet, so a word that the cut splits is read in its shortened form: what
was read may differ (`Decoder.Cut` says how), and where there is no such word, the request is
rejected (`DecodingError.Refuses`).

* `Decoder.Cut` : what a run on a front of the octets can come to;
* `Decoder.Cut.bind`, `Decoder.Cut.many` : sequences and repetition;
* `Decoder.Starved`, `Decoder.Quiet` : decoders that fail, or at least do not reject, without
  octets;
* `Decoder.Cut.takeWhile1`, `Decoder.Cut.quoted`, `Decoder.Cut.literalOctets` : words and strings.
-/

namespace ImapRequest

/-! ### Words that a cut splits -/

/-- A word of a class that is split in front of an octet of the class. -/
structure SplitWord (p : UInt8 → Bool) (w : List UInt8) (next : UInt8) : Prop where
  ne_nil : w ≠ []
  all : ∀ b ∈ w, p b = true
  next : p next = true

/-- The octets `bs` end with some `w`, in front of the octets `more` that start with some `next`. -/
def AtCut (bs more : List UInt8) (P : List UInt8 → UInt8 → Prop) : Prop :=
  ∃ w next, w <:+ bs ∧ more.head? = some next ∧ P w next

theorem AtCut.mono {bs bs' more : List UInt8} {P Q : List UInt8 → UInt8 → Prop}
    (h : AtCut bs more P) (hbs : bs <:+ bs') (hPQ : ∀ w next, P w next → Q w next) :
    AtCut bs' more Q := by
  obtain ⟨w, next, hw, hnext, hP⟩ := h
  exact ⟨w, next, hw.trans hbs, hnext, hPQ w next hP⟩

namespace DecodingError

/-- The octets of the words that an error can be about. -/
def wordClass : DecodingError → UInt8 → Bool
  | unknownCommand _ | unknownSearchKey _ | unknownFetchItem _ | unknownStoreItem _
  | unknownStatusItem _ => Octet.isKeywordChar
  | unknownCharset _ => Octet.isAstringChar
  | zeroNumber => Octet.isDigit
  | invalidToken .sequenceSet _ _ => Octet.isSequenceSetChar
  | invalidToken .bodySection _ _ => BodyElement.isSectionChar
  | invalidToken .date _ _ => Octet.isDateChar
  | _ => fun _ => false

/-- The error is about a given word. -/
def IsAbout (w : List UInt8) : DecodingError → Prop
  | unknownCommand name | unknownSearchKey name | unknownFetchItem name | unknownStoreItem name
  | unknownStatusItem name => name = Octet.toText (w.map Octet.upper)
  | unknownCharset label => label = Octet.toText w
  | zeroNumber => Decimal.value w = 0
  | invalidToken _ token _ => token = w
  | _ => False

/-- The error refuses a word that is split in front of an octet. -/
structure Refuses (error : DecodingError) (w : List UInt8) (next : UInt8) : Prop where
  split : SplitWord error.wordClass w next
  isAbout : error.IsAbout w

end DecodingError

namespace Decoder

variable {α β : Type}

/-! ### Without octets -/

/-- Without octets the decoder fails for lack of them, where it is. -/
def Starved (x : Decoder α) : Prop :=
  ∀ c : Cursor, c.Steady → c.rest = [] → ∃ io, x c = (.error (.io io), c)

/-- Without octets the decoder does not fail but for lack of them. -/
def Quiet (x : Decoder α) : Prop :=
  ∀ (c : Cursor) g d, c.Steady → c.rest = [] → x c = (.error g, d) → ∃ io, g = .io io

theorem Starved.bind {x : Decoder α} (hx : Starved x) (f : α → Decoder β) : Starved (x >>= f) := by
  intro c hc hrest
  obtain ⟨io, h⟩ := hx c hc hrest
  exact ⟨io, bind_of_error h⟩

theorem Starved.quiet {x : Decoder α} (hx : Starved x) : Quiet x := by
  intro c g d hc hrest h
  obtain ⟨io, hio⟩ := hx c hc hrest
  rw [hio] at h
  exact ⟨io, by simpa using (congrArg Prod.fst h).symm⟩

theorem peek_starved : Starved peek := fun _ _ h => peek_of_nil h

theorem consume_starved : Starved consume := fun _ _ h => consume_of_nil h

theorem expect_starved (b : UInt8) : Starved (expect b) := peek_starved.bind _

theorem sp_starved : Starved sp := peek_starved.bind _

theorem eol_starved (leniency : Leniency) : Starved (eol leniency) := peek_starved.bind _

theorem listContinues_starved : Starved listContinues := peek_starved.bind _

namespace Quiet

variable {x y : Decoder α} {f : α → Decoder β}

theorem pure (a : α) : Quiet (pure a) := by
  intro c g d _ _ h
  simp [pure_apply] at h

theorem ite {p : Prop} [Decidable p] (hx : Quiet x) (hy : Quiet y) :
    Quiet (if p then x else y) := by
  split
  · exact hx
  · exact hy

theorem bind (hforward : Forward x) (hx : Quiet x) (hf : ∀ a, Quiet (f a)) : Quiet (x >>= f) := by
  intro c g d hc hrest h
  rcases hrun : x c with ⟨e | a, c'⟩
  · rw [bind_of_error hrun] at h
    obtain ⟨rfl, rfl⟩ : e = g ∧ c' = d := by simpa using h
    exact hx c e c' hc hrest hrun
  · rw [bind_of_ok hrun] at h
    have hlen := hforward.length_le_of_run hc hrun
    rw [hrest] at hlen
    exact hf a c' g d (hforward.steady_of_run hc hrun)
      (List.length_eq_zero_iff.1 (Nat.le_zero.1 hlen)) h

theorem nextIs (b : UInt8) : Quiet (nextIs b) := by
  intro c g d hc _ h
  simp [nextIs_apply hc] at h

theorem map (g : α → β) (hforward : Forward x) (hx : Quiet x) : Quiet (do return g (← x)) :=
  bind hforward hx fun a => pure (g a)

/-- Without octets no element is announced. -/
theorem many {more : Decoder Bool} {element : Decoder α} (hadvances : Advances more)
    (hforward : Forward more) (helement : Forward element) (hmore : Quiet more) :
    Quiet (many more element) := by
  intro c g d hc hrest h
  rw [many_apply hadvances hforward helement hc] at h
  rcases hrun : more c with ⟨e | t, c'⟩
  · rw [bind_of_error hrun] at h
    obtain ⟨rfl, rfl⟩ : e = g ∧ c' = d := by simpa using h
    exact hmore c e c' hc hrest hrun
  · cases t with
    | true => simpa [hrest] using hadvances c c' hc hrun
    | false => simp [bind_of_ok hrun, pure_apply] at h

end Quiet

/-! ### Runs on a front of the octets -/

/-- What a run on a front of the octets comes to where the run on all of them read `a` in front of
`e`: the same is read, at the same place; or something that `short` says is read at the end of the
octets; or the request is rejected there, for a word that the cut splits; or octets are lacking. -/
def CutRun (short : α → α → List UInt8 → UInt8 → Prop) (bs more : List UInt8) (a : α) (e : Cursor) :
    Except Failure α × Cursor → Prop
  | (.ok a', d) => (a' = a ∧ e = d.withRest (d.rest ++ more)) ∨
      (d.rest = [] ∧ AtCut bs more (short a a'))
  | (.error (.rejected error), d) => d.rest = [] ∧ AtCut bs more error.Refuses
  | (.error (.io _), _) => True
  | (.error (.literalTooLarge _ _), _) => False

/-- `CutRun` for every cut of the octets in front of a cursor. -/
def CutAt (short : α → α → List UInt8 → UInt8 → Prop) (x : Decoder α) (c : Cursor) : Prop :=
  ∀ bs more a e, c.rest = bs ++ more → x c = (.ok a, e) →
    CutRun short bs more a e (x (c.withRest bs))

/-- What a decoder reads from a front of the octets from which it read something: `short` relates
what it had read and what it reads, by the word that the cut splits. -/
structure Cut (short : α → α → List UInt8 → UInt8 → Prop) (x : Decoder α) : Prop where
  forward : Forward x
  cutAt : ∀ c : Cursor, c.Steady → CutAt short x c

/-- Nothing is read in a shortened form. -/
def never (_ _ : α) (_ : List UInt8) (_ : UInt8) : Prop := False

/-- Anything may be read where the octets end. -/
def anything (_ _ : α) (_ : List UInt8) (_ : UInt8) : Prop := True

/-- A run of octets that is split, and read in front of the cut only. -/
def shortRun (p : UInt8 → Bool) (w w' v : List UInt8) (next : UInt8) : Prop :=
  (∀ b ∈ v, p b = true) ∧ p next = true ∧ w' = v ∧ ∃ u, w = v ++ u

/-- A word that is split, and read in front of the cut only; `g` is what is made of a word. -/
def shortWord (p : UInt8 → Bool) (g : List UInt8 → α) (a a' : α) (v : List UInt8) (next : UInt8) :
    Prop :=
  SplitWord p v next ∧ a' = g v ∧ ∃ u, a = g (v ++ u)

/-- A number that is split, and read in front of the cut only. -/
def shortNumber (_ n' : Nat) (v : List UInt8) (next : UInt8) : Prop :=
  SplitWord Octet.isDigit v next ∧ n' = Decimal.value v

/-- What a decoder comes to without octets, where a word in front of it was split. -/
def CutTail (short : α → List UInt8 → UInt8 → Prop) (w : List UInt8) (next : UInt8) :
    Except Failure α × Cursor → Prop
  | (.ok a, _) => short a w next
  | (.error (.rejected error), _) => error.Refuses w next
  | (.error (.io _), _) => True
  | (.error (.literalTooLarge _ _), _) => False

namespace CutTail

variable {T : α → List UInt8 → UInt8 → Prop} {w : List UInt8} {next : UInt8} {y : Decoder α}
  {d : Cursor}

theorem of_quiet (hy : Quiet y) (hT : ∀ a, T a w next) (hd : d.Steady) (hrest : d.rest = []) :
    CutTail T w next (y d) := by
  rcases h : y d with ⟨g | a, e⟩
  · obtain ⟨io, rfl⟩ := hy d g e hd hrest h
    trivial
  · exact hT a

theorem of_starved (hy : Starved y) (hd : d.Steady) (hrest : d.rest = []) :
    CutTail T w next (y d) := by
  obtain ⟨io, h⟩ := hy d hd hrest
  rw [h]
  trivial

theorem bind {T' : β → List UInt8 → UInt8 → Prop} {f : α → Decoder β} (hforward : Forward y)
    (hy : CutTail T w next (y d)) (hf : ∀ a, Quiet (f a)) (hT : ∀ b, T' b w next) (hd : d.Steady)
    (hrest : d.rest = []) : CutTail T' w next ((y >>= f) d) := by
  rcases h : y d with ⟨g | a, e⟩ <;> rw [h] at hy
  · rw [bind_of_error h]
    cases g <;> exact hy
  · have hlen := hforward.length_le_of_run hd h
    rw [hrest] at hlen
    rw [bind_of_ok h]
    exact of_quiet (hf a) hT (hforward.steady_of_run hd h)
      (List.length_eq_zero_iff.1 (Nat.le_zero.1 hlen))

/-- A token that is split may be refused in front of the cut. -/
theorem token (kind : TokenKind) (read : List UInt8 → Except TokenFault α)
    (hrefuses : ∀ fault, read w = .error fault →
      (DecodingError.invalidToken kind w fault).Refuses w next) (hT : ∀ a, T a w next) :
    CutTail T w next (token kind read w d) := by
  unfold Decoder.token
  cases h : read w with
  | ok a => exact hT a
  | error fault => exact hrefuses fault h

end CutTail

section

variable {S : α → α → List UInt8 → UInt8 → Prop} {T : β → β → List UInt8 → UInt8 → Prop}
  {x y : Decoder α} {f : α → Decoder β} {c : Cursor}

theorem CutAt.congr (hc : c.Steady) (h : ∀ d : Cursor, d.Steady → x d = y d) (hy : CutAt S y c) :
    CutAt S x c := by
  intro bs more a e hrest hrun
  rw [h _ (hc.withRest _)]
  exact hy bs more a e hrest (by rw [← h c hc, hrun])

/-- In a sequence the cut comes within the first part, or within the second, or the second part has
no octets after a first part that may have been shortened. -/
theorem CutAt.bind (hc : c.Steady) (hforward : Forward x) (hx : CutAt S x c)
    (hfforward : ∀ a, Forward (f a)) (hf : ∀ a d, x c = (.ok a, d) → d.Steady → CutAt T (f a) d)
    (hshort : ∀ a a' w next, S a a' w next → ∀ c b e, c.Steady → f a c = (.ok b, e) →
      ∀ d : Cursor, d.Steady → d.rest = [] → CutTail (T b) w next (f a' d)) :
    CutAt T (x >>= f) c := by
  intro bs more b e hrest hrun
  obtain ⟨a, d, hfull, hrun⟩ := exists_of_bind hrun
  have hd : d.Steady := hforward.steady_of_run hc hfull
  have hfirst := hx bs more a d hrest hfull
  rcases hcut : x (c.withRest bs) with ⟨g | a', d'⟩ <;> rw [hcut] at hfirst
  · rw [bind_of_error hcut]
    cases g <;> exact hfirst
  rw [bind_of_ok hcut]
  have hd' : d'.Steady := hforward.steady_of_run (hc.withRest bs) hcut
  rcases hfirst with ⟨rfl, rfl⟩ | ⟨hnil, w, next, hw, hnext, hS⟩
  · -- The first part was read as before, so the second is cut.
    have hsuffix : d'.rest <:+ bs := by
      obtain ⟨v, hv⟩ := hforward _ (hc.withRest bs)
      rw [hcut] at hv
      exact ⟨v, hv.rest_eq.symm⟩
    have hsecond := hf a' _ hfull hd d'.rest more b e rfl hrun
    rw [Cursor.withRest_withRest, Cursor.withRest_rest] at hsecond
    rcases hrun' : f a' d' with ⟨g | b', e'⟩ <;> rw [hrun'] at hsecond
    · cases g with
      | rejected error => exact hsecond.imp_right fun h => h.mono hsuffix fun _ _ => id
      | io _ => trivial
      | literalTooLarge _ _ => exact hsecond
    · exact hsecond.imp_right fun h => ⟨h.1, h.2.mono hsuffix fun _ _ => id⟩
  · -- The first part was shortened, so no octets are left.
    have htail := hshort a a' w next hS d b e hd hrun d' hd' hnil
    have hend : (f a' d').2.rest = [] := by
      have hlen := (hfforward a').length_le hd'
      rw [hnil] at hlen
      exact List.length_eq_zero_iff.1 (Nat.le_zero.1 hlen)
    rcases hrun' : f a' d' with ⟨g | b', e'⟩ <;> rw [hrun'] at htail hend
    · cases g with
      | rejected error => exact ⟨hend, w, next, hw, hnext, htail⟩
      | io _ => trivial
      | literalTooLarge _ _ => exact htail
    · exact Or.inr ⟨hend, w, next, hw, hnext, htail⟩

namespace Cut

theorem mono {S' : α → α → List UInt8 → UInt8 → Prop} (hx : Cut S x)
    (h : ∀ a a' w next, S a a' w next → S' a a' w next) : Cut S' x := by
  refine ⟨hx.forward, fun c hc bs more a e hrest hrun => ?_⟩
  have hcut := hx.cutAt c hc bs more a e hrest hrun
  rcases hrun' : x (c.withRest bs) with ⟨g | a', d⟩ <;> rw [hrun'] at hcut
  · cases g <;> exact hcut
  · exact hcut.imp_right fun hcut => ⟨hcut.1, hcut.2.mono (List.suffix_refl _) fun _ _ => h _ _ _ _⟩

/-- What is never shortened may as well be anything. -/
theorem of_never (hx : Cut never x) : Cut S x := hx.mono fun _ _ _ _ => False.elim

theorem bind (hx : Cut S x) (hf : ∀ a, Cut T (f a))
    (hshort : ∀ a a' w next, S a a' w next → ∀ c b e, c.Steady → f a c = (.ok b, e) →
      ∀ d : Cursor, d.Steady → d.rest = [] → CutTail (T b) w next (f a' d)) : Cut T (x >>= f) where
  forward := hx.forward.bind fun a => (hf a).forward
  cutAt c hc := (hx.cutAt c hc).bind hc hx.forward (fun a => (hf a).forward)
    (fun a d _ hd => (hf a).cutAt d hd) hshort

/-- The first part is never shortened. -/
theorem bind_never (hx : Cut never x) (hf : ∀ a, Cut T (f a)) : Cut T (x >>= f) :=
  hx.bind hf fun _ _ _ _ h => h.elim

/-- The second part needs octets. -/
theorem bind_starved (hx : Cut S x) (hf : ∀ a, Cut T (f a)) (hstarved : ∀ a, Starved (f a)) :
    Cut T (x >>= f) :=
  hx.bind hf fun _ a' _ _ _ _ _ _ _ _ _ hd hrest => .of_starved (hstarved a') hd hrest

/-- The second part does not reject without octets. -/
theorem bind_quiet (hx : Cut S x) (hf : ∀ a, Cut anything (f a)) (hquiet : ∀ a, Quiet (f a)) :
    Cut anything (x >>= f) :=
  hx.bind hf fun _ a' _ _ _ _ _ _ _ _ _ hd hrest =>
    .of_quiet (hquiet a') (fun _ => trivial) hd hrest

theorem pure (a : α) : Cut S (pure a) := by
  refine ⟨.pure a, fun c _ bs more a' e hrest hrun => Or.inl ?_⟩
  obtain ⟨rfl, rfl⟩ : a = a' ∧ c = e := by simpa [pure_apply] using hrun
  exact ⟨rfl, by rw [Cursor.rest_withRest, ← hrest]; rfl⟩

theorem map (g : α → β) (hx : Cut S x) (h : ∀ a a' w next, S a a' w next → T (g a) (g a') w next) :
    Cut T (do return g (← x)) :=
  hx.bind (fun a => pure (g a)) fun a a' w next hS c b e _ hrun d _ _ => by
    obtain ⟨rfl, rfl⟩ : g a = b ∧ c = e := by simpa [pure_apply] using hrun
    exact h a a' w next hS

theorem map_anything (g : α → β) (hx : Cut S x) : Cut anything (do return g (← x)) :=
  hx.map g fun _ _ _ _ _ => trivial

theorem fail (g : Failure) : Cut S (fail g : Decoder α) :=
  ⟨.fail g, fun c _ bs more a e _ hrun => by simp [Decoder.fail] at hrun⟩

theorem reject (error : DecodingError) : Cut S (reject error : Decoder α) := fail _

theorem ofExcept (r : Except DecodingError α) : Cut S (ofExcept r) := by
  cases r with
  | ok a => exact pure a
  | error error => exact reject error

theorem token (kind : TokenKind) (read : List UInt8 → Except TokenFault α) (octets : List UInt8) :
    Cut S (token kind read octets) := by
  unfold Decoder.token
  split
  · exact pure _
  · exact reject _

theorem ite {p : Prop} [Decidable p] (hx : Cut S x) (hy : Cut S y) :
    Cut S (if p then x else y) := by
  split
  · exact hx
  · exact hy

/-! ### Octets -/

theorem peek : Cut never peek := by
  refine ⟨.peek, fun c hc bs more b e hrest hrun => ?_⟩
  cases bs with
  | nil =>
    obtain ⟨io, hio⟩ := peek_of_nil (c := c.withRest []) rfl
    rw [hio]
    trivial
  | cons b' bs =>
    rw [peek_of_rest hc hrest] at hrun
    obtain ⟨rfl, rfl⟩ : b' = b ∧ c = e := by simpa using hrun
    rw [peek_of_rest (hc.withRest _) rfl]
    exact Or.inl ⟨rfl, by rw [Cursor.rest_withRest, ← hrest]; rfl⟩

theorem consume : Cut never consume := by
  refine ⟨.consume, fun c hc bs more b e hrest hrun => ?_⟩
  cases bs with
  | nil =>
    obtain ⟨io, hio⟩ := consume_of_nil (c := c.withRest []) rfl
    rw [hio]
    trivial
  | cons b' bs =>
    rw [consume_of_rest hc hrest] at hrun
    obtain ⟨rfl, rfl⟩ : b' = b ∧ c.advance 1 = e := by simpa using hrun
    rw [consume_of_rest (hc.withRest _) rfl]
    exact Or.inl ⟨rfl, by simp [Cursor.advance, Cursor.withRest, hrest]⟩

theorem take (n : Nat) : Cut never (take n) := by
  refine ⟨.take n, fun c hc bs more data e hrest hrun => ?_⟩
  by_cases hn : n ≤ bs.length
  · have hle : n ≤ c.rest.length := by
      rw [hrest, List.length_append]
      omega
    rw [take_of_le hc hle] at hrun
    obtain ⟨rfl, rfl⟩ : c.rest.take n = data ∧ c.advance n = e := by simpa using hrun
    rw [take_of_le (hc.withRest _) hn, hrest]
    refine Or.inl ⟨(List.take_append_of_le_length hn).symm, ?_⟩
    simp [Cursor.advance, Cursor.withRest, hrest, List.drop_append_of_le_length hn]
  · obtain ⟨io, k, -, hio⟩ := take_of_lt (hc.withRest bs) (Nat.not_le.1 hn)
    rw [hio]
    trivial

theorem request : Cut never request := by
  refine ⟨.request, fun c hc bs more u e hrest hrun => ?_⟩
  rw [request_withRest, hrun]
  refine Or.inl ⟨rfl, ?_⟩
  rcases request_eq c with h | h
  · obtain rfl : c.asked = e := by simpa [h] using hrun
    simp [Cursor.asked, Cursor.withRest, hrest]
  · simp [h] at hrun

theorem expect (b : UInt8) : Cut never (expect b) :=
  peek.bind_never fun _ => .ite (consume.bind_never fun _ => pure _) (reject _)

theorem sp : Cut never sp :=
  peek.bind_never fun _ => .ite (consume.bind_never fun _ => pure _) (reject _)

theorem listContinues : Cut never listContinues :=
  peek.bind_never fun _ => .ite (consume.bind_never fun _ => pure _) <|
    .ite (consume.bind_never fun _ => pure _) (reject _)

theorem eol (leniency : Leniency) : Cut never (eol leniency) :=
  peek.bind_never fun _ => .ite
    (consume.bind_never fun _ => peek.bind_never fun _ =>
      .ite (consume.bind_never fun _ => pure _) (reject _)) <|
    .ite (.ite (consume.bind_never fun _ => pure _) (reject _)) (reject _)

/-- The end of input may be seen where there was none. -/
theorem isConsumed : Cut (fun _ t _ _ => t = true) isConsumed := by
  refine ⟨.isConsumed, fun c hc bs more t e hrest hrun => ?_⟩
  rw [isConsumed_apply hc] at hrun
  obtain ⟨rfl, rfl⟩ : c.rest.isEmpty = t ∧ c = e := by simpa using hrun
  rw [isConsumed_apply (hc.withRest bs)]
  cases bs with
  | cons b bs => exact Or.inl ⟨by simp [hrest], by simp [Cursor.withRest, ← hrest]⟩
  | nil =>
    cases more with
    | nil => exact Or.inl ⟨by simp [hrest], by rw [Cursor.withRest_withRest]; exact hrest ▸ rfl⟩
    | cons next more => exact Or.inr ⟨rfl, [], next, by simp, rfl, rfl⟩

/-- An octet that was there may be missed. -/
theorem nextIs (b : UInt8) : Cut (fun _ t _ _ => t = false) (nextIs b) :=
  isConsumed.bind (fun _ => .ite (pure _) (peek.bind_never fun _ => pure _)) <| by
    rintro _ _ w next rfl c t e _ _ d _ _
    rfl

/-! ### Runs of octets -/

theorem takeWhile (p : UInt8 → Bool) : Cut (shortRun p) (takeWhile p) := by
  refine ⟨.takeWhile p, fun c hc bs more w e hrest hrun => ?_⟩
  obtain ⟨v, t, rfl, hv, ht⟩ := exists_run p bs
  rw [takeWhile_of_rest (hc.withRest _) rfl hv ht]
  by_cases hstop : ∀ b ∈ (t ++ more).head?, p b = false
  · -- The run ends in front of the cut, or at it.
    rw [List.append_assoc] at hrest
    rw [takeWhile_of_rest hc hrest hv hstop] at hrun
    obtain ⟨rfl, rfl⟩ : v = w ∧ c.advance v.length = e := by simpa using hrun
    exact Or.inl ⟨rfl, by simp [Cursor.advance, Cursor.withRest, hrest]⟩
  · obtain rfl : t = [] := by
      cases t with
      | nil => rfl
      | cons b t => exact absurd (by simpa using ht) hstop
    obtain ⟨next, hnext, hp⟩ : ∃ next, more.head? = some next ∧ p next = true := by
      simpa using hstop
    rw [takeWhile_apply p hc, hrest, List.append_nil, List.takeWhile_append_of_pos hv] at hrun
    obtain rfl : v ++ more.takeWhile p = w := by simpa using (Prod.mk.inj hrun).1
    refine Or.inr ⟨by simp, v, next, by simp, hnext, hv, hp, rfl, _, rfl⟩

theorem takeWhile1 (p : UInt8 → Bool) (expected : String) :
    Cut (shortWord p id) (takeWhile1 p expected) := by
  refine (takeWhile p).bind (fun w => .ite (peek.bind_never fun _ => reject _) (pure w)) ?_
  rintro _ v _ next ⟨hv, hp, rfl, u, rfl⟩ c b e hc hrun d hd hrest
  by_cases hnil : v = []
  · subst hnil
    exact .of_starved (peek_starved.bind _) hd hrest
  · rw [if_neg (by simp [hnil])] at hrun ⊢
    obtain ⟨rfl, rfl⟩ : v ++ u = b ∧ c = e := by simpa [pure_apply] using hrun
    exact ⟨⟨hnil, hv, hp⟩, rfl, u, rfl⟩

theorem word {p : UInt8 → Bool} (expected : String) (g : List UInt8 → α) :
    Cut (shortWord p g) (do return g (← Decoder.takeWhile1 p expected)) := by
  refine (takeWhile1 p expected).map g ?_
  rintro _ _ v next ⟨hsplit, rfl, u, rfl⟩
  exact ⟨hsplit, rfl, u, rfl⟩

theorem keyword :
    Cut (shortWord Octet.isKeywordChar fun w => Octet.toText (w.map Octet.upper)) keyword :=
  word "keyword" _

/-- A keyword that is split is looked up in its shortened form. -/
theorem keyword_bind {f : String → Decoder β} (hf : ∀ word, Cut T (f word))
    (htail : ∀ w next, SplitWord Octet.isKeywordChar w next → ∀ b (d : Cursor), d.Steady →
      d.rest = [] → CutTail (T b) w next (f (Octet.toText (w.map Octet.upper)) d)) :
    Cut T (Decoder.keyword >>= f) := by
  refine keyword.bind hf ?_
  rintro _ _ w next ⟨hsplit, rfl, -⟩ c b e hc hrun d hd hrest
  exact htail w next hsplit b d hd hrest

/-! ### Numbers -/

theorem digits : Cut shortNumber digits := by
  refine ⟨.digits, fun c hc bs more n e hrest hrun => ?_⟩
  rcases digits_cases (c.withRest bs) with ⟨ds, t, m, hbs, hds, ht⟩ |
    ⟨ds, b, t, hbs, hds, hb, hle, hlt⟩ | ⟨b, t, hbs, hb⟩ | hbs
  · obtain rfl : bs = ds ++ t := hbs
    rw [digits_of_le (hc.withRest _) rfl hds ht]
    by_cases hstop : ∀ b ∈ (t ++ more).head?, Octet.isDigit b = false
    · rw [List.append_assoc] at hrest
      rw [digits_of_le hc hrest hds hstop] at hrun
      obtain ⟨rfl, rfl⟩ : m = n ∧ c.advance ds.length = e := by simpa using hrun
      exact Or.inl ⟨rfl, by simp [Cursor.advance, Cursor.withRest, hrest]⟩
    · obtain rfl : t = [] := by
        cases t with
        | nil => rfl
        | cons b t => exact absurd (by simpa using ht) hstop
      obtain ⟨next, hnext, hp⟩ : ∃ next, more.head? = some next ∧ Octet.isDigit next = true := by
        simpa using hstop
      exact Or.inr ⟨by simp, ds, next, by simp, hnext,
        ⟨hds.ne_nil, List.all_eq_true.1 hds.all_isDigit, hp⟩, hds.value_eq.symm⟩
  · obtain rfl : bs = ds ++ b :: t := hbs
    rw [List.append_assoc] at hrest
    simp [digits_of_lt hc hrest hds hb hle hlt] at hrun
  · obtain rfl : bs = b :: t := hbs
    simp [digits_of_ne hc hrest hb] at hrun
  · obtain ⟨io, hio⟩ := digits_of_nil (hc.withRest bs) hbs
    rw [hio]
    trivial

/-- The octet behind a number is missing where the octets end, but not rejected. -/
theorem number : Cut (fun n n' v next => n' = n ∨ shortNumber n n' v next) number := by
  have hend (n : Nat) : Cut (fun m m' _ _ => m' = m) (do
      if ← Decoder.isConsumed then
        return n
      else
        let next ← Decoder.peek
        if Octet.isNumberEnd next then
          return n
        else
          Decoder.unexpected next "digit or end of number") := by
    refine isConsumed.bind (fun _ => .ite (pure n) (peek.bind_never fun _ =>
      .ite (pure n) (reject _))) ?_
    rintro t _ v next rfl c m e _ hrun d _ _
    have hn : Yields (if t = true then Pure.pure n else do
        let next ← Decoder.peek
        if Octet.isNumberEnd next then Pure.pure n
        else Decoder.unexpected next "digit or end of number") (· = n) :=
      .ite (fun _ => .pure rfl) fun _ => .after fun _ => .ite (fun _ => .pure rfl) fun _ => .reject
    exact (hn hrun).symm
  refine digits.bind (fun n => (hend n).mono fun _ _ _ _ => Or.inl) ?_
  rintro n n' v next hshort c m e _ hrun d hd hrest
  rw [bind_of_ok (isConsumed_apply hd), hrest]
  exact Or.inr hshort

/-- A number above zero that is split may be zero in front of the cut. -/
theorem positive : Cut anything positive := by
  refine number.bind (fun n => .ite (reject _) (pure n)) ?_
  rintro n n' v next h c m e hc hrun d hd hrest
  by_cases hn : n = 0
  · simp [hn, Decoder.reject, Decoder.fail] at hrun
  by_cases hn' : n' = 0
  · rcases h with h | ⟨hsplit, hvalue⟩
    · exact absurd (h ▸ hn') hn
    · rw [if_pos hn']
      exact ⟨hsplit, hvalue.symm.trans hn'⟩
  · rw [if_neg hn']
    trivial

/-! ### Strings -/

theorem quotedToken : Cut never quotedToken :=
  (expect _).bind_never fun _ => (takeWhile _).bind_starved
    (fun octets => (expect _).bind_never fun _ => pure octets) fun _ => (expect_starved _).bind _

theorem quotedItem : Cut never quotedItem :=
  peek.bind_never fun _ => .ite (consume.bind_never fun _ => pure _) <| .ite
    (consume.bind_never fun _ => peek.bind_never fun _ =>
      .ite (consume.bind_never fun _ => pure _) (reject _)) <|
    .ite (reject _) (consume.bind_never fun _ => pure _)

/-- By induction on the octets that are left: what follows an item has fewer of them. -/
theorem quotedRest (d : TextDecoder) (piece : List UInt8) : Cut never (quotedRest d piece) := by
  have hforward (d : TextDecoder) (piece : List UInt8) : Forward (Decoder.quotedRest d piece) :=
    Forward.bound.bind fun _ => .quotedUpTo _ _ _
  refine ⟨hforward d piece, fun c hc => ?_⟩
  induction hn : c.rest.length using Nat.strongRecOn generalizing c d piece with
  | ind n ih =>
  have hafter (item : Option UInt8) : Forward (quotedAfter d piece item) := by
    cases item with
    | none => exact (Forward.ofExcept _).bind fun _ => .pure _
    | some b => exact .ite ((Forward.ofExcept _).bind fun _ => hforward _ _) (hforward _ _)
  refine .congr hc (fun c hc => quotedRest_apply hc d piece) ?_
  refine (quotedItem.cutAt c hc).bind hc .quotedItem hafter (fun item e he he' => ?_)
    fun _ _ _ _ h => h.elim
  cases item with
  | none =>
    have hfinish : Cut never (quotedAfter d piece none) := (ofExcept _).bind_never fun _ => pure _
    exact hfinish.cutAt e he'
  | some b =>
    have hlt : e.rest.length < c.rest.length := length_lt_of_quotedItem hc he
    dsimp only [quotedAfter]
    split
    · refine CutAt.bind he' (.ofExcept _) ((ofExcept (S := never) _).cutAt e he')
        (fun _ => hforward _ _) (fun d' e' hd' he'' => ?_) fun _ _ _ _ h => h.elim
      obtain rfl : e = e' := by simpa [hd'] using (feed_snd d (piece ++ [b]) false e).symm
      exact ih _ (by omega) d' [] e he'' rfl
    · exact ih _ (by omega) d _ e he' rfl

theorem quoted (charset : Charset) : Cut never (quoted charset) :=
  (expect _).bind_never fun _ => quotedRest _ _

theorem literalMode : Cut never literalMode :=
  peek.bind_never fun _ => .ite (consume.bind_never fun _ => pure _) (pure _)

theorem announcement (ctx : Context) : Cut never (announcement ctx) := by
  rw [announcement_eq]
  refine (expect _).bind_never fun _ => digits.bind_starved (fun length => ?_)
    fun _ => (peek_starved.bind _).bind _
  refine literalMode.bind_never fun mode => (expect _).bind_never fun _ => .ite ?_ ?_
  · cases mode with
    | atOnce => exact fail _
    | onRequest => exact reject _
  · exact (eol _).bind_never fun _ => pure _

theorem literalData (length : Nat) : Cut never (literalData length) := by
  refine (take length).bind_never fun data => ?_
  split
  · exact reject _
  · exact pure _

theorem literalOctets (ctx : Context) : Cut never (literalOctets ctx) :=
  (announcement ctx).bind_never fun ⟨length, _⟩ =>
    .ite (request.bind_never fun _ => literalData length) (literalData length)

theorem literal (ctx : Context) : Cut never (literal ctx) :=
  (literalOctets ctx).bind_never fun _ => ofExcept _

theorem wordOrString (p : UInt8 → Bool) (expected : String) (ctx : Context) :
    Cut (shortWord p Octet.toText) (wordOrString p expected ctx) :=
  peek.bind_never fun _ => .ite (quoted _).of_never <| .ite (literal ctx).of_never (word expected _)

theorem astring (ctx : Context) : Cut (shortWord Octet.isAstringChar Octet.toText) (astring ctx) :=
  wordOrString _ _ ctx

/-- The name of a character set that is split may be the name of none. -/
theorem charset (ctx : Context) : Cut anything (charset ctx) := by
  refine (astring { ctx with charset := .usAscii }).bind (fun label => ?_) ?_
  · split
    · exact pure _
    · exact reject _
  · rintro _ _ v next ⟨hsplit, rfl, -⟩ c b e hc hrun d hd hrest
    cases Charset.ofLabel? (Octet.ofText (Octet.toText v)) with
    | some found => trivial
    | none => exact ⟨hsplit, rfl⟩

/-! ### Repetition -/

/-- By induction on the octets that are left: the announcement of an element consumes some. -/
theorem many {more : Decoder Bool} {element : Decoder α} (hadvances : Advances more)
    (hmore : Cut (fun _ t _ _ => t = false) more) (hquiet : Quiet more) (helement : Cut S element) :
    Cut anything (many more element) := by
  have hmany : Forward (Decoder.many more element) := hmore.forward.many helement.forward
  refine ⟨hmany, fun c hc => ?_⟩
  induction hn : c.rest.length using Nat.strongRecOn generalizing c with
  | ind n ih =>
  refine .congr hc (fun d hd => many_apply hadvances hmore.forward helement.forward hd) ?_
  refine (hmore.cutAt c hc).bind hc hmore.forward
    (fun _ => .ite (helement.forward.bind fun _ => hmany.bind fun _ => .pure _) (.pure _))
    (fun t d ht hd => ?_) ?_
  · cases t with
    | false => exact (pure []).cutAt d hd
    | true =>
      have hlt : d.rest.length < c.rest.length := hadvances c d hc ht
      refine (helement.cutAt d hd).bind hd helement.forward
        (fun _ => hmany.bind fun _ => .pure _) (fun a e ha he => ?_) ?_
      · have hle : e.rest.length ≤ d.rest.length := helement.forward.length_le_of_run hd ha
        exact (ih _ (by omega) e he rfl).bind he hmany (fun _ => .pure _)
          (fun as e' _ he' => (pure (a :: as)).cutAt e' he')
          fun _ _ _ _ _ _ _ _ _ _ _ _ _ => trivial
      · exact fun _ a' _ _ _ _ _ _ _ _ _ hd hrest => .of_quiet (.map (a' :: ·) hmany
          (.many hadvances hmore.forward helement.forward hquiet)) (fun _ => trivial) hd hrest
  · rintro t _ w next rfl c as e _ _ d _ _
    trivial

theorem oneOrMore {more : Decoder Bool} {element : Decoder α} (hadvances : Advances more)
    (hmore : Cut (fun _ t _ _ => t = false) more) (hquiet : Quiet more) (helement : Cut S element) :
    Cut anything (oneOrMore more element) :=
  helement.bind_quiet (fun _ => (many hadvances hmore hquiet helement).map_anything _) fun _ =>
    .map _ (hmore.forward.many helement.forward)
      (.many hadvances hmore.forward helement.forward hquiet)

/-- Elements in parentheses. -/
theorem list {element : Decoder α} (helement : Cut S element) :
    Cut anything (Decoder.oneOrMore Decoder.listContinues element) :=
  oneOrMore listContinues_advances listContinues.of_never listContinues_starved.quiet helement

end Cut

end

end Decoder

end ImapRequest
