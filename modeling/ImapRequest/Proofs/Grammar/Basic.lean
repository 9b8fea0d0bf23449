import ImapRequest.Proofs.Lenient.Decoders

/-!
# Grammars that are decoded exactly

A grammar relates octets to the values that they spell.  A decoder *recognizes* a grammar when it
reads nothing but words of it, each as its value, and reads every word of it where the octets behind
the word end it.  Both directions are kept by `do` and by repetition, so they are proved together,
decoder by decoder.

* `Decoder.Recognizes` : a decoder and the grammar of what it reads;
* `Decoder.RecognizesAt.bind`, `Decoder.RecognizesAt.look` : how grammars are put together;
* `Part`, `Decoder.oneOrMore_recognizes` : lists with single spaces between their elements;
* `Decoder.Refuses`, `Decoder.oneOrMore_refuses` : words that are refused, and lists with one of
  them.
-/

namespace ImapRequest

namespace Cursor

variable {c e : Cursor} {w s : List UInt8}

theorem Reaches.rest_eq_of (h : c.Reaches w e) (hrest : c.rest = w ++ s) : e.rest = s :=
  List.append_cancel_left (h.rest_eq.symm.trans hrest)

end Cursor

/-! ### Computations that may fail -/

section Except

variable {ε α β : Type} {f : α → Except ε β}

theorem bind_eq_ok_iff {x : Except ε α} {b : β} :
    x >>= f = .ok b ↔ ∃ a, x = .ok a ∧ f a = .ok b := by
  cases x with
  | error e => simp [Bind.bind, Except.bind]
  | ok a => simp [Bind.bind, Except.bind]

theorem mapM_cons_eq_ok_iff {a : α} {as : List α} {bs : List β} :
    (a :: as).mapM f = .ok bs ↔ ∃ b rest, f a = .ok b ∧ as.mapM f = .ok rest ∧ bs = b :: rest := by
  rw [List.mapM_cons]
  simp only [bind_eq_ok_iff, pure, Except.pure, Except.ok.injEq]
  constructor
  · rintro ⟨b, hb, rest, hrest, rfl⟩
    exact ⟨b, rest, hb, hrest, rfl⟩
  · rintro ⟨b, rest, hb, hrest, rfl⟩
    exact ⟨b, hb, rest, hrest, rfl⟩

end Except

/-- Where the last argument of a command ends: at a line break or with the input. -/
def LineEnds (s : List UInt8) : Prop := ∀ b ∈ s.head?, Octet.isLineBreak b = true

namespace Decoder

variable {α β : Type}

/-! ### Recognition -/

/-- From `c` on nothing but words of `R` is read, and every word of `R` is when octets like `F`
stand behind it. -/
structure RecognizesAt (x : Decoder α) (R : List UInt8 → α → Prop) (F : List UInt8 → Prop)
    (c : Cursor) : Prop where
  sound : ∀ {a e}, c.Steady → x c = (.ok a, e) → ∃ w, R w a ∧ c.Reaches w e
  complete : ∀ {w s a}, c.Listens → R w a → F s → c.rest = w ++ s →
    ∃ e, x c = (.ok a, e) ∧ c.Reaches w e ∧ e.Listens

/-- The decoder reads nothing but words of `R`, and every word of `R` when octets like `F` stand
behind it. -/
def Recognizes (x : Decoder α) (R : List UInt8 → α → Prop) (F : List UInt8 → Prop) : Prop :=
  ∀ c, RecognizesAt x R F c

/-- A word of one grammar and then one of another, which may depend on the value of the first. -/
def InOrder (R : List UInt8 → α → Prop) (S : α → List UInt8 → β → Prop) (w : List UInt8) (b : β) :
    Prop :=
  ∃ u a v, R u a ∧ S a v b ∧ w = u ++ v

namespace RecognizesAt

variable {x y : Decoder α} {f : α → Decoder β} {R R' : List UInt8 → α → Prop}
  {S : α → List UInt8 → β → Prop} {F G : List UInt8 → Prop} {c : Cursor}

/-- What is read moves the cursor and does nothing else. -/
theorem of_advance
    (hsound : ∀ a e, c.Steady → x c = (.ok a, e) →
      ∃ w s, R w a ∧ c.rest = w ++ s ∧ e = c.advance w.length)
    (hcomplete : ∀ w s a, c.Steady → R w a → F s → c.rest = w ++ s →
      x c = (.ok a, c.advance w.length)) : RecognizesAt x R F c where
  sound {a e} hc hrun := by
    obtain ⟨w, s, hw, hrest, rfl⟩ := hsound a e hc hrun
    exact ⟨w, hw, .front hrest⟩
  complete {w s a} hc hw hs hrest :=
    ⟨_, hcomplete w s a hc.steady hw hs hrest, .front hrest, hc.advance _⟩

theorem imp (h : RecognizesAt x R F c) (hFG : ∀ s, G s → F s) : RecognizesAt x R G c :=
  ⟨h.sound, fun hc hw hs => h.complete hc hw (hFG _ hs)⟩

/-- Only the octets in front of the cursor matter. -/
theorem congr (h : RecognizesAt x R F c) (hR : ∀ w s a, c.rest = w ++ s → (R w a ↔ R' w a)) :
    RecognizesAt x R' F c where
  sound hc hrun := by
    obtain ⟨w, hw, hreaches⟩ := h.sound hc hrun
    exact ⟨w, (hR w _ _ hreaches.rest_eq).1 hw, hreaches⟩
  complete hc hw hs hrest := h.complete hc ((hR _ _ _ hrest).2 hw) hs hrest

/-- Of words that are not empty only those matter that start with the octet at the cursor. -/
theorem congr_cons (h : RecognizesAt x R F c) {b : UInt8} {s : List UInt8} (hrest : c.rest = b :: s)
    (hR : ∀ w a, R w a → w ≠ []) (hR' : ∀ w a, R' w a → w ≠ [])
    (hiff : ∀ v a, R (b :: v) a ↔ R' (b :: v) a) : RecognizesAt x R' F c := by
  refine h.congr fun w t a hw => ?_
  cases w with
  | nil => exact ⟨fun h => absurd rfl (hR _ _ h), fun h => absurd rfl (hR' _ _ h)⟩
  | cons b' v =>
    obtain rfl : b' = b := (List.cons.inj (hw.symm.trans hrest)).1
    exact hiff v a

theorem of_eq (h : RecognizesAt y R F c) (heq : c.Steady → x c = y c) : RecognizesAt x R F c where
  sound hc hrun := h.sound hc ((heq hc).symm.trans hrun)
  complete hc hw hs hrest := by
    rw [heq hc.steady]
    exact h.complete hc hw hs hrest

/-- What fails reads nothing. -/
theorem of_error (hx : ∀ a e, c.Steady → x c ≠ (.ok a, e))
    (hR : ∀ w s a, c.rest = w ++ s → ¬ R w a) : RecognizesAt x R F c where
  sound hc hrun := absurd hrun (hx _ _ hc)
  complete _ hw _ hrest := absurd hw (hR _ _ _ hrest)

theorem pure (a : α) : RecognizesAt (pure a) (fun w b => w = [] ∧ b = a) F c := by
  refine of_advance (fun b e _ hrun => ?_) ?_
  · obtain ⟨rfl, rfl⟩ : a = b ∧ c = e := by simpa [pure_apply] using hrun
    exact ⟨[], c.rest, ⟨rfl, rfl⟩, rfl, rfl⟩
  · rintro _ s _ - ⟨rfl, rfl⟩ - -
    rfl

theorem reject {error : DecodingError} (hR : ∀ w a, ¬ R w a) :
    RecognizesAt (reject error) R F c :=
  of_error (fun a e _ hrun => by simp [Decoder.reject, fail] at hrun) fun w _ a _ => hR w a

theorem ofExcept (r : Except DecodingError α) :
    RecognizesAt (ofExcept r) (fun w a => w = [] ∧ r = .ok a) F c := by
  cases r with
  | ok a => exact (pure a).congr fun w s b _ => by simp [eq_comm]
  | error e => exact reject (by simp)

/-- One after the other.  What comes behind a word of the first has to end it. -/
theorem bind (hx : RecognizesAt x R F c)
    (hf : ∀ a d, c.Steady → x c = (.ok a, d) → RecognizesAt (f a) (S a) G d)
    (hend : ∀ a v b s, S a v b → G s → F (v ++ s)) :
    RecognizesAt (x >>= f) (InOrder R S) G c where
  sound {b e} hc hrun := by
    obtain ⟨a, d, h, hrun⟩ := exists_of_bind hrun
    obtain ⟨u, hu, hcd⟩ := hx.sound hc h
    obtain ⟨v, hv, hde⟩ := (hf a d hc h).sound (hcd.steady hc) hrun
    exact ⟨u ++ v, ⟨u, a, v, hu, hv, rfl⟩, hcd.trans hde⟩
  complete {w s b} hc := by
    rintro ⟨u, a, v, hu, hv, rfl⟩ hs hrest
    rw [List.append_assoc] at hrest
    obtain ⟨d, h, hcd, hd⟩ := hx.complete hc hu (hend a v b s hv hs) hrest
    obtain ⟨e, h', hde, he⟩ := (hf a d hc.steady h).complete hd hv hs (hcd.rest_eq_of hrest)
    exact ⟨e, (bind_of_ok h).trans h', hcd.trans hde, he⟩

/-- A decoder that looks at the next octet first. -/
theorem look {f : UInt8 → Decoder α} (hne : ∀ w a, R w a → w ≠ [])
    (hf : ∀ b s, c.rest = b :: s → RecognizesAt (f b) R F c) : RecognizesAt (peek >>= f) R F c := by
  cases hrest : c.rest with
  | nil =>
    refine of_error (fun a e _ hrun => ?_) fun w s a hw hR => ?_
    · obtain ⟨io, hio⟩ := peek_of_nil hrest
      simp [bind_of_error hio] at hrun
    · exact hne w a hR (List.append_eq_nil_iff.1 (hw.symm.trans hrest)).1
  | cons b s => exact (hf b s hrest).of_eq fun hc => bind_of_ok (peek_of_rest hc hrest)

end RecognizesAt

namespace Recognizes

variable {x : Decoder α} {R R' : List UInt8 → α → Prop} {F G : List UInt8 → Prop}

theorem imp (h : Recognizes x R F) (hFG : ∀ s, G s → F s) : Recognizes x R G :=
  fun c => (h c).imp hFG

theorem congr (h : Recognizes x R F) (hR : ∀ w a, R w a ↔ R' w a) : Recognizes x R' F :=
  fun c => (h c).congr fun w _ a _ => hR w a

theorem bind {f : α → Decoder β} {S : α → List UInt8 → β → Prop} (hx : Recognizes x R F)
    (hf : ∀ a, Recognizes (f a) (S a) G) (hend : ∀ a v b s, S a v b → G s → F (v ++ s)) :
    Recognizes (x >>= f) (InOrder R S) G :=
  fun c => (hx c).bind (fun a d _ _ => hf a d) hend

/-- A value is looked at, and nothing else is read. -/
theorem check {f : α → Decoder β} {P : α → β → Prop} (h : Recognizes x R F)
    (hf : ∀ a, Recognizes (f a) (fun w b => w = [] ∧ P a b) F) :
    Recognizes (x >>= f) (fun w b => ∃ a, R w a ∧ P a b) F := by
  refine (h.bind hf ?_).congr fun w b => ?_
  · rintro a _ _ s ⟨rfl, -⟩ hs
    exact hs
  · constructor
    · rintro ⟨u, a, _, hu, ⟨rfl, hb⟩, rfl⟩
      exact ⟨a, by rwa [List.append_nil], hb⟩
    · rintro ⟨a, hw, hb⟩
      exact ⟨w, a, [], hw, ⟨rfl, hb⟩, (List.append_nil w).symm⟩

/-- A value that is made of the one that was read. -/
theorem map (g : α → β) (h : Recognizes x R F) :
    Recognizes (do return g (← x)) (fun w b => ∃ a, R w a ∧ b = g a) F :=
  h.check fun a _ => .pure (g a)

end Recognizes

/-- The word `w` is read as `a` when octets like `F` stand behind it. -/
def Gives (x : Decoder α) (w : List UInt8) (F : List UInt8 → Prop) (a : α) : Prop :=
  ∀ ⦃c : Cursor⦄ ⦃s : List UInt8⦄, c.Listens → F s → c.rest = w ++ s →
    ∃ e, x c = (.ok a, e) ∧ c.Reaches w e

theorem Recognizes.gives {x : Decoder α} {R : List UInt8 → α → Prop} {F : List UInt8 → Prop}
    (h : Recognizes x R F) {w : List UInt8} {a : α} (hw : R w a) : Gives x w F a := by
  intro c s hc hs hrest
  obtain ⟨e, hrun, hreaches, -⟩ := (h c).complete hc hw hs hrest
  exact ⟨e, hrun, hreaches⟩

/-! ### Octets and runs of octets -/

theorem expect_recognizes (b : UInt8) : Recognizes (expect b) (fun w _ => w = [b]) Anything := by
  intro c
  refine .of_advance (fun _ e hc hrun => ?_) ?_
  · obtain ⟨s, hrest, rfl⟩ := rest_of_expect hc hrun
    exact ⟨[b], s, rfl, hrest, rfl⟩
  · rintro _ s _ hc rfl - hrest
    exact expect_of_rest hc hrest

/-- An octet, and what is behind it. -/
theorem Recognizes.behind {x : Decoder α} {R : List UInt8 → α → Prop} {F : List UInt8 → Prop}
    (h : Recognizes x R F) (b : UInt8) :
    Recognizes (do expect b; x) (fun w a => ∃ v, R v a ∧ w = b :: v) F := by
  refine ((expect_recognizes b).bind (fun _ => h) fun _ _ _ _ _ _ => trivial).congr fun w a => ?_
  constructor
  · rintro ⟨_, _, v, rfl, hv, rfl⟩
    exact ⟨v, hv, rfl⟩
  · rintro ⟨v, hv, rfl⟩
    exact ⟨_, (), v, rfl, hv, rfl⟩

/-- What an octet ends. -/
theorem Recognizes.closed {x : Decoder α} {R : List UInt8 → α → Prop} {F G : List UInt8 → Prop}
    (h : Recognizes x R F) (b : UInt8) (hb : ∀ s, F (b :: s)) :
    Recognizes (do let a ← x; expect b; return a) (fun w a => ∃ v, R v a ∧ w = v ++ [b]) G := by
  refine (h.bind (fun a => ((expect_recognizes b).map fun _ => a).imp fun _ _ => trivial) ?_).congr
    fun w a => ?_
  · rintro a _ _ s ⟨_, rfl, -⟩ -
    exact hb s
  · constructor
    · rintro ⟨v, _, _, hv, ⟨_, rfl, rfl⟩, rfl⟩
      exact ⟨v, hv, rfl⟩
    · rintro ⟨v, hv, rfl⟩
      exact ⟨v, a, _, hv, ⟨(), rfl, rfl⟩, rfl⟩

/-- A space, and what is behind it. -/
theorem Recognizes.spaced {x : Decoder α} {R : List UInt8 → α → Prop} {F : List UInt8 → Prop}
    (h : Recognizes x R F) :
    Recognizes (do sp; x) (fun w a => ∃ v, R v a ∧ w = Octet.sp :: v) F := by
  intro c
  have hsp : RecognizesAt sp (fun w _ => w = [Octet.sp]) Anything c := by
    refine .of_advance (fun _ e hc hrun => ?_) ?_
    · obtain ⟨s, hrest, rfl⟩ := rest_of_sp hc hrun
      exact ⟨[Octet.sp], s, rfl, hrest, rfl⟩
    · rintro _ s _ hc rfl - hrest
      exact sp_of_rest hc hrest
  refine (hsp.bind (fun _ d _ _ => h d) fun _ _ _ _ _ _ => trivial).congr fun w s a _ => ?_
  constructor
  · rintro ⟨_, -, v, rfl, hv, rfl⟩
    exact ⟨v, hv, rfl⟩
  · rintro ⟨v, hv, rfl⟩
    exact ⟨_, (), v, rfl, hv, rfl⟩

/-- Two words with a single space between them, and the value that is made of theirs. -/
def Pair {γ : Type} (R : List UInt8 → α → Prop) (S : List UInt8 → β → Prop) (make : α → β → γ)
    (w : List UInt8) (value : γ) : Prop :=
  ∃ u a v b, R u a ∧ S v b ∧ w = u ++ Octet.sp :: v ∧ value = make a b

theorem Recognizes.pair {γ : Type} {x : Decoder α} {y : Decoder β} {R : List UInt8 → α → Prop}
    {S : List UInt8 → β → Prop} {F G : List UInt8 → Prop} (hx : Recognizes x R F)
    (hy : Recognizes y S G) (hsp : ∀ s, F (Octet.sp :: s)) (make : α → β → γ) :
    Recognizes (do
      let a ← x
      sp
      let b ← y
      return make a b) (Pair R S make) G := by
  refine (hx.bind (fun a => (hy.map (make a)).spaced) ?_).congr fun w value => ?_
  · rintro a _ _ s ⟨v, -, rfl⟩ -
    exact hsp _
  · constructor
    · rintro ⟨u, a, _, hu, ⟨v, ⟨b, hv, rfl⟩, rfl⟩, rfl⟩
      exact ⟨u, a, v, b, hu, hv, rfl, rfl⟩
    · rintro ⟨u, a, v, b, hu, hv, rfl, rfl⟩
      exact ⟨u, a, _, hu, ⟨v, ⟨b, hv, rfl⟩, rfl⟩, rfl⟩

/-- At least one octet, and all of a class. -/
def Run (p : UInt8 → Bool) (w bs : List UInt8) : Prop := w = bs ∧ w ≠ [] ∧ w.all p = true

theorem takeWhile_recognizes (p : UInt8 → Bool) :
    Recognizes (takeWhile p) (fun w bs => w = bs ∧ w.all p = true) (Stops p) := by
  intro c
  refine .of_advance (fun bs e hc hrun => ?_) ?_
  · obtain ⟨w, s, hrest, hw, hs⟩ := exists_run p c.rest
    rw [takeWhile_of_rest hc hrest hw hs] at hrun
    obtain ⟨rfl, rfl⟩ : w = bs ∧ c.advance w.length = e := by simpa using hrun
    exact ⟨w, s, ⟨rfl, List.all_eq_true.2 hw⟩, hrest, rfl⟩
  · rintro w s _ hc ⟨rfl, hw⟩ hs hrest
    exact takeWhile_of_rest hc hrest (List.all_eq_true.1 hw) hs

theorem takeWhile1_recognizes (p : UInt8 → Bool) (expected : String) :
    Recognizes (takeWhile1 p expected) (Run p) (Stops p) := by
  intro c
  refine .of_advance (fun bs e hc hrun => ?_) ?_
  · obtain ⟨s, hrest, hne, hw, -, rfl⟩ := rest_of_takeWhile1 hc hrun
    exact ⟨bs, s, ⟨rfl, hne, List.all_eq_true.2 hw⟩, hrest, rfl⟩
  · rintro w s _ hc ⟨rfl, hne, hw⟩ hs hrest
    exact takeWhile1_of_rest hc hrest hne (List.all_eq_true.1 hw) hs

/-- A run of octets, and something that holds of it. -/
theorem exists_run_iff {p : UInt8 → Bool} {w : List UInt8} {P : List UInt8 → Prop} :
    (∃ bs, Run p w bs ∧ P bs) ↔ w ≠ [] ∧ w.all p = true ∧ P w := by
  constructor
  · rintro ⟨_, ⟨rfl, hne, hall⟩, hP⟩
    exact ⟨hne, hall, hP⟩
  · rintro ⟨hne, hall, hP⟩
    exact ⟨w, ⟨rfl, hne, hall⟩, hP⟩

/-- Octets that are read as a whole once they were taken. -/
theorem Recognizes.token {x : Decoder (List UInt8)} {R : List UInt8 → List UInt8 → Prop}
    {F : List UInt8 → Prop} (h : Recognizes x R F) (kind : TokenKind)
    (read : List UInt8 → Except TokenFault α) :
    Recognizes (do token kind read (← x)) (fun w a => ∃ octets, R w octets ∧ read octets = .ok a)
      F := by
  refine h.check fun octets c => ?_
  rw [Decoder.token]
  split
  · rename_i a ha
    exact (RecognizesAt.pure a).congr fun w s b _ => by simp [ha, eq_comm]
  · rename_i fault hfault
    exact .reject (by simp [hfault])

end Decoder

/-! ### Lists -/

/-- An element of a list, and the octets that spell it. -/
structure Part (α : Type) where
  octets : List UInt8
  value : α

namespace Part

variable {α : Type}

/-- Elements, each behind a space. -/
def spaced (parts : List (Part α)) : List UInt8 := parts.flatMap fun p => Octet.sp :: p.octets

/-- Elements with single spaces between them. -/
def joined (parts : OneOrMore (Part α)) : List UInt8 := parts.head.octets ++ spaced parts.tail

/-- The elements themselves. -/
def values (parts : OneOrMore (Part α)) : List α := parts.toList.map value

/-- The same octets, with values that are made of the elements. -/
def mapValues {β : Type} (f : Part α → β) (parts : OneOrMore (Part α)) : OneOrMore (Part β) where
  head := ⟨parts.head.octets, f parts.head⟩
  tail := parts.tail.map fun p => ⟨p.octets, f p⟩

section MapValues

variable {β : Type} (f : Part α → β) (parts : OneOrMore (Part α))

theorem toList_mapValues :
    (mapValues f parts).toList = parts.toList.map fun p => ⟨p.octets, f p⟩ := rfl

theorem values_mapValues : values (mapValues f parts) = parts.toList.map f := by
  rw [values, toList_mapValues, List.map_map]
  rfl

theorem joined_mapValues : joined (mapValues f parts) = joined parts := by
  rw [joined, joined, mapValues, spaced, spaced, List.flatMap_map]

end MapValues

theorem spaced_cons (p : Part α) (parts : List (Part α)) :
    spaced (p :: parts) = Octet.sp :: (p.octets ++ spaced parts) := rfl

/-- Elements, each in front of a space. -/
def leading (parts : List (Part α)) : List UInt8 := parts.flatMap fun p => p.octets ++ [Octet.sp]

theorem leading_cons (p : Part α) (parts : List (Part α)) :
    leading (p :: parts) = p.octets ++ Octet.sp :: leading parts := by simp [leading]

theorem leading_map {β : Type} (f : Part α → β) (parts : List (Part α)) :
    leading (parts.map fun p => (⟨p.octets, f p⟩ : Part β)) = leading parts := List.flatMap_map ..

/-- Elements around one of them: spaces before it, and spaces behind it. -/
theorem spaced_append (before : List (Part α)) (p : Part α) (after : List (Part α)) :
    spaced (before ++ p :: after) = Octet.sp :: (leading before ++ (p.octets ++ spaced after)) := by
  induction before with
  | nil => exact spaced_cons p after
  | cons q before ih =>
    rw [List.cons_append, spaced_cons, ih, leading_cons]
    simp

theorem joined_of_toList {parts : OneOrMore (Part α)} {before after : List (Part α)} {p : Part α}
    (h : parts.toList = before ++ p :: after) :
    joined parts = leading before ++ (p.octets ++ spaced after) := by
  have hjoined : Octet.sp :: joined parts = spaced parts.toList := rfl
  rw [h, spaced_append] at hjoined
  exact List.tail_eq_of_cons_eq hjoined

/-- A space ends an element, and so does what ends the list. -/
theorem spaced_ends {F : List UInt8 → Prop} (hsp : ∀ s, F (Octet.sp :: s)) (parts : List (Part α))
    {s : List UInt8} (hs : F s) : F (spaced parts ++ s) := by
  cases parts with
  | nil => exact hs
  | cons p parts => exact hsp _

end Part

namespace Decoder

variable {α : Type}

/-- A space that no line break follows announces another element.  Where octets `s` follow, a list
ends with the octets `t` that `T` relates to them. -/
structure Separates (more : Decoder Bool) (T : List UInt8 → List UInt8 → Prop) : Prop where
  advances : Advances more
  forward : Forward more
  rest_of_true : ∀ {c d : Cursor}, c.Steady → more c = (.ok true, d) → c.Reaches [Octet.sp] d
  rest_of_false : ∀ {c d : Cursor}, c.Steady → more c = (.ok false, d) →
    ∃ t, T t d.rest ∧ c.Reaches t d
  true_of_rest : ∀ {c : Cursor} {b : UInt8} {s : List UInt8}, c.Steady →
    c.rest = Octet.sp :: b :: s → Octet.isLineBreak b = false → more c = (.ok true, c.advance 1)
  false_of_rest : ∀ {c : Cursor} {t s : List UInt8}, c.Steady → T t s → c.rest = t ++ s →
    more c = (.ok false, c.advance t.length)

section Many

variable {more : Decoder Bool} {x : Decoder α} {R : List UInt8 → α → Prop}
  {F : List UInt8 → Prop} {T : List UInt8 → List UInt8 → Prop}

/-- A space in front of a word that starts like no line break announces an element. -/
theorem many_of_sp (hmore : Separates more T) (hforward : Forward x) {c : Cursor} (hc : c.Steady)
    {w s : List UInt8} (hw : ∃ b ∈ w.head?, Octet.isLineBreak b = false)
    (hrest : c.rest = Octet.sp :: (w ++ s)) :
    many more x c = (do
      let a ← x
      let as ← many more x
      return a :: as) (c.advance 1) := by
  obtain ⟨b, hb, hbreak⟩ := hw
  obtain ⟨v, rfl⟩ := List.head?_eq_some_iff.1 hb
  rw [many_apply hmore.advances hmore.forward hforward hc,
    bind_of_ok (hmore.true_of_rest hc hrest hbreak)]
  rfl

/-- By induction on the octets that are left: an announcement takes at least one. -/
theorem many_sound (hmore : Separates more T) (hforward : Forward x) (hx : Recognizes x R F)
    (n : Nat) : ∀ {c e : Cursor} {as : List α}, c.Steady → c.rest.length < n →
    many more x c = (.ok as, e) → ∃ (parts : List (Part α)) (t : List UInt8),
      (∀ p ∈ parts, R p.octets p.value) ∧ parts.map Part.value = as ∧ T t e.rest ∧
      c.Reaches (Part.spaced parts ++ t) e := by
  induction n with
  | zero => exact fun _ hn => absurd hn (Nat.not_lt_zero _)
  | succ n ih =>
    intro c e as hc hn hrun
    rw [many_apply hmore.advances hmore.forward hforward hc] at hrun
    obtain ⟨announced, d, hannounced, hrun⟩ := exists_of_bind hrun
    cases announced with
    | false =>
      obtain ⟨rfl, rfl⟩ : [] = as ∧ d = e := by simpa [pure_apply] using hrun
      obtain ⟨t, ht, hreaches⟩ := hmore.rest_of_false hc hannounced
      exact ⟨[], t, by simp, rfl, ht, hreaches⟩
    | true =>
      have hlt : d.rest.length < c.rest.length := hmore.advances c d hc hannounced
      have hcd := hmore.rest_of_true hc hannounced
      have hd := hcd.steady hc
      simp only [↓reduceIte] at hrun
      obtain ⟨a, d', ha, hrun⟩ := exists_of_bind hrun
      obtain ⟨w, hw, hdd'⟩ := (hx d).sound hd ha
      have hle := hdd'.length_le
      obtain ⟨as', has, rfl⟩ := exists_of_map hrun
      obtain ⟨parts, t, hparts, rfl, ht, hreaches⟩ := ih (hdd'.steady hd) (by omega) has
      refine ⟨⟨w, a⟩ :: parts, t, List.forall_mem_cons.2 ⟨hw, hparts⟩, rfl, ht, ?_⟩
      simpa [Part.spaced_cons] using (hcd.trans hdd').trans hreaches

theorem many_complete (hmore : Separates more T) (hforward : Forward x) (hx : Recognizes x R F)
    (hstart : ∀ w a, R w a → ∃ b ∈ w.head?, Octet.isLineBreak b = false)
    (hsp : ∀ s, F (Octet.sp :: s)) {t s : List UInt8} (ht : T t s) (hend : F (t ++ s))
    (parts : List (Part α)) : ∀ {c : Cursor}, c.Listens → (∀ p ∈ parts, R p.octets p.value) →
    c.rest = Part.spaced parts ++ (t ++ s) →
    ∃ e, many more x c = (.ok (parts.map Part.value), e) ∧ c.Reaches (Part.spaced parts ++ t) e ∧
      e.Listens := by
  induction parts with
  | nil =>
    intro c hc _ hrest
    rw [many_apply hmore.advances hmore.forward hforward hc.steady,
      bind_of_ok (hmore.false_of_rest hc.steady ht hrest)]
    exact ⟨_, rfl, .front hrest, hc.advance _⟩
  | cons p parts ih =>
    intro c hc hparts hrest
    obtain ⟨hp, hparts⟩ := List.forall_mem_cons.1 hparts
    rw [Part.spaced_cons, List.cons_append, List.append_assoc] at hrest
    have hcd : c.Reaches [Octet.sp] (c.advance 1) := .front (w := [Octet.sp]) hrest
    have hrest' := Cursor.rest_advance_one hrest
    obtain ⟨d, ha, hdd, hd⟩ := (hx _).complete (hc.advance 1) hp
      (Part.spaced_ends hsp parts hend) hrest'
    obtain ⟨e, has, hde, he⟩ := ih hd hparts (hdd.rest_eq_of hrest')
    rw [many_of_sp hmore hforward hc.steady (hstart _ _ hp) hrest, bind_of_ok ha, bind_of_ok has]
    refine ⟨e, rfl, ?_, he⟩
    simpa [Part.spaced_cons] using (hcd.trans hdd).trans hde

/-- What is read as one or more elements are words with single spaces between them, and an end. -/
theorem oneOrMore_sound (hmore : Separates more T) (hforward : Forward x) (hx : Recognizes x R F)
    {c e : Cursor} (hc : c.Steady) {as : OneOrMore α} (hrun : oneOrMore more x c = (.ok as, e)) :
    ∃ (parts : OneOrMore (Part α)) (t : List UInt8), (∀ p ∈ parts.toList, R p.octets p.value) ∧
      Part.values parts = as.toList ∧ T t e.rest ∧ c.Reaches (Part.joined parts ++ t) e := by
  obtain ⟨a, d, ha, hrun⟩ := exists_of_bind hrun
  obtain ⟨tail, htail, rfl⟩ := exists_of_map hrun
  obtain ⟨w, hw, hcd⟩ := (hx c).sound hc ha
  obtain ⟨parts, t, hparts, rfl, ht, hde⟩ :=
    many_sound hmore hforward hx _ (hcd.steady hc) (Nat.lt_succ_self _) htail
  refine ⟨⟨⟨w, a⟩, parts⟩, t, List.forall_mem_cons.2 ⟨hw, hparts⟩, rfl, ht, ?_⟩
  rw [Part.joined, List.append_assoc]
  exact hcd.trans hde

end Many

/-- A list in parentheses goes on with a space or ends with the closing parenthesis. -/
theorem listContinues_cases {c d : Cursor} {announced : Bool} (hc : c.Steady)
    (h : listContinues c = (.ok announced, d)) :
    announced = true ∧ c.Reaches [Octet.sp] d ∨ announced = false ∧ c.Reaches [Octet.rparen] d := by
  obtain ⟨-, b, s, hrest, h⟩ := exists_of_look h
  have hconsume := consume_of_rest hc hrest
  split at h
  · rename_i hb
    obtain rfl : b = Octet.sp := by simpa using hb
    rw [bind_of_ok hconsume] at h
    obtain ⟨rfl, rfl⟩ : true = announced ∧ c.advance 1 = d := by simpa [pure_apply] using h
    exact Or.inl ⟨rfl, .front (w := [Octet.sp]) hrest⟩
  · split at h
    · rename_i hb
      obtain rfl : b = Octet.rparen := by simpa using hb
      rw [bind_of_ok hconsume] at h
      obtain ⟨rfl, rfl⟩ : false = announced ∧ c.advance 1 = d := by simpa [pure_apply] using h
      exact Or.inr ⟨rfl, .front (w := [Octet.rparen]) hrest⟩
    · simp [unexpected, reject, fail] at h

/-- The closing parenthesis ends a list in parentheses. -/
theorem listContinues_separates : Separates listContinues fun t _ => t = [Octet.rparen] where
  advances := listContinues_advances
  forward := (show Inline 0 {} listContinues from listContinues_inline).forward
  rest_of_true hc hrun := by
    obtain ⟨-, hreaches⟩ | ⟨h, -⟩ := listContinues_cases hc hrun
    · exact hreaches
    · cases h
  rest_of_false hc hrun := by
    obtain ⟨h, -⟩ | ⟨-, hreaches⟩ := listContinues_cases hc hrun
    · cases h
    · exact ⟨_, rfl, hreaches⟩
  true_of_rest {c b s} hc hrest _ := by
    rw [listContinues, bind_of_ok (peek_of_rest hc hrest), if_pos (beq_self_eq_true _),
      bind_of_ok (consume_of_rest hc hrest)]
    rfl
  false_of_rest {c t s} hc ht hrest := by
    subst ht
    rw [listContinues, bind_of_ok (peek_of_rest hc hrest), if_neg (by decide),
      if_pos (beq_self_eq_true _), bind_of_ok (consume_of_rest hc hrest)]
    rfl

/-- Elements with single spaces between them, up to a closing parenthesis. -/
def Listed (R : List UInt8 → α → Prop) (w : List UInt8) (as : OneOrMore α) : Prop :=
  ∃ parts : OneOrMore (Part α), (∀ p ∈ parts.toList, R p.octets p.value) ∧
    Part.values parts = as.toList ∧ w = Part.joined parts ++ [Octet.rparen]

theorem oneOrMore_recognizes {x : Decoder α} {R : List UInt8 → α → Prop} {F G : List UInt8 → Prop}
    (hforward : Forward x) (hx : Recognizes x R F)
    (hstart : ∀ w a, R w a → ∃ b ∈ w.head?, Octet.isLineBreak b = false)
    (hsp : ∀ s, F (Octet.sp :: s)) (hparen : ∀ s, F (Octet.rparen :: s)) :
    Recognizes (oneOrMore listContinues x) (Listed R) G := by
  intro c
  constructor
  · intro as e hc hrun
    obtain ⟨parts, _, hparts, has, rfl, hreaches⟩ :=
      oneOrMore_sound listContinues_separates hforward hx hc hrun
    exact ⟨_, ⟨parts, hparts, has, rfl⟩, hreaches⟩
  · rintro _ s ⟨a, as⟩ hc ⟨⟨p, parts⟩, hparts, has, rfl⟩ - hrest
    obtain ⟨hp, hparts⟩ := List.forall_mem_cons.1 hparts
    obtain ⟨rfl, rfl⟩ : p.value = a ∧ parts.map Part.value = as := List.cons.inj has
    rw [Part.joined, List.append_assoc, List.append_assoc] at hrest
    obtain ⟨d, ha, hcd, hd⟩ := (hx c).complete hc hp (Part.spaced_ends hsp parts (hparen s)) hrest
    obtain ⟨e, has, hde, he⟩ := many_complete listContinues_separates hforward hx hstart hsp
      (t := [Octet.rparen]) (s := s) rfl (hparen s) parts hd hparts (hcd.rest_eq_of hrest)
    refine ⟨e, by rw [oneOrMore, bind_of_ok ha, bind_of_ok has]; rfl, ?_, he⟩
    rw [Part.joined, List.append_assoc]
    exact hcd.trans hde

/-! ### Refusal -/

/-- Words of `W`, with octets like `F` behind them, are refused with `failure`. -/
def Refuses (x : Decoder α) (W F : List UInt8 → Prop) (failure : Failure) : Prop :=
  ∀ ⦃c : Cursor⦄ ⦃w s : List UInt8⦄, c.Listens → W w → F s → c.rest = w ++ s →
    ∃ e, x c = (.error failure, e)

theorem Refuses.bind {β : Type} {x : Decoder α} {W F : List UInt8 → Prop} {failure : Failure}
    (h : Refuses x W F failure) (f : α → Decoder β) : Refuses (x >>= f) W F failure := by
  intro c w s hc hw hs hrest
  obtain ⟨e, hrun⟩ := h hc hw hs hrest
  exact ⟨e, bind_of_error hrun⟩

/-- Behind a word that is read, what is refused there. -/
theorem Refuses.after {β : Type} {x : Decoder α} {f : α → Decoder β} {R : List UInt8 → α → Prop}
    {W F G : List UInt8 → Prop} {failure : Failure} (hx : Recognizes x R F)
    (hf : ∀ a, Refuses (f a) W G failure) (hend : ∀ v s, W v → G s → F (v ++ s)) :
    Refuses (x >>= f) (fun w => ∃ u a v, R u a ∧ W v ∧ w = u ++ v) G failure := by
  rintro c _ s hc ⟨u, a, v, hu, hv, rfl⟩ hs hrest
  rw [List.append_assoc] at hrest
  obtain ⟨d, hrun, hcd, hd⟩ := (hx c).complete hc hu (hend v s hv hs) hrest
  obtain ⟨e, herror⟩ := hf a hd hv hs (hcd.rest_eq_of hrest)
  exact ⟨e, (bind_of_ok hrun).trans herror⟩

theorem Refuses.spaced {x : Decoder α} {W F : List UInt8 → Prop} {failure : Failure}
    (h : Refuses x W F failure) :
    Refuses (do sp; x) (fun w => ∃ v, W v ∧ w = Octet.sp :: v) F failure := by
  rintro c _ s hc ⟨v, hv, rfl⟩ hs hrest
  obtain ⟨e, herror⟩ := h (hc.advance 1) hv hs (Cursor.rest_advance_one hrest)
  exact ⟨e, (bind_of_ok (sp_of_rest hc.steady hrest)).trans herror⟩

/-- Two words with a space between them, the first of which is refused, or else the second. -/
theorem Refuses.pair {β γ : Type} {x : Decoder α} {y : Decoder β} {R : List UInt8 → α → Prop}
    {V W F G : List UInt8 → Prop} {failure : Failure} (hread : Recognizes x R F)
    (hx : Refuses x V F failure) (hy : Refuses y W G failure) (hsp : ∀ s, F (Octet.sp :: s))
    (make : α → β → γ) :
    Refuses (do
      let a ← x
      sp
      let b ← y
      return make a b)
      (fun w => ∃ u v, (V u ∨ (∃ a, R u a) ∧ W v) ∧ w = u ++ Octet.sp :: v) G failure := by
  rintro c _ s hc ⟨u, v, hu | ⟨⟨a, hu⟩, hv⟩, rfl⟩ hs hrest
  · rw [List.append_assoc] at hrest
    exact hx.bind _ hc hu (hsp _) hrest
  · refine Refuses.after hread (fun a => (hy.bind fun b => pure (make a b)).spaced) ?_ hc
      ⟨u, a, _, hu, ⟨v, hv, rfl⟩, rfl⟩ hs hrest
    rintro _ s ⟨v, -, rfl⟩ -
    exact hsp _

section Lists

variable {more : Decoder Bool} {x : Decoder α} {R : List UInt8 → α → Prop}
  {F G W : List UInt8 → Prop} {T : List UInt8 → List UInt8 → Prop} {failure : Failure}

/-- By induction on the elements that are read before the one that is refused. -/
theorem many_refuses (hmore : Separates more T) (hforward : Forward x) (hx : Recognizes x R F)
    (hrefuses : Refuses x W G failure)
    (hstart : ∀ w a, R w a → ∃ b ∈ w.head?, Octet.isLineBreak b = false)
    (hstart' : ∀ w, W w → ∃ b ∈ w.head?, Octet.isLineBreak b = false)
    (hsp : ∀ s, F (Octet.sp :: s)) {w s : List UInt8} (hw : W w) (hs : G s)
    (before : List (Part α)) : ∀ {c : Cursor}, c.Listens →
    (∀ p ∈ before, R p.octets p.value) →
    c.rest = Octet.sp :: (Part.leading before ++ (w ++ s)) →
    ∃ e, many more x c = (.error failure, e) := by
  induction before with
  | nil =>
    intro c hc _ hrest
    change c.rest = Octet.sp :: (w ++ s) at hrest
    obtain ⟨e, herror⟩ := hrefuses (hc.advance 1) hw hs (Cursor.rest_advance_one hrest)
    exact ⟨e, by rw [many_of_sp hmore hforward hc.steady (hstart' w hw) hrest,
      bind_of_error herror]⟩
  | cons p before ih =>
    intro c hc hbefore hrest
    obtain ⟨hp, hbefore⟩ := List.forall_mem_cons.1 hbefore
    rw [Part.leading_cons, List.append_assoc, List.cons_append] at hrest
    have hrest' := Cursor.rest_advance_one hrest
    obtain ⟨d, hrun, hcd, hd⟩ := (hx _).complete (hc.advance 1) hp (hsp _) hrest'
    obtain ⟨e, herror⟩ := ih hd hbefore (hcd.rest_eq_of hrest')
    exact ⟨e, by rw [many_of_sp hmore hforward hc.steady (hstart _ _ hp) hrest, bind_of_ok hrun,
      bind_of_error herror]⟩

/-- A list is refused at the first of its elements that is. -/
theorem oneOrMore_refuses (hmore : Separates more T) (hforward : Forward x) (hx : Recognizes x R F)
    (hrefuses : Refuses x W G failure)
    (hstart : ∀ w a, R w a → ∃ b ∈ w.head?, Octet.isLineBreak b = false)
    (hstart' : ∀ w, W w → ∃ b ∈ w.head?, Octet.isLineBreak b = false)
    (hsp : ∀ s, F (Octet.sp :: s)) :
    Refuses (oneOrMore more x) (fun t => ∃ (before : List (Part α)) (w : List UInt8),
      (∀ p ∈ before, R p.octets p.value) ∧ W w ∧ t = Part.leading before ++ w) G failure := by
  rintro c _ s hc ⟨before, w, hbefore, hw, rfl⟩ hs hrest
  cases before with
  | nil =>
    obtain ⟨e, hrun⟩ := hrefuses hc hw hs hrest
    exact ⟨e, bind_of_error hrun⟩
  | cons p before =>
    obtain ⟨hp, hbefore⟩ := List.forall_mem_cons.1 hbefore
    rw [Part.leading_cons, List.append_assoc, List.append_assoc, List.cons_append] at hrest
    obtain ⟨d, hrun, hcd, hd⟩ := (hx c).complete hc hp (hsp _) hrest
    obtain ⟨e, herror⟩ := many_refuses hmore hforward hx hrefuses hstart hstart' hsp hw hs before hd
      hbefore (hcd.rest_eq_of hrest)
    exact ⟨e, by rw [oneOrMore, bind_of_ok hrun, bind_of_error herror]⟩

end Lists

end Decoder

end ImapRequest
