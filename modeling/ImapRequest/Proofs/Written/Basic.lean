import ImapRequest.Proofs.Inline
import Mathlib.Computability.Language

/-!
# What clients send

A grammar says which octets a client may send, and where it has to wait: before the data of a
synchronizing literal it pauses until it is asked to go on.  So the words of the grammar are
transcripts, lists of octets and pauses, and the renderings of a value are a `Language` of them.
`+` is a choice, `*` is one after the other.

* `Cursor.after` : the cursor behind a transcript;
* `Decoder.Reads` : a decoder reads every transcript of a language as the same value and stops
  where the transcript ends;
* `Written.keyword`, `Written.word`, `Written.inParens` : the simplest renderings.
-/

namespace ImapRequest

/-- One thing that a client does. -/
inductive Sent where
  | octet (b : UInt8)
  /-- The client waits until it is asked for the data of a literal. -/
  | pause
  deriving DecidableEq, Repr

namespace Sent

/-- Octets that are sent without a pause. -/
def plain (bs : List UInt8) : List Sent := bs.map octet

/-- The octets of a transcript. -/
def octets : List Sent → List UInt8
  | [] => []
  | .octet b :: t => b :: octets t
  | .pause :: t => octets t

/-- The positions of the pauses of a transcript that starts at a given one. -/
def pauses (position : Nat) : List Sent → List Nat
  | [] => []
  | .octet _ :: t => pauses (position + 1) t
  | .pause :: t => position :: pauses position t

@[simp] theorem octets_append (t u : List Sent) : octets (t ++ u) = octets t ++ octets u := by
  induction t with
  | nil => rfl
  | cons x t ih => cases x <;> simp [octets, ih]

@[simp] theorem octets_plain (bs : List UInt8) : octets (plain bs) = bs := by
  induction bs with
  | nil => rfl
  | cons b bs ih => exact congrArg (b :: ·) ih

@[simp] theorem plain_append (as bs : List UInt8) : plain (as ++ bs) = plain as ++ plain bs :=
  List.map_append

end Sent

open Sent

namespace Cursor

/-- The source shows an octet wherever there is one, and the client can always be asked. -/
structure Listens (c : Cursor) : Prop where
  steady : c.Steady
  unlimited : ∀ link, c.source = .stream link → link.writeLimit = none

theorem listens_ofOctets (bs : List UInt8) : (ofOctets bs).Listens where
  steady := steady_ofOctets bs
  unlimited link h := by cases h

/-- The cursor behind a transcript.  At every pause the client was asked to go on. -/
def after (c : Cursor) : List Sent → Cursor
  | [] => c
  | .octet _ :: t => (c.advance 1).after t
  | .pause :: t => c.asked.after t

variable {c : Cursor}

theorem after_append (t u : List Sent) : ∀ c : Cursor, c.after (t ++ u) = (c.after t).after u := by
  induction t with
  | nil => exact fun c => rfl
  | cons x t ih => cases x <;> exact fun c => ih _

theorem after_plain (bs : List UInt8) : ∀ c : Cursor, c.after (plain bs) = c.advance bs.length := by
  induction bs with
  | nil => exact fun c => rfl
  | cons b bs ih =>
    intro c
    change (c.advance 1).after (plain bs) = _
    rw [ih, advance_advance, List.length_cons, Nat.add_comm]

theorem rest_after (t : List Sent) : ∀ {c : Cursor} {s : List UInt8}, c.rest = octets t ++ s →
    (c.after t).rest = s := by
  induction t with
  | nil => exact fun h => h
  | cons x t ih =>
    intro c s h
    cases x with
    | octet b =>
      refine ih (c := c.advance 1) ?_
      rw [rest_advance, h]
      rfl
    | pause => exact ih (c := c.asked) h

theorem steady_after (t : List Sent) : ∀ {c : Cursor}, c.Steady → (c.after t).Steady := by
  induction t with
  | nil => exact fun h => h
  | cons x t ih =>
    intro c h
    cases x with
    | octet b => exact ih (h.advance 1)
    | pause => exact ih h.asked

theorem position_after (t : List Sent) : ∀ c : Cursor,
    (c.after t).position = c.position + (octets t).length := by
  induction t with
  | nil => exact fun c => rfl
  | cons x t ih =>
    intro c
    cases x with
    | octet b =>
      change ((c.advance 1).after t).position = _
      rw [ih, position_advance, octets, List.length_cons, Nat.add_assoc, Nat.add_comm 1]
    | pause => exact ih c.asked

/-- The octets of a transcript lie in front of the cursor behind it. -/
theorem reaches_after {t : List Sent} {s : List UInt8} (h : c.rest = octets t ++ s) :
    c.Reaches (octets t) (c.after t) where
  rest_eq := by rw [rest_after t h, h]
  position_eq := position_after t c
  steady := steady_after t

/-- The client is asked wherever it pauses. -/
theorem requests_after (t : List Sent) : ∀ c : Cursor,
    (c.after t).requests = c.requests ++ pauses c.position t := by
  induction t with
  | nil => exact fun c => (List.append_nil _).symm
  | cons x t ih =>
    intro c
    cases x with
    | octet b =>
      change ((c.advance 1).after t).requests = _
      rw [ih, requests_advance, position_advance]
      rfl
    | pause =>
      change (c.asked.after t).requests = _
      rw [ih, requests_asked, List.append_assoc]
      rfl

namespace Listens

theorem advance (h : c.Listens) (n : Nat) : (c.advance n).Listens :=
  ⟨h.steady.advance n, h.unlimited⟩

theorem asked (h : c.Listens) : c.asked.Listens := by
  refine ⟨h.steady.asked, fun link hlink => ?_⟩
  cases hs : c.source with
  | memory => simp [Cursor.asked, hs] at hlink
  | octets => simp [Cursor.asked, hs] at hlink
  | stream l =>
    obtain rfl : { l with written := l.written ++ goAhead } = link := by
      simpa [Cursor.asked, hs] using hlink
    exact h.unlimited l hs

theorem after (t : List Sent) : ∀ {c : Cursor}, c.Listens → (c.after t).Listens := by
  induction t with
  | nil => exact fun h => h
  | cons x t ih =>
    intro c h
    cases x with
    | octet b => exact ih (h.advance 1)
    | pause => exact ih h.asked

end Listens

theorem request_of_listens (h : c.Listens) : c.request = (.ok (), c.asked) := by
  unfold request
  cases hs : c.source with
  | memory => simp [Cursor.asked, hs]
  | octets => simp [Cursor.asked, hs]
  | stream link => simp [Cursor.asked, hs, h.unlimited link hs]

end Cursor

/-! ### What may follow -/

/-- Nothing is asked of what follows. -/
def Anything (_ : List UInt8) : Prop := True

/-- No octet of a class follows. -/
def Stops (p : UInt8 → Bool) (s : List UInt8) : Prop := ∀ b ∈ s.head?, p b = false

theorem Stops.cons {p : UInt8 → Bool} {b : UInt8} (hb : p b = false) (s : List UInt8) :
    Stops p (b :: s) := by
  intro b' hb'
  obtain rfl : b = b' := Option.some.inj hb'
  exact hb

/-- The octets that end an argument which has no end of its own. -/
def Octet.isDelimiter (b : UInt8) : Bool := b == sp || b == rparen || b == cr

/-- Where an argument ends. -/
def Delimited (s : List UInt8) : Prop := ∀ b ∈ s.head?, Octet.isDelimiter b = true

/-- Where the last argument of a command ends. -/
def Ended (s : List UInt8) : Prop := s.head? = some Octet.cr

theorem Ended.delimited {s : List UInt8} (h : Ended s) : Delimited s := by
  intro b hb
  obtain rfl : Octet.cr = b := Option.some.inj (h.symm.trans hb)
  rfl

/-- A class without delimiters ends with the argument. -/
theorem Delimited.stops {p : UInt8 → Bool} {s : List UInt8} (h : Delimited s)
    (hsp : p Octet.sp = false) (hparen : p Octet.rparen = false) (hcr : p Octet.cr = false) :
    Stops p s := by
  intro b hb
  have hdelimiter := h b hb
  simp only [Octet.isDelimiter, Bool.or_eq_true, beq_iff_eq] at hdelimiter
  rcases hdelimiter with (rfl | rfl) | rfl
  · exact hsp
  · exact hparen
  · exact hcr

/-- The first octets of a language. -/
def Starts (p : UInt8 → Prop) (L : Language Sent) : Prop :=
  ∀ t ∈ L, ∃ b s, octets t = b :: s ∧ p b

namespace Starts

variable {p q : UInt8 → Prop} {L M : Language Sent}

theorem imp (h : Starts p L) (hpq : ∀ b, p b → q b) : Starts q L := by
  intro t ht
  obtain ⟨b, s, hs, hb⟩ := h t ht
  exact ⟨b, s, hs, hpq b hb⟩

theorem mul (h : Starts p L) (M : Language Sent) : Starts p (L * M) := by
  rintro t ⟨u, hu, v, -, rfl⟩
  obtain ⟨b, s, hs, hb⟩ := h u hu
  refine ⟨b, s ++ octets v, ?_, hb⟩
  rw [octets_append, hs, List.cons_append]

/-- The first octet stays where more follows. -/
theorem append (h : Starts p L) {t : List Sent} (ht : t ∈ L) (s : List UInt8) :
    ∃ b u, octets t ++ s = b :: u ∧ p b := by
  obtain ⟨b, u, hu, hb⟩ := h t ht
  exact ⟨b, u ++ s, by rw [hu, List.cons_append], hb⟩

theorem of_head (h : Starts p L) {t : List Sent} (ht : t ∈ L) (s : List UInt8) :
    ∀ b ∈ (octets t ++ s).head?, p b := by
  intro b hb
  obtain ⟨b', u, hu, hb'⟩ := h.append ht s
  rw [hu] at hb
  obtain rfl : b' = b := Option.some.inj hb
  exact hb'

end Starts

/-- Renderings that there are only on a condition. -/
def Written.provided (p : Prop) (L : Language Sent) : Language Sent := fun t => p ∧ t ∈ L

theorem Starts.provided {P : Prop} {p : UInt8 → Prop} {L : Language Sent} (h : P → Starts p L) :
    Starts p (Written.provided P L) :=
  fun t ht => h ht.1 t ht.2

/-! ### Reading what was sent -/

namespace Decoder

variable {α β : Type}

/-- Every transcript of `L`, with octets like `F` behind it, is read as `a`, and nothing else is
read. -/
def Reads (x : Decoder α) (L : Language Sent) (F : List UInt8 → Prop) (a : α) : Prop :=
  ∀ t ∈ L, ∀ s, F s → ∀ c : Cursor, c.Listens → c.rest = octets t ++ s →
    x c = (.ok a, c.after t)

namespace Reads

variable {x : Decoder α} {f : α → Decoder β} {a : α} {b : β} {L M : Language Sent}
  {F G : List UInt8 → Prop}

theorem pure (a : α) : Reads (pure a) 1 F a := by
  intro t ht s _ c _ _
  obtain rfl := (Language.mem_one t).1 ht
  rfl

/-- One after the other.  What is read first has to end where the rest starts. -/
theorem bind (hx : Reads x L F a) (hf : Reads (f a) M G b)
    (hend : ∀ u ∈ M, ∀ s, G s → F (octets u ++ s)) : Reads (x >>= f) (L * M) G b := by
  rintro t ⟨u, hu, v, hv, rfl⟩ s hs c hc hrest
  rw [octets_append, List.append_assoc] at hrest
  rw [bind_of_ok (hx u hu _ (hend v hv s hs) c hc hrest), Cursor.after_append]
  exact hf v hv s hs _ (hc.after u) (Cursor.rest_after u hrest)

/-- What is read first has an end of its own. -/
theorem andThen (hx : Reads x L Anything a) (hf : Reads (f a) M G b) :
    Reads (x >>= f) (L * M) G b :=
  hx.bind hf fun _ _ _ _ => trivial

/-- What is left to do reads nothing. -/
theorem finish (hx : Reads x L F a) (hf : f a = Pure.pure b) : Reads (x >>= f) L F b := by
  intro t ht s hs c hc hrest
  rw [bind_of_ok (hx t ht s hs c hc hrest), hf]
  rfl

theorem map (f : α → β) (hx : Reads x L F a) : Reads (do return f (← x)) L F (f a) := hx.finish rfl

theorem imp (hx : Reads x L F a) (h : ∀ s, G s → F s) : Reads x L G a :=
  fun t ht s hs => hx t ht s (h s hs)

theorem anywhere (hx : Reads x L Anything a) : Reads x L G a := hx.imp fun _ _ => trivial

theorem ended (hx : Reads x L Delimited a) : Reads x L Ended a := hx.imp fun _ hs => hs.delimited

theorem assoc {N : Language Sent} (hx : Reads x (L * M * N) F a) : Reads x (L * (M * N)) F a := by
  rwa [mul_assoc] at hx

theorem add (hL : Reads x L F a) (hM : Reads x M F a) : Reads x (L + M) F a := by
  rintro t (ht | ht)
  · exact hL t ht
  · exact hM t ht

theorem provided {p : Prop} (h : p → Reads x L F a) : Reads x (Written.provided p L) F a :=
  fun t ht => h ht.1 t ht.2

/-- A decoder that decides by the next octet. -/
theorem look {p : UInt8 → Prop} {f : UInt8 → Decoder α} (hL : Starts p L)
    (hf : ∀ b, p b → Reads (f b) L F a) : Reads (peek >>= f) L F a := by
  intro t ht s hs c hc hrest
  obtain ⟨b, u, hu, hb⟩ := hL t ht
  have hpeek : peek c = (.ok b, c) := by
    rw [hu, List.cons_append] at hrest
    exact peek_of_rest hc.steady hrest
  rw [bind_of_ok hpeek]
  exact hf b hb t ht s hs c hc hrest

/-- A decoder that asks whether a given octet is next, which it is. -/
theorem ifNext {e : UInt8} {f : Bool → Decoder α} (hL : Starts (· = e) L)
    (hf : Reads (f true) L F a) : Reads (nextIs e >>= f) L F a := by
  intro t ht s hs c hc hrest
  obtain ⟨b, u, hu, hb⟩ := hL t ht
  have hnext : nextIs e c = (.ok true, c) := by
    rw [nextIs_apply hc.steady, hrest, hu, hb]
    simp
  rw [bind_of_ok hnext]
  exact hf t ht s hs c hc hrest

/-- A decoder that asks whether a given octet is next, which it is not. -/
theorem ifNotNext {e : UInt8} {f : Bool → Decoder α}
    (hL : ∀ t ∈ L, ∀ s, F s → Stops (· == e) (octets t ++ s))
    (hf : Reads (f false) L F a) : Reads (nextIs e >>= f) L F a := by
  intro t ht s hs c hc hrest
  have hnext : nextIs e c = (.ok false, c) := by
    have hstops := hL t ht s hs
    rw [nextIs_apply hc.steady, hrest]
    cases hhead : (octets t ++ s).head? with
    | none => rfl
    | some b => simpa using hstops b hhead
  rw [bind_of_ok hnext]
  exact hf t ht s hs c hc hrest

end Reads

end Decoder

/-! ### Words -/

namespace Octet

/-- What holds of the octets of all numbers holds of all octets. -/
theorem forall_octet {P : UInt8 → Prop} (h : ∀ n < 256, P (UInt8.ofNat n)) (b : UInt8) : P b := by
  have hb := h b.toNat b.toNat_lt
  rwa [UInt8.ofNat_toNat] at hb

/-- A character that is encoded below 0x80 is its only octet. -/
theorem map_toChar_utf8EncodeChar {c : Char} (h : ∀ b ∈ String.utf8EncodeChar c, b < 0x80) :
    (String.utf8EncodeChar c).map toChar = [c] := by
  -- The first octet of any other character is not below 0x80.
  have hlead : ∀ n, 128 ≤ n → n < 256 → ¬ UInt8.ofNat n < 0x80 := by
    intro n hle hlt hn
    rw [UInt8.lt_iff_toNat_lt, UInt8.toNat_ofNat', Nat.mod_eq_of_lt hlt] at hn
    exact absurd hn (Nat.not_lt.2 hle)
  revert h
  fun_cases String.utf8EncodeChar c with
  | case1 hc =>
    intro _
    have hval : (UInt8.ofNat c.val.toNat).toNat = c.toNat := by
      rw [UInt8.toNat_ofNat', Nat.mod_eq_of_lt (by omega)]
      rfl
    rw [List.map_cons, List.map_nil, toChar, hval, Char.ofNat_toNat]
  | case2 => exact fun h => absurd (h _ (List.mem_cons_self ..)) (hlead _ (by omega) (by omega))
  | case3 => exact fun h => absurd (h _ (List.mem_cons_self ..)) (hlead _ (by omega) (by omega))
  | case4 => exact fun h => absurd (h _ (List.mem_cons_self ..)) (hlead _ (by omega) (by omega))

/-- The octets of an ASCII text are the numbers of its characters. -/
theorem toText_ofText {s : String} (h : ∀ b ∈ ofText s, b < 0x80) : toText (ofText s) = s := by
  have hchars : (s.toList.flatMap String.utf8EncodeChar).map toChar = s.toList := by
    rw [ofText] at h
    generalize s.toList = cs at h ⊢
    induction cs with
    | nil => rfl
    | cons c cs ih =>
      rw [List.flatMap_cons] at h ⊢
      rw [List.map_append, map_toChar_utf8EncodeChar fun b hb => h b (List.mem_append_left _ hb),
        ih fun b hb => h b (List.mem_append_right _ hb)]
      rfl
  rw [toText, ofText, hchars, String.ofList_toList]

/-- An octet below 0x80 is the encoding of its character. -/
theorem utf8EncodeChar_toChar (b : UInt8) :
    b < 0x80 → String.utf8EncodeChar (toChar b) = [b] := by
  revert b
  exact forall_octet (by decide +kernel)

/-- The text of ASCII octets is encoded as these octets. -/
theorem ofText_toText {bs : List UInt8} (h : ∀ b ∈ bs, b < 0x80) : ofText (toText bs) = bs := by
  rw [ofText, toText, String.toList_ofList, List.flatMap_map]
  induction bs with
  | nil => rfl
  | cons b bs ih =>
    rw [List.flatMap_cons, utf8EncodeChar_toChar b (h b (by simp)),
      ih fun b hb => h b (by simp [hb])]
    rfl

theorem isChar_lt {b : UInt8} (h : isChar b = true) : b < 0x80 := by
  simp only [isChar, Bool.and_eq_true, decide_eq_true_eq] at h
  exact UInt8.lt_of_le_of_lt h.2 (by decide)

theorem toText_ofText_of_all {p : UInt8 → Bool} {s : String} (hp : ∀ b, p b = true → b < 0x80)
    (h : (ofText s).all p = true) : toText (ofText s) = s :=
  toText_ofText fun b hb => hp b (List.all_eq_true.1 h b hb)

/-- A keyword as it is compared: in upper case. -/
def IsKeyword (word : String) : Prop :=
  ofText word ≠ [] ∧ (ofText word).all (fun b => isKeywordChar b && upper b == b) = true

/-- A class without regard to letter case holds of all spellings of a word. -/
theorem all_of_map_upper {p : UInt8 → Bool} (hp : ∀ b, p (upper b) = p b) {as bs : List UInt8}
    (h : as.map upper = bs.map upper) (hbs : bs.all p = true) : as.all p = true := by
  have hall : ∀ cs : List UInt8, (cs.map upper).all p = cs.all p := by
    intro cs
    rw [List.all_map]
    exact congrArg (fun q => cs.all q) (funext hp)
  rw [← hall, h, hall, hbs]

/-- No letter case makes another octet a part of keywords. -/
theorem isKeywordChar_upper (b : UInt8) : isKeywordChar (upper b) = isKeywordChar b := by
  revert b
  exact forall_octet (by decide +kernel)

theorem isKeywordChar_lt (b : UInt8) : isKeywordChar b = true → b < 0x80 := by
  revert b
  exact forall_octet (by decide +kernel)

instance (word : String) : Decidable (IsKeyword word) := inferInstanceAs (Decidable (_ ∧ _))

end Octet

namespace Written

/-- Some octets as they are. -/
def octets (bs : List UInt8) : Language Sent := {plain bs}

/-- A single space. -/
def sp : Language Sent := octets [Octet.sp]

/-- A keyword in any letter case. -/
def keyword (word : String) : Language Sent :=
  fun t => ∃ bs, bs.map Octet.upper = (Octet.ofText word).map Octet.upper ∧ t = plain bs

/-- A text as a word of octets of a class. -/
def word (p : UInt8 → Bool) (text : String) : Language Sent :=
  fun t => Octet.ofText text ≠ [] ∧ (Octet.ofText text).all p = true ∧ t = plain (Octet.ofText text)

variable {α : Type}

/-- Further elements, each after a space. -/
def spaced (element : α → Language Sent) : List α → Language Sent
  | [] => 1
  | a :: as => sp * (element a * spaced element as)

/-- One or more elements in parentheses, with spaces between them. -/
def inParens (element : α → Language Sent) (xs : OneOrMore α) : Language Sent :=
  octets [Octet.lparen] *
    (element xs.head * (spaced element xs.tail * octets [Octet.rparen]))

theorem mem_octets {bs : List UInt8} {t : List Sent} : t ∈ octets bs ↔ t = plain bs := Iff.rfl

theorem starts_octets (b : UInt8) (bs : List UInt8) : Starts (· = b) (octets (b :: bs)) := by
  intro t ht
  obtain rfl := mem_octets.1 ht
  exact ⟨b, bs, by rw [octets_plain], rfl⟩

/-- The first octet of a keyword is that of its word but for letter case. -/
theorem starts_keyword {word : String} {a : UInt8} {as : List UInt8}
    (h : Octet.ofText word = a :: as) :
    Starts (fun b => Octet.upper b = Octet.upper a) (keyword word) := by
  rintro t ⟨bs, hbs, rfl⟩
  rw [h] at hbs
  cases bs with
  | nil => exact absurd hbs.symm (List.cons_ne_nil _ _)
  | cons b bs => exact ⟨b, bs, octets_plain _, List.head_eq_of_cons_eq hbs⟩

end Written

/-! ### What can be rendered at all -/

/-- There is a transcript. -/
def Possible (L : Language Sent) : Prop := ∃ t, t ∈ L

namespace Possible

variable {L M : Language Sent}

theorem mul (hL : Possible L) (hM : Possible M) : Possible (L * M) := by
  obtain ⟨t, ht⟩ := hL
  obtain ⟨u, hu⟩ := hM
  exact ⟨t ++ u, Language.append_mem_mul ht hu⟩

theorem add_left (hL : Possible L) (M : Language Sent) : Possible (L + M) := by
  obtain ⟨t, ht⟩ := hL
  exact ⟨t, Or.inl ht⟩

theorem add_right (L : Language Sent) (hM : Possible M) : Possible (L + M) := by
  obtain ⟨t, ht⟩ := hM
  exact ⟨t, Or.inr ht⟩

theorem one : Possible 1 := ⟨[], Language.nil_mem_one⟩

theorem octets (bs : List UInt8) : Possible (Written.octets bs) := ⟨_, rfl⟩

theorem sp : Possible Written.sp := octets _

theorem keyword (word : String) : Possible (Written.keyword word) :=
  ⟨plain (Octet.ofText word), _, rfl, rfl⟩

theorem word {p : UInt8 → Bool} {text : String} (hne : Octet.ofText text ≠ [])
    (hall : (Octet.ofText text).all p = true) : Possible (Written.word p text) :=
  ⟨_, hne, hall, rfl⟩

theorem provided {p : Prop} (hp : p) (hL : Possible L) : Possible (Written.provided p L) := by
  obtain ⟨t, ht⟩ := hL
  exact ⟨t, hp, ht⟩

theorem spaced {α : Type} {element : α → Language Sent} {as : List α}
    (has : ∀ a ∈ as, Possible (element a)) : Possible (Written.spaced element as) := by
  induction as with
  | nil => exact one
  | cons a as ih =>
    exact sp.mul ((has a (List.mem_cons_self ..)).mul
      (ih fun a' ha' => has a' (List.mem_cons_of_mem _ ha')))

theorem inParens {α : Type} {element : α → Language Sent} (xs : OneOrMore α)
    (hxs : ∀ a ∈ xs.toList, Possible (element a)) : Possible (Written.inParens element xs) := by
  refine (octets _).mul ((hxs _ (List.mem_cons_self ..)).mul (Possible.mul ?_ (octets _)))
  exact spaced fun a ha => hxs a (List.mem_cons_of_mem _ ha)

end Possible

namespace Decoder

variable {α : Type}

theorem expect_reads (b : UInt8) : Reads (expect b) (Written.octets [b]) Anything () := by
  intro t ht s _ c hc hrest
  obtain rfl := Written.mem_octets.1 ht
  rw [octets_plain] at hrest
  rw [expect_of_rest hc.steady hrest, Cursor.after_plain]
  rfl

theorem consume_reads (b : UInt8) : Reads consume (Written.octets [b]) Anything b := by
  intro t ht s _ c hc hrest
  obtain rfl := Written.mem_octets.1 ht
  rw [octets_plain] at hrest
  rw [consume_of_rest hc.steady hrest, Cursor.after_plain]
  rfl

theorem sp_reads : Reads sp Written.sp Anything () := by
  refine Reads.look (Written.starts_octets _ _) fun b hb => ?_
  rw [if_pos (by simpa using hb)]
  exact (consume_reads _).map _

/-- A space ends what comes before it. -/
theorem delimited_of_mem_sp {L : Language Sent} {u : List Sent} (hu : u ∈ Written.sp * L)
    (s : List UInt8) : Delimited (octets u ++ s) := by
  obtain ⟨v, hv, w, -, rfl⟩ := hu
  obtain rfl := Written.mem_octets.1 hv
  intro b hb
  obtain rfl : Octet.sp = b := by simpa [plain, octets] using hb
  rfl

theorem delimited_of_mem_one {u : List Sent} (hu : u ∈ (1 : Language Sent)) {s : List UInt8}
    (hs : Delimited s) : Delimited (octets u ++ s) := by
  obtain rfl := (Language.mem_one u).1 hu
  exact hs

/-- An argument, a space, and what comes after it. -/
theorem Reads.spaced {β : Type} {x : Decoder α} {g : α → Decoder β} {a : α} {b : β}
    {L M : Language Sent} {G : List UInt8 → Prop} (hx : Reads x L Delimited a)
    (hg : Reads (g a) M G b) :
    Reads (do
      let a ← x
      sp
      g a) (L * (Written.sp * M)) G b :=
  hx.bind (sp_reads.andThen hg) fun _ hu s _ => delimited_of_mem_sp hu s

theorem takeWhile_reads {p : UInt8 → Bool} {bs : List UInt8} (hbs : bs.all p = true) :
    Reads (takeWhile p) (Written.octets bs) (Stops p) bs := by
  intro t ht s hs c hc hrest
  obtain rfl := Written.mem_octets.1 ht
  rw [octets_plain] at hrest
  rw [takeWhile_of_rest hc.steady hrest (by simpa using hbs) hs, Cursor.after_plain]

theorem takeWhile1_reads {p : UInt8 → Bool} {bs : List UInt8} (hne : bs ≠ [])
    (hbs : bs.all p = true) (expected : String) :
    Reads (takeWhile1 p expected) (Written.octets bs) (Stops p) bs := by
  intro t ht s hs c hc hrest
  obtain rfl := Written.mem_octets.1 ht
  rw [octets_plain] at hrest
  rw [takeWhile1_of_rest hc.steady hrest hne (by simpa using hbs) hs, Cursor.after_plain]

theorem word_reads {p : UInt8 → Bool} {text : String} (expected : String) :
    Reads (takeWhile1 p expected) (Written.word p text) (Stops p) (Octet.ofText text) := by
  rintro t ⟨hne, hall, rfl⟩
  exact takeWhile1_reads hne hall expected _ rfl

/-- What the spellings of a keyword have in common. -/
theorem spelling_of_keyword {word : String} (hword : Octet.IsKeyword word) {bs : List UInt8}
    (h : bs.map Octet.upper = (Octet.ofText word).map Octet.upper) :
    bs ≠ [] ∧ bs.all Octet.isKeywordChar = true ∧ Octet.toText (bs.map Octet.upper) = word := by
  have hchar : ∀ b ∈ Octet.ofText word, Octet.isKeywordChar b = true ∧ Octet.upper b = b := by
    intro b hb
    simpa using List.all_eq_true.1 hword.2 b hb
  -- A keyword is its own upper case.
  have hupper : bs.map Octet.upper = Octet.ofText word := by
    rw [h]
    exact (List.map_congr_left fun b hb => (hchar b hb).2).trans (List.map_id _)
  refine ⟨?_, List.all_eq_true.2 fun b hb => ?_, ?_⟩
  · rintro rfl
    exact hword.1 hupper.symm
  · rw [← Octet.isKeywordChar_upper]
    exact (hchar _ (hupper ▸ List.mem_map_of_mem hb)).1
  · rw [hupper]
    exact Octet.toText_ofText fun b hb => Octet.isKeywordChar_lt b (hchar b hb).1

theorem keyword_reads {word : String} (hword : Octet.IsKeyword word) :
    Reads keyword (Written.keyword word) (Stops Octet.isKeywordChar) word := by
  rintro t ⟨bs, hbs, rfl⟩
  obtain ⟨hne, hall, htext⟩ := spelling_of_keyword hword hbs
  have hread :=
    (takeWhile1_reads hne hall "keyword").map fun bs => Octet.toText (bs.map Octet.upper)
  rw [htext] at hread
  exact hread _ rfl

theorem starts_keywordChar {word : String} (hword : Octet.IsKeyword word) :
    Starts (Octet.isKeywordChar · = true) (Written.keyword word) := by
  rintro t ⟨bs, hbs, rfl⟩
  obtain ⟨hne, hall, -⟩ := spelling_of_keyword hword hbs
  obtain ⟨b, bs, rfl⟩ := List.exists_cons_of_ne_nil hne
  exact ⟨b, bs, octets_plain _, List.all_eq_true.1 hall b (List.mem_cons_self ..)⟩

/-! ### Lists -/

/-- After an element of a list, further ones follow or the end of the list. -/
theorem delimited_of_mem_spaced {element : α → Language Sent} {stop : Language Sent}
    {F : List UInt8 → Prop} (hend : ∀ u ∈ stop, ∀ s, F s → Delimited (octets u ++ s)) {as : List α}
    {t : List Sent} (ht : t ∈ Written.spaced element as * stop) {s : List UInt8} (hs : F s) :
    Delimited (octets t ++ s) := by
  cases as with
  | nil =>
    rw [Written.spaced, one_mul] at ht
    exact hend t ht s hs
  | cons a as =>
    rw [Written.spaced, mul_assoc] at ht
    exact delimited_of_mem_sp ht s

/-- Elements, each after an announcement, and the end of the list. -/
theorem many_reads {more : Decoder Bool} {x : Decoder α} {element : α → Language Sent}
    {stop : Language Sent} {F G : List UInt8 → Prop} (hadvances : Advances more)
    (hforward : Forward more) (hx : Forward x) (hmore : Reads more Written.sp G true)
    (hstop : Reads more stop F false) (hend : ∀ u ∈ stop, ∀ s, F s → Delimited (octets u ++ s)) :
    ∀ as : List α,
    (∀ a ∈ as, Reads x (element a) Delimited a ∧ ∀ t ∈ element a, ∀ s, G (octets t ++ s)) →
    Reads (many more x) (Written.spaced element as * stop) F as := by
  intro as
  induction as with
  | nil =>
    intro _ t ht s hs c hc hrest
    rw [Written.spaced, one_mul] at ht
    rw [many_apply hadvances hforward hx hc.steady, bind_of_ok (hstop t ht s hs c hc hrest)]
    rfl
  | cons a as ih =>
    intro has t ht s hs c hc hrest
    have hread : Reads (do
        if ← more then
          let a ← x
          let as ← many more x
          return a :: as
        else
          return []) (Written.spaced element (a :: as) * stop) F (a :: as) := by
      rw [Written.spaced, mul_assoc, mul_assoc]
      refine hmore.bind ?_ fun u hu s _ => ?_
      · exact (has a (List.mem_cons_self ..)).1.bind
          ((ih fun a' ha' => has a' (List.mem_cons_of_mem _ ha')).map (a :: ·))
          fun u hu s hs => delimited_of_mem_spaced hend hu hs
      · obtain ⟨v, hv, w, -, rfl⟩ := hu
        rw [octets_append, List.append_assoc]
        exact (has a (List.mem_cons_self ..)).2 v hv _
    rw [many_apply hadvances hforward hx hc.steady]
    exact hread t ht s hs c hc hrest

/-- Elements that are the last of a command. -/
theorem manyEnded_reads {more : Decoder Bool} {x : Decoder α} {element : α → Language Sent}
    {G : List UInt8 → Prop} (hadvances : Advances more) (hforward : Forward more) (hx : Forward x)
    (hmore : Reads more Written.sp G true) (hstop : Reads more 1 Ended false) (as : List α)
    (has : ∀ a ∈ as, Reads x (element a) Delimited a ∧ ∀ t ∈ element a, ∀ s, G (octets t ++ s)) :
    Reads (many more x) (Written.spaced element as) Ended as := by
  have hread := many_reads hadvances hforward hx hmore hstop
    (fun u hu s hs => delimited_of_mem_one hu hs.delimited) as has
  rwa [mul_one] at hread

theorem delimited_of_mem_spacedEnded {element : α → Language Sent} {as : List α} {t : List Sent}
    (ht : t ∈ Written.spaced element as) {s : List UInt8} (hs : Ended s) :
    Delimited (octets t ++ s) := by
  cases as with
  | nil => exact delimited_of_mem_one ht hs.delimited
  | cons a as => exact delimited_of_mem_sp ht s

theorem listContinues_reads_sp : Reads listContinues Written.sp Anything true := by
  refine Reads.look (Written.starts_octets _ _) fun b hb => ?_
  rw [if_pos (by simpa using hb)]
  exact (consume_reads _).map _

theorem listContinues_reads_rparen :
    Reads listContinues (Written.octets [Octet.rparen]) Anything false := by
  refine Reads.look (Written.starts_octets _ _) fun b hb => ?_
  obtain rfl : b = Octet.rparen := hb
  exact (consume_reads _).map _

theorem oneOrMore_reads {x : Decoder α} {element : α → Language Sent} (hx : Forward x)
    (xs : OneOrMore α) (hxs : ∀ a ∈ xs.toList, Reads x (element a) Delimited a) :
    Reads (oneOrMore listContinues x)
      (element xs.head * (Written.spaced element xs.tail * Written.octets [Octet.rparen]))
      Anything xs := by
  have hforward : Forward listContinues :=
    (show Inline 0 {} listContinues from listContinues_inline).forward
  have hend : ∀ u ∈ Written.octets [Octet.rparen], ∀ s, Anything s → Delimited (octets u ++ s) := by
    rintro u rfl s _ b hb
    obtain rfl : Octet.rparen = b := by simpa [plain, octets] using hb
    rfl
  rw [oneOrMore]
  refine (hxs xs.head (List.mem_cons_self ..)).bind ?_ ?_
  · have htail := many_reads listContinues_advances hforward hx listContinues_reads_sp
      listContinues_reads_rparen hend xs.tail
      fun a ha => ⟨hxs a (List.mem_cons_of_mem _ ha), fun _ _ _ => trivial⟩
    exact htail.map _
  · exact fun u hu s _ => delimited_of_mem_spaced (fun v hv s hs => hend v hv s hs) hu trivial

end Decoder

end ImapRequest
