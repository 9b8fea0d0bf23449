import ImapRequest.Calendar.Decode
import ImapRequest.Proofs.Text
import Mathlib

/-!
# Decoders that stay within a line

A decoder is *inline* when it is put together from peeks, rejections, given octets, runs of octets,
numbers, strings and literals, such that no octet of a line break is consumed outside a literal.
Everything between the tag and the line break of a request is decoded inline, so what holds of the
parts and is kept by `do` and by repetition holds of every command (`Inline` is what such proofs are
by induction on).

* `Decoder.Inline` : how inline decoders are put together;
* `Decoder.Inline.look`, `Decoder.ifNext_inline` : an octet is consumed after it was seen;
* `Decoder.Inline.composed` : inline decoders are programs of the operations of a cursor.
-/

namespace ImapRequest

/-- The octets that neither break a line nor start a literal. -/
def Octet.isPlain (b : UInt8) : Bool := b != cr && b != lf && b != lbrace

namespace Octet

/-- A class without the octets of line breaks and the opening brace. -/
theorem isPlain_of_class {p : UInt8 → Bool} (hcr : p cr = false) (hlf : p lf = false)
    (hlbrace : p lbrace = false) (b : UInt8) (h : p b = true) : isPlain b = true := by
  simp only [isPlain, Bool.and_eq_true, bne_iff_ne, ne_eq]
  refine ⟨⟨?_, ?_⟩, ?_⟩ <;> rintro rfl <;> simp_all

end Octet

namespace Decoder

variable {α β : Type}

/-- Decoders that stay within a line, where literals have at most `limit` octets. -/
inductive Inline (limit : Nat) (leniency : Leniency) : {α : Type} → Decoder α → Prop
  | pure {α : Type} (a : α) : Inline limit leniency (pure a)
  | reject {α : Type} (e : DecodingError) : Inline limit leniency (reject e : Decoder α)
  | peek : Inline limit leniency peek
  | isConsumed : Inline limit leniency isConsumed
  | expect (b : UInt8) (hb : Octet.isPlain b = true) : Inline limit leniency (expect b)
  | takeWhile (p : UInt8 → Bool) (hp : ∀ b, p b = true → Octet.isPlain b = true) :
    Inline limit leniency (takeWhile p)
  | digits : Inline limit leniency digits
  | quotedToken : Inline limit leniency quotedToken
  | quoted (charset : Charset) : Inline limit leniency (quoted charset)
  | literalOctets (ctx : Context) (hlimit : ctx.maxLiteral = limit)
    (hleniency : ctx.leniency = leniency) : Inline limit leniency (literalOctets ctx)
  | bind {α β : Type} {x : Decoder α} {f : α → Decoder β} (hx : Inline limit leniency x)
    (hf : ∀ a, Inline limit leniency (f a)) : Inline limit leniency (x >>= f)
  | many {α : Type} {more : Decoder Bool} {element : Decoder α} (hadvances : Advances more)
    (hmore : Inline limit leniency more) (helement : Inline limit leniency element) :
    Inline limit leniency (many more element)

theorem Inline.composed {limit : Nat} {leniency : Leniency} {x : Decoder α}
    (h : Inline limit leniency x) : Composed True True x := by
  induction h with
  | pure a => exact .pure a
  | reject e => exact .reject e
  | peek => exact .peek
  | isConsumed => exact .isConsumed
  | expect b => exact .expect b
  | takeWhile p => exact .takeWhile p
  | digits => exact .digits
  | quotedToken =>
    exact (Composed.expect _).bind fun _ => (Composed.takeWhile _).bind fun _ =>
      (Composed.expect _).bind fun _ => .pure _
  | quoted charset => exact .quoted charset
  | literalOctets ctx => exact .literalOctets trivial trivial ctx
  | bind _ _ ihx ihf => exact ihx.bind ihf
  | many _ _ _ ihmore ihelement => exact ihmore.many ihelement

theorem Inline.forward {limit : Nat} {leniency : Leniency} {x : Decoder α}
    (h : Inline limit leniency x) : Forward x := h.composed.forward

/-- Where `b` is the next octet, the decoder does what some inline decoder does. -/
def InlineAt (limit : Nat) (leniency : Leniency) (b : UInt8) (x : Decoder α) : Prop :=
  ∃ y, Inline limit leniency y ∧ ∀ c : Cursor, c.peek = .ok b → x c = y c

section

variable {limit : Nat} {leniency : Leniency} {b : UInt8} {x y : Decoder α}

theorem peek_of_peek {c : Cursor} (h : c.peek = .ok b) : peek c = (.ok b, c) := by
  simp only [peek, ofIo, h]
  rfl

theorem consume_of_peek {c : Cursor} (h : c.peek = .ok b) : consume c = (.ok b, c.advance 1) := by
  simp only [consume, ofIo, Cursor.consume, h]
  rfl

theorem expect_of_peek {c : Cursor} (h : c.peek = .ok b) : expect b c = (.ok (), c.advance 1) := by
  rw [expect, bind_of_ok (peek_of_peek h), if_pos (beq_self_eq_true b),
    bind_of_ok (consume_of_peek h)]
  rfl

theorem Inline.at (h : Inline limit leniency x) : InlineAt limit leniency b x :=
  ⟨x, h, fun _ _ => rfl⟩

/-- An octet that was seen is consumed. -/
theorem InlineAt.consume (hb : Octet.isPlain b = true) (h : Inline limit leniency x) :
    InlineAt limit leniency b (do let _ ← consume; x) := by
  refine ⟨_, .bind (.expect b hb) fun _ => h, fun c hc => ?_⟩
  rw [bind_of_ok (consume_of_peek hc), bind_of_ok (expect_of_peek hc)]

theorem Inline.look {f : UInt8 → Decoder α} (h : ∀ b, InlineAt limit leniency b (f b)) :
    Inline limit leniency (Decoder.peek >>= f) := by
  obtain ⟨g, hg⟩ := Classical.axiomOfChoice h
  have heq : Decoder.peek >>= f = Decoder.peek >>= g := by
    funext c
    refine bind_congr_at fun b d hd => ?_
    cases hc : c.peek with
    | error e => simp [Decoder.peek, ofIo, hc, Except.mapError] at hd
    | ok b' =>
      rw [peek_of_peek hc] at hd
      obtain ⟨rfl, rfl⟩ : b' = b ∧ c = d := by simpa using hd
      exact (hg b').2 c hc
  rw [heq]
  exact .bind .peek fun b => (hg b).1

/-- One branch for a given octet, which it may consume. -/
theorem InlineAt.ite {expected : UInt8} (hx : b = expected → InlineAt limit leniency b x)
    (hy : InlineAt limit leniency b y) :
    InlineAt limit leniency b (if b == expected then x else y) := by
  by_cases h : b = expected
  · rw [if_pos (by simpa using h)]
    exact hx h
  · rw [if_neg (by simpa using h)]
    exact hy

theorem Inline.ite {p : Prop} [Decidable p] (hx : Inline limit leniency x)
    (hy : Inline limit leniency y) : Inline limit leniency (if p then x else y) := by
  split
  · exact hx
  · exact hy

theorem Inline.map (f : α → β) (hx : Inline limit leniency x) :
    Inline limit leniency (do return f (← x)) :=
  .bind hx fun a => .pure (f a)

theorem Inline.ofExcept (r : Except DecodingError α) : Inline limit leniency (ofExcept r) := by
  cases r with
  | ok a => exact .pure a
  | error e => exact .reject e

/-! ### Octets and runs of octets -/

theorem sp_inline : Inline limit leniency sp :=
  .look fun _ => .ite (fun h => .consume (h ▸ rfl) (.pure ())) (Inline.at (.reject _))

theorem nextIs_inline (b : UInt8) : Inline limit leniency (nextIs b) :=
  .bind .isConsumed fun _ => .ite (.pure false) (.bind .peek fun _ => .pure _)

theorem peek_of_nextIs {c d : Cursor} (h : nextIs b c = (.ok true, d)) :
    c.peek = .ok b ∧ d = c := by
  change (if c.isConsumed = true then Pure.pure false else
    Decoder.peek >>= fun a => Pure.pure (a == b) : Decoder Bool) c = (.ok true, d) at h
  split at h
  · simp [pure_apply] at h
  · cases hpeek : c.peek with
    | error e =>
      have hfail : peek c = (.error (.io e), c) := by simp only [peek, ofIo, hpeek]; rfl
      simp [bind_of_error hfail] at h
    | ok b' =>
      rw [bind_of_ok (peek_of_peek hpeek), pure_apply] at h
      simp only [Prod.mk.injEq, Except.ok.injEq, beq_iff_eq] at h
      exact ⟨by rw [h.1], h.2.symm⟩

/-- Where a given octet was asked for and is there, it is consumed. -/
theorem ifNext_inline (hb : Octet.isPlain b = true) (hx : Inline limit leniency x)
    (hy : Inline limit leniency y) :
    Inline limit leniency (do
      if ← nextIs b then
        let _ ← consume
        x
      else
        y) := by
  have heq : (do if ← nextIs b then (do let _ ← consume; x) else y) =
      (do if ← nextIs b then (do expect b; x) else y) := by
    funext c
    refine bind_congr_at fun t d hd => ?_
    cases t with
    | false => rfl
    | true =>
      obtain ⟨hpeek, rfl⟩ := peek_of_nextIs hd
      simp only [↓reduceIte]
      rw [bind_of_ok (consume_of_peek hpeek), bind_of_ok (expect_of_peek hpeek)]
  rw [heq]
  exact .bind (nextIs_inline b) fun t => .ite (.bind (.expect b hb) fun _ => hx) hy

theorem listContinues_inline : Inline limit leniency listContinues :=
  .look fun _ => .ite (fun h => .consume (h ▸ rfl) (.pure true)) <|
    .ite (fun h => .consume (h ▸ rfl) (.pure false)) (Inline.at (.reject _))

theorem takeWhile1_inline {p : UInt8 → Bool} (hp : ∀ b, p b = true → Octet.isPlain b = true)
    (expected : String) : Inline limit leniency (takeWhile1 p expected) :=
  .bind (.takeWhile p hp) fun _ => .ite (.bind .peek fun _ => .reject _) (.pure _)

theorem keyword_inline : Inline limit leniency keyword :=
  .map _ (takeWhile1_inline (Octet.isPlain_of_class rfl rfl rfl) _)

theorem token_inline (kind : TokenKind) (read : List UInt8 → Except TokenFault α)
    (octets : List UInt8) : Inline limit leniency (token kind read octets) := by
  unfold token
  split
  · exact .pure _
  · exact .reject _

theorem listContinues_advances : Advances listContinues := by
  intro c e hc he
  cases h : c.rest with
  | nil =>
    obtain ⟨f, hf⟩ := peek_of_nil h
    simp [listContinues, bind_of_error hf] at he
  | cons b bs =>
    rw [listContinues, bind_of_ok (peek_of_rest hc h)] at he
    split at he
    · rw [bind_of_ok (consume_of_rest hc h), pure_apply] at he
      obtain rfl : c.advance 1 = e := congrArg Prod.snd he
      simp [h]
    split at he
    · rw [bind_of_ok (consume_of_rest hc h), pure_apply] at he
      simp at he
    · simp [unexpected, reject, fail] at he

/-- A given octet that was asked for and is there announces more. -/
theorem ifNext_advances (b : UInt8) {x : Decoder Bool} (hx : Forward x) :
    Advances (do
      if ← nextIs b then
        let _ ← consume
        x
      else
        return false) := by
  intro c e hc he
  rw [bind_of_ok (nextIs_apply hc b)] at he
  split at he
  · rename_i hhead
    obtain ⟨s, h⟩ : ∃ s, c.rest = b :: s := by simpa [List.head?_eq_some_iff] using hhead
    rw [bind_of_ok (consume_of_rest hc h)] at he
    have hle : e.rest.length ≤ (c.advance 1).rest.length :=
      hx.length_le_of_run (hc.advance 1) he
    simp [h] at hle ⊢
    omega
  · simp [pure_apply] at he

theorem oneOrMore_inline {more : Decoder Bool} (hadvances : Advances more)
    (hmore : Inline limit leniency more) (hx : Inline limit leniency x) :
    Inline limit leniency (oneOrMore more x) :=
  .bind hx fun _ => .bind (.many hadvances hmore hx) fun _ => .pure _

/-! ### Numbers -/

theorem number_inline : Inline limit leniency number :=
  .bind .digits fun _ => .bind .isConsumed fun _ => .ite (.pure _) <|
    .bind .peek fun _ => .ite (.pure _) (.reject _)

theorem positive_inline : Inline limit leniency positive :=
  .bind number_inline fun _ => .ite (.reject _) (.pure _)

end

/-! ### Strings -/

variable (ctx : Context)

theorem literal_inline : Inline ctx.maxLiteral ctx.leniency (literal ctx) :=
  .bind (.literalOctets ctx rfl rfl) fun _ => .ofExcept _

theorem wordOrString_inline {p : UInt8 → Bool}
    (hp : ∀ b, p b = true → Octet.isPlain b = true) (expected : String) :
    Inline ctx.maxLiteral ctx.leniency (wordOrString p expected ctx) :=
  .bind .peek fun _ => .ite (.quoted _) <| .ite (literal_inline ctx) <|
    .map _ (takeWhile1_inline hp _)

theorem astring_inline : Inline ctx.maxLiteral ctx.leniency (astring ctx) :=
  wordOrString_inline ctx (Octet.isPlain_of_class rfl rfl rfl) _

theorem charset_inline : Inline ctx.maxLiteral ctx.leniency (charset ctx) := by
  refine .bind (astring_inline { ctx with charset := .usAscii }) fun label => ?_
  split
  · exact .pure _
  · exact .reject _

end Decoder

end ImapRequest
