import ImapRequest.Charset.TextDecoder
import Mathlib.Data.List.Basic

/-!
# What is asked of a library of character sets

The standard of a character set says what each octet completes, and where a text may end.  A library
follows it when every call reads a beginning of its octets like that, and says truly why it stops:
the octets are all read, or malformed, or there is no room for the next character.

* `Standard.run`, `Standard.read` : octets one after the other, and a piece of a text;
* `Transcoder.Follows` : the calls of a library read octets as a standard does;
* `Charset.transcoder_follows` : so do those for the characters that follow a rule;
* `PieceDecoder.feed_standing` : however often the output is full, a piece is read as the standard
  reads it.
-/

namespace ImapRequest

/-- The decoder of a character set as its standard has it. -/
structure Standard where
  /-- Where a text stands between two octets. -/
  State : Type
  start : State
  /-- The text that an octet completes and the state behind it, unless the text is malformed. -/
  step : State → UInt8 → Option (List Char × State)
  /-- Whether a text may end. -/
  mayEnd : State → Bool

namespace Standard

variable {S : Standard} {s : S.State} {as bs : List UInt8} {last : Bool}

/-- The text that octets complete and the state behind them. -/
def run (S : Standard) (s : S.State) : List UInt8 → Option (List Char × S.State)
  | [] => some ([], s)
  | b :: bs =>
    (S.step s b).bind fun r => (S.run r.2 bs).map fun t => (r.1 ++ t.1, t.2)

/-- The octets of a piece; behind the last one the text may end. -/
def read (S : Standard) (s : S.State) (piece : List UInt8) (last : Bool) :
    Option (List Char × S.State) :=
  (S.run s piece).bind fun r => if last && !S.mayEnd r.2 then none else some r

theorem read_false : S.read s as false = S.run s as := by
  rw [read]
  cases S.run s as <;> rfl

/-- Octets give their text behind that of the octets before them. -/
theorem run_append :
    S.run s (as ++ bs) =
      (S.run s as).bind fun r => (S.run r.2 bs).map fun t => (r.1 ++ t.1, t.2) := by
  induction as generalizing s with
  | nil => simp [run]
  | cons a as ih =>
    simp only [List.cons_append, run]
    cases S.step s a with
    | none => rfl
    | some r =>
      simp only [Option.bind_some, ih]
      cases S.run r.2 as with
      | none => rfl
      | some t => cases h : S.run t.2 bs <;> simp [h]

theorem read_append :
    S.read s (as ++ bs) last =
      (S.run s as).bind fun r => (S.read r.2 bs last).map fun t => (r.1 ++ t.1, t.2) := by
  rw [read, run_append]
  cases S.run s as with
  | none => rfl
  | some r =>
    simp only [Option.bind_some, read]
    cases S.run r.2 bs with
    | none => rfl
    | some t =>
      simp only [Option.map_some, Option.bind_some]
      split <;> rfl

theorem read_cons {b : UInt8} {text : List Char} {s' : S.State}
    (h : S.step s b = some (text, s')) :
    S.read s (b :: bs) last = (S.read s' bs last).map fun t => (text ++ t.1, t.2) := by
  have hrun : S.run s [b] = some (text, s') := by simp [run, h]
  rw [← List.singleton_append, read_append, hrun]
  rfl

/-- A piece behind a text in a character set: the text then, and the state. -/
def readBehind (S : Standard) (c : Charset) (text : List Char) (s : S.State) (piece : List UInt8)
    (last : Bool) : Except TextError (List Char × S.State) :=
  match S.read s piece last with
  | some r => .ok (text ++ r.1, r.2)
  | none => .error (.malformed c)

theorem readBehind_append {c : Charset} {text : List Char} :
    S.readBehind c text s (as ++ bs) last =
      S.readBehind c text s as false >>= fun r => S.readBehind c r.1 r.2 bs last := by
  rw [readBehind, readBehind, read_append, read_false]
  cases S.run s as with
  | none => rfl
  | some r =>
    change _ = S.readBehind c (text ++ r.1) r.2 bs last
    rw [readBehind, Option.bind_some]
    cases S.read r.2 bs last with
    | none => rfl
    | some t => simp only [Option.map_some, List.append_assoc]

end Standard

/-- A call reads octets as a standard does, from the state that the standard sees in `s` on. -/
structure Call.Conforms {σ : Type} (call : Call σ) (S : Standard) (view : σ → S.State) (s : σ)
    (bs : List UInt8) (room : Nat) (last : Bool) : Prop where
  /-- The input is empty when all of it was read, and the text may end behind the last octets. -/
  inputEmpty : call.result = .inputEmpty →
    S.read (view s) bs last = some (call.written, view call.state)
  /-- The output is full behind some beginning of the octets. -/
  outputFull : call.result = .outputFull → call.read ≤ bs.length ∧
    S.run (view s) (bs.take call.read) = some (call.written, view call.state)
  /-- Where there is room for a character, the output is full only after an octet was read. -/
  progress : call.result = .outputFull → 4 ≤ room → 0 < call.read
  /-- The octets are malformed when the standard says so. -/
  malformed : call.result = .malformed → S.read (view s) bs last = none

/-- The calls of a library for a character set follow its standard. -/
structure Transcoder.Follows (L : Transcoder) (c : Charset) (S : Standard)
    (view : L.State → S.State) : Prop where
  start : view (L.start c) = S.start
  call : ∀ s bs room last, (L.call c s bs room last).Conforms S view s bs room last

/-! ### Characters that follow a rule -/

namespace Charset

variable {c : Charset} {s s' : State} {b : UInt8} {bs : List UInt8} {text : List Char}

/-- A character set with the characters that follow a rule. -/
abbrev standard (c : Charset) : Standard where
  State := State
  start := {}
  step := c.step
  mayEnd := mayEnd

theorem length_of_iso2022Jp_step (h : Iso2022Jp.step s b = some (text, s')) : text.length ≤ 1 := by
  unfold Iso2022Jp.step at h
  split at h
  · split_ifs at h
    · simp_all
    · simp_all
    · obtain ⟨char, -, hchar⟩ := Option.map_eq_some_iff.1 h
      obtain ⟨rfl, -⟩ := Prod.mk.inj hchar
      exact Nat.le_refl 1
  · simp_all
  · grind

/-- An octet completes one character at most. -/
theorem length_of_step (h : c.step s b = some (text, s')) : text.length ≤ 1 := by
  unfold step at h
  split at h
  · exact length_of_iso2022Jp_step h
  · split at h
    · obtain ⟨rfl, -⟩ : [_] = text ∧ _ := by simpa using h
      exact Nat.le_refl 1
    · obtain ⟨rfl, -⟩ : [] = text ∧ _ := by simpa using h
      exact Nat.zero_le 1
    · cases h

theorem size_of_step (h : c.step s b = some (text, s')) : TextBuffer.size text ≤ 4 := by
  have hlength := length_of_step h
  match text with
  | [] => exact Nat.zero_le 4
  | [char] => simpa [TextBuffer.size] using char.utf8Size_le_four
  | _ :: _ :: _ => simp at hlength

/-- A call that goes on behind an octet has read the octet as well. -/
theorem conforms_after {call : Call State} {room room' : Nat} {last : Bool}
    (hstep : c.step s b = some (text, s')) (h : call.Conforms c.standard id s' bs room last) :
    (after text call).Conforms c.standard id s (b :: bs) room' last where
  inputEmpty hresult :=
    (Standard.read_cons hstep).trans (congrArg _ (h.inputEmpty hresult))
  outputFull hresult := by
    obtain ⟨hread, hrun⟩ := h.outputFull hresult
    refine ⟨Nat.succ_le_succ hread, ?_⟩
    change c.standard.run s (b :: bs.take call.read) = _
    rw [← Standard.read_false] at hrun ⊢
    exact (Standard.read_cons hstep).trans (congrArg _ hrun)
  progress _ _ := Nat.succ_pos _
  malformed hresult :=
    (Standard.read_cons hstep).trans (congrArg _ (h.malformed hresult))

/-- By induction on the octets. -/
theorem convert_conforms (c : Charset) (s : State) (bs : List UInt8) (room : Nat) (last : Bool) :
    (c.convert s bs room last).Conforms c.standard id s bs room last := by
  induction bs generalizing s room with
  | nil =>
    rw [convert]
    cases last <;> cases hend : mayEnd s <;> constructor <;>
      simp [hend, Standard.read, Standard.run]
  | cons b bs ih =>
    rw [convert]
    split
    · rename_i hstep
      have hread : c.standard.read s (b :: bs) last = none := by
        simp [Standard.read, Standard.run, hstep]
      constructor
      case malformed => exact fun _ => hread
      all_goals exact fun h => nomatch h
    · rename_i text s' hstep
      split
      · rename_i hroom
        have hsize := size_of_step hstep
        constructor
        case outputFull => exact fun _ => ⟨Nat.zero_le _, rfl⟩
        case progress => exact fun _ h => absurd h (by omega)
        all_goals exact fun h => nomatch h
      · exact conforms_after hstep (ih s' _)

theorem transcoder_follows (c : Charset) : transcoder.Follows c c.standard id where
  start := rfl
  call := c.convert_conforms

end Charset

/-! ### Calls that are repeated -/

namespace PieceDecoder

variable {L : Transcoder} {S : Standard} {view : L.State → S.State} {d d' : PieceDecoder L}
  {piece : List UInt8} {last : Bool}

/-- The text of a decoder and the state of the standard. -/
def standing (view : L.State → S.State) (d : PieceDecoder L) : List Char × S.State :=
  (d.output.text, view d.state)

@[simp] theorem charset_grow (d : PieceDecoder L) : d.grow.charset = d.charset := rfl

@[simp] theorem standing_grow (d : PieceDecoder L) : d.grow.standing view = d.standing view := rfl

@[simp] theorem charset_advance (d : PieceDecoder L) (call : Call L.State) :
    (d.advance call).charset = d.charset := rfl

/-- An output that was full has room for a character. -/
theorem minGrowth_le_room (d : PieceDecoder L) : minGrowth ≤ d.grow.output.room := by
  change minGrowth ≤ max d.output.capacity (TextBuffer.size d.output.text +
    max d.output.capacity minGrowth) - TextBuffer.size d.output.text
  omega

/-- The calls that a piece may take: one for each octet, one that finds nothing left, and one more
that finds no room at all. -/
def callsFor (d : PieceDecoder L) (piece : List UInt8) : Nat :=
  if d.output.room < 4 then piece.length + 2 else piece.length + 1

theorem callsFor_le (d : PieceDecoder L) (piece : List UInt8) :
    d.callsFor piece ≤ piece.length + 2 := by
  unfold callsFor
  split <;> omega

/-- By induction on the calls that may be made.  Those behind a full output find room, so each of
them reads an octet or is the last. -/
theorem convertUpTo_standing (hL : L.Follows d.charset S view) (limit : Nat)
    (hlimit : d.callsFor piece ≤ limit) :
    standing view <$> convertUpTo limit d piece last =
      S.readBehind d.charset d.output.text (view d.state) piece last := by
  induction limit generalizing d piece with
  | zero => unfold callsFor at hlimit; split at hlimit <;> omega
  | succ limit ih =>
    rw [convertUpTo, Standard.readBehind]
    have hcall := hL.call d.state piece d.output.room last
    generalize L.call d.charset d.state piece d.output.room last = call at hcall
    cases hresult : call.result with
    | inputEmpty =>
      rw [hcall.inputEmpty hresult]
      rfl
    | malformed =>
      rw [hcall.malformed hresult]
      rfl
    | outputFull =>
      obtain ⟨hread, hrun⟩ := hcall.outputFull hresult
      have hprogress := hcall.progress hresult
      have hroom := minGrowth_le_room (d.advance call)
      have hlimit' : (d.advance call).grow.callsFor (piece.drop call.read) ≤ limit := by
        rw [callsFor, if_neg (by rw [minGrowth] at hroom; omega), List.length_drop]
        unfold callsFor at hlimit
        split at hlimit <;> omega
      have hpiece : S.read (view d.state) piece last =
          (S.read (view call.state) (piece.drop call.read) last).map
            fun t => (call.written ++ t.1, t.2) := by
        conv_lhs => rw [← List.take_append_drop call.read piece]
        rw [Standard.read_append, hrun, Option.bind_some]
      refine (ih (d := (d.advance call).grow) hL hlimit').trans ?_
      rw [hpiece]
      change S.readBehind _ (d.output.text ++ call.written) (view call.state) _ last = _
      rw [Standard.readBehind]
      cases S.read (view call.state) (piece.drop call.read) last with
      | none => rfl
      | some t => simp only [Option.map_some, List.append_assoc]

/-- The bound on the calls has no part in the answer. -/
theorem convertUpTo_of_callsFor_le (hL : L.Follows d.charset S view) {limit : Nat}
    (hlimit : d.callsFor piece ≤ limit) :
    standing view <$> convertUpTo limit d piece last =
      standing view <$> convertUpTo (piece.length + 2) d piece last :=
  (convertUpTo_standing hL limit hlimit).trans
    (convertUpTo_standing hL _ (d.callsFor_le piece)).symm

theorem feed_standing (hcharset : d.charset ≠ .usAscii) (hL : L.Follows d.charset S view) :
    standing view <$> d.feed piece last =
      S.readBehind d.charset d.output.text (view d.state) piece last := by
  rw [feed, if_neg hcharset]
  exact convertUpTo_standing hL _ (d.callsFor_le piece)

end PieceDecoder

end ImapRequest
