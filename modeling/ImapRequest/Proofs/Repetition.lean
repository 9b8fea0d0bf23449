import ImapRequest.Proofs.Grammar.Criteria
import ImapRequest.Proofs.Grammar.Sections

/-!
# Repetition that ends by itself

Every repetition has a bound, by recursion on which it is defined: the number of octets that are
left, or one more.  Each round but the last one takes at least one octet.  So a repetition ends
because of what it reads, and more rounds than the bound allows would not be made.

* `Decoder.skipBlanksUpTo_endsItself`, `Decoder.takeWhileUpTo_endsItself`,
  `Decoder.digitsUpTo_endsItself` : octets one by one;
* `Decoder.takeWindows_endsItself` : octets window by window;
* `SequenceSet.readRanges_add`, `SectionKind.readPath_add` : the parts of a token;
* `Request.Ends`, `Request.ends` : all repetitions that take part in the decoding of a request.
-/

namespace ImapRequest

namespace Decoder

/-! ### Octets -/

theorem takeWhileUpTo_endsItself (p : UInt8 → Bool) : EndsItself 0 (takeWhileUpTo p) := by
  intro c extra hc
  exact (takeWhileUpTo_apply p _ hc (Nat.le_add_right _ _)).trans
    (takeWhileUpTo_apply p _ hc (Nat.le_refl _)).symm

theorem digitsUpTo_endsItself : EndsItself 0 fun limit => digitsUpTo limit 0 0 := by
  intro c extra hc
  have hmore : c.rest.length ≤ c.rest.length + 0 + extra := Nat.le_add_right _ _
  rcases exists_digits 0 (Nat.zero_le _) c.rest with
    ⟨ds, s, hrest, hds, hle, hs⟩ | ⟨ds, b, s, hrest, hds, hb, hle, hlt⟩
  · exact (digitsUpTo_of_le ds hc hrest hds hle hs hmore).trans
      (digitsUpTo_of_le ds hc hrest hds hle hs (Nat.le_refl _)).symm
  · exact (digitsUpTo_of_lt ds hc hrest hds hb hle hlt hmore).trans
      (digitsUpTo_of_lt ds hc hrest hds hb hle hlt (Nat.le_refl _)).symm

theorem skipBlanksUpTo_endsItself : EndsItself 0 skipBlanksUpTo := by
  refine endsItself_of_rounds (x := fun limit (_ : Unit) => skipBlanksUpTo limit)
    (fun _ _ c _ hrest => ?_) (fun m n _ c hc hround => ?_) ()
  · obtain ⟨io, hpeek⟩ := peek_of_nil hrest
    dsimp only [skipBlanksUpTo]
    rw [bind_of_error hpeek, hpeek]
  · dsimp only [skipBlanksUpTo]
    cases hrest : c.rest with
    | nil =>
      obtain ⟨io, hpeek⟩ := peek_of_nil hrest
      rw [bind_of_error hpeek, bind_of_error hpeek]
    | cons b s =>
      rw [bind_of_ok (peek_of_rest hc hrest), bind_of_ok (peek_of_rest hc hrest)]
      split
      · rw [bind_of_ok (consume_of_rest hc hrest), bind_of_ok (consume_of_rest hc hrest)]
        exact hround () _ (hc.advance 1) (by simp [hrest])
      · rfl

theorem ofIo_injective {α : Type} :
    Function.Injective (ofIo : Except IoError α × Cursor → Except Failure α × Cursor) := by
  rintro ⟨r, c⟩ ⟨r', c'⟩ h
  obtain ⟨hr, rfl⟩ := Prod.mk.inj h
  cases r <;> cases r' <;> simp_all [Except.mapError]

/-- A source that shows an octet has one. -/
theorem length_pos_of_shown {c : Cursor} {b : UInt8} {bs : List UInt8}
    (h : c.shown = .ok (b :: bs)) : 0 < c.rest.length := by
  refine List.length_pos_iff.2 fun hnil => ?_
  unfold Cursor.shown at h
  split at h
  · split at h
    · simp at h
    · simp [hnil] at h
  · simp [hnil] at h

theorem takeWindows_endsItself (short : IoError) (count : Nat) :
    EndsItself 1 fun limit c => ofIo (Cursor.takeWindows short limit count c) := by
  refine endsItself_of_rounds
    (x := fun limit count c => ofIo (Cursor.takeWindows short limit count c))
    (fun h => absurd h (by decide)) (fun m n count c hc hround => congrArg ofIo ?_) count
  cases count with
  | zero => rfl
  | succ count =>
    rw [Cursor.takeWindows, Cursor.takeWindows]
    cases hshown : c.shown with
    | error e => rfl
    | ok window =>
      cases window with
      | nil => rfl
      | cons b bs =>
        have hpos := length_pos_of_shown hshown
        have hlt : (c.advance ((b :: bs).take (count + 1)).length).rest.length < c.rest.length := by
          rw [Cursor.rest_advance, List.length_drop, List.length_take, List.length_cons]
          omega
        dsimp only
        rw [ofIo_injective (hround (count + 1 - ((b :: bs).take (count + 1)).length) _
          (hc.advance _) hlt)]

end Decoder

/-! ### Parts of a token -/

/-- By induction on the octets, of which there are fewer behind the separator after an element. -/
theorem TokenReader.Takes.readSeparated_of_le {α : Type} {b : UInt8} {x : TokenReader α}
    {element : α → Language UInt8} (hx : Takes x element)
    (hnil : ∃ left, x [] = .error left) (n : Nat) :
    ∀ {bs : List UInt8} (extra : Nat), bs.length ≤ n →
      readSeparated b x (n + extra) bs = readSeparated b x n bs := by
  induction n with
  | zero =>
    intro bs extra hn
    obtain rfl : bs = [] := List.length_eq_zero_iff.1 (Nat.le_zero.1 hn)
    obtain ⟨left, hleft⟩ := hnil
    rw [readSeparated_of_error hleft, readSeparated_of_error hleft]
  | succ n ih =>
    intro bs extra hn
    rw [Nat.add_right_comm]
    cases hread : x bs with
    | error left => rw [readSeparated_of_error hread, readSeparated_of_error hread]
    | ok p =>
      obtain ⟨a, rest⟩ := p
      obtain ⟨us, -, rfl⟩ := hx hread
      by_cases hseparator : rest.head? = some b
      · obtain ⟨after, rfl⟩ := List.head?_eq_some_iff.1 hseparator
        have hlen : after.length ≤ n := by
          rw [List.length_append, List.length_cons] at hn
          omega
        rw [readSeparated_of_separator hread, readSeparated_of_separator hread, ih extra hlen]
      · rw [readSeparated_of_ne hread hseparator, readSeparated_of_ne hread hseparator]

theorem SequenceSet.readRanges_add (bs : List UInt8) (extra : Nat) :
    readRanges (bs.length + extra) bs = readRanges bs.length bs := by
  rw [readRanges_eq, readRanges_eq]
  exact readRange_takes.readSeparated_of_le ⟨[], rfl⟩ _ extra (Nat.le_refl _)

theorem SectionKind.readPath_add (bs : List UInt8) (extra : Nat) :
    readPath (bs.length + extra) bs = readPath bs.length bs := by
  rw [readPath_eq, readPath_eq]
  exact SequenceSet.readNumber_takes.readSeparated_of_le ⟨[], rfl⟩ _ extra (Nat.le_refl _)

/-! ### Requests -/

namespace Request

open Decoder

/-- Every repetition that takes part in the decoding of a request ends by itself. -/
structure Ends (ctx : Context) : Prop where
  blanks : EndsItself 0 skipBlanksUpTo
  words (p : UInt8 → Bool) : EndsItself 0 (takeWhileUpTo p)
  digits : EndsItself 0 fun limit => digitsUpTo limit 0 0
  quoted (d : TextDecoder) (piece : List UInt8) : EndsItself 1 fun limit => quotedUpTo limit d piece
  windows (short : IoError) (count : Nat) :
    EndsItself 1 fun limit c => ofIo (Cursor.takeWindows short limit count c)
  /-- Elements in parentheses. -/
  lists {α : Type} (element : Decoder α) (forward : Forward element) :
    EndsItself 1 (manyUpTo listContinues element)
  flags : EndsItself 1 (manyUpTo Flag.bareContinues Flag.decode)
  keys : EndsItself 1 (manyUpTo (SearchKey.criteriaContinue ctx.leniency) (SearchKey.decode ctx 1))
  ranges (token : List UInt8) (extra : Nat) :
    SequenceSet.readRanges (token.length + extra) token = SequenceSet.readRanges token.length token
  path (token : List UInt8) (extra : Nat) :
    SectionKind.readPath (token.length + extra) token = SectionKind.readPath token.length token
  discarded (a : Announcement) : EndsItself 0 fun limit => discardUpTo limit a

theorem ends (ctx : Context) : Ends ctx where
  blanks := skipBlanksUpTo_endsItself
  words := takeWhileUpTo_endsItself
  digits := digitsUpTo_endsItself
  quoted := quotedUpTo_endsItself
  windows := takeWindows_endsItself
  lists _ forward := by
    have hmore : Inline 0 {} listContinues := listContinues_inline
    exact manyUpTo_endsItself listContinues_advances hmore.forward forward
  flags := by
    have hmore : Inline 0 {} Flag.bareContinues := Flag.bareContinues_inline
    exact manyUpTo_endsItself Flag.bareContinues_advances hmore.forward Flag.decode_forward
  keys := manyUpTo_endsItself (SearchKey.criteriaContinue_advances ctx.leniency)
    (SearchKey.criteriaContinue_forward ctx.leniency) (SearchKey.decode_forward ctx 1)
  ranges := SequenceSet.readRanges_add
  path := SectionKind.readPath_add
  discarded := discardUpTo_endsItself

end Request

end ImapRequest
