import ImapRequest.Proofs.Grammar.Sets

/-!
# Ranges and sets are read back from their texts

A bound is printed in decimal digits, of which the first is not zero, or as `*`; neither has a colon
or a comma, so the text is cut exactly where ranges and bounds were put together.  What is read is
normalized and merged once more, which changes nothing: the two bounds of a range are in ascending
order, and the ranges of a set are sorted without common numbers.

* `IdRange.boundOfChars_boundChars` : decimal digits are read as the number that they are printed
  for;
* `IdRange.pieces_intercalate` : what is joined by a separator is cut into the same pieces;
* `SequenceSet.read_back` : texts of ranges and sets, by themselves and in requests.
-/

namespace ImapRequest

namespace IdRange

variable {id : Nat}

/-! ### Bounds -/

/-- By induction on the digits: those in front of the last one are the digits of a smaller
number. -/
theorem head_toDigits_ne_zero (n : Nat) (hn : n ≠ 0) : (Nat.toDigits 10 n).head? ≠ some '0' := by
  have hdigit : ∀ n < 10, n ≠ 0 → Nat.digitChar n ≠ '0' := by decide
  induction n using Nat.strongRecOn with
  | ind n ih =>
    by_cases hsmall : n < 10
    · rw [Nat.toDigits_of_lt_base hsmall]
      exact fun h => hdigit n hsmall hn (Option.some.inj h)
    · rw [Nat.toDigits_of_base_le (by decide) (Nat.le_of_not_lt hsmall),
        List.head?_append_of_ne_nil _ Nat.toDigits_ne_nil]
      exact ih (n / 10) (by omega) (by omega)

theorem all_toDigits (n : Nat) : (Nat.toDigits 10 n).all Char.isDigit = true :=
  List.all_eq_true.2 fun _ h => Nat.isDigit_of_mem_toDigits (by decide) (by decide) h

/-- The characters of a bound are digits or `*`. -/
theorem not_mem_boundChars {ch : Char} (hdigit : ch.isDigit = false) (hstar : ch ≠ '*') :
    ch ∉ boundChars id := by
  intro h
  rw [boundChars] at h
  split at h
  · exact hstar (List.mem_singleton.1 h)
  · simp [List.all_eq_true.1 (all_toDigits id) ch h] at hdigit

theorem boundOfChars_boundChars (hid : id ≠ 0) (hmax : id ≤ maxId) :
    boundOfChars (boundChars id) = .ok id := by
  rw [boundChars]
  split
  · rename_i h
    rw [h]
    rfl
  · have hstar : Nat.toDigits 10 id ≠ ['*'] := by
      intro h
      have hall := all_toDigits id
      rw [h] at hall
      exact absurd hall (by decide)
    have hvalue : Nat.ofDigitChars 10 (Nat.toDigits 10 id) 0 = id :=
      Nat.ofDigitChars_toDigits (by decide) (by decide)
    rw [boundOfChars, if_neg Nat.toDigits_ne_nil, if_neg hstar,
      if_neg fun h => head_toDigits_ne_zero id hid h.1, if_pos (all_toDigits id)]
    simp only [hvalue, if_pos hmax]

/-! ### Ranges -/

theorem ofChars_chars (r : IdRange) : ofChars r.chars = .ok r := by
  have hlow : boundOfChars (boundChars r.low) = .ok r.low :=
    boundOfChars_boundChars (Nat.ne_of_gt r.one_le_low) (Nat.le_trans r.low_le_high r.high_le_maxId)
  have hhigh : boundOfChars (boundChars r.high) = .ok r.high :=
    boundOfChars_boundChars (Nat.ne_of_gt (Nat.le_trans r.one_le_low r.low_le_high)) r.high_le_maxId
  have hcolon : ∀ {id : Nat}, ':' ∉ boundChars id := not_mem_boundChars rfl (by decide)
  have hread := ofBounds_low_high r
  by_cases h : r.low = r.high
  · rw [← h] at hread
    rw [ofChars, chars, if_pos h, pieces_of_not_mem hcolon]
    simp only [hlow]
    exact hread
  · rw [ofChars, chars, if_neg h, pieces_append hcolon, pieces_of_not_mem hcolon]
    simp only [hlow, hhigh]
    exact hread

theorem comma_not_mem_chars (r : IdRange) : ',' ∉ r.chars := by
  have hcomma : ∀ {id : Nat}, ',' ∉ boundChars id := not_mem_boundChars rfl (by decide)
  rw [chars]
  split
  · exact hcomma
  · simp [hcomma]

/-! ### Pieces -/

theorem pieces_intercalate {separator : Char} {css : List (List Char)} (hne : css ≠ [])
    (h : ∀ cs ∈ css, separator ∉ cs) : pieces separator ([separator].intercalate css) = css := by
  induction css with
  | nil => exact absurd rfl hne
  | cons cs css ih =>
    obtain ⟨hcs, hcss⟩ := List.forall_mem_cons.1 h
    cases css with
    | nil => exact (congrArg _ (List.intercalate_singleton ..)).trans (pieces_of_not_mem hcs)
    | cons next css =>
      rw [List.intercalate_cons_cons, List.append_assoc, List.singleton_append, pieces_append hcs,
        ih (List.cons_ne_nil _ _) hcss]

end IdRange

namespace SequenceSet

/-! ### Sets -/

theorem mapM_ofChars_chars (rs : List IdRange) :
    (rs.map IdRange.chars).mapM IdRange.ofChars = .ok rs := by
  induction rs with
  | nil => rfl
  | cons r rs ih => exact mapM_cons_eq_ok_iff.2 ⟨r, rs, IdRange.ofChars_chars r, ih, rfl⟩

theorem ofChars_chars (s : SequenceSet) : ofChars s.chars = .ok s := by
  have hpieces : IdRange.pieces ',' s.chars = s.ranges.map IdRange.chars :=
    IdRange.pieces_intercalate (mt List.map_eq_nil_iff.1 s.ranges_ne_nil)
      (List.forall_mem_map.2 fun r _ => r.comma_not_mem_chars)
  rw [ofChars, hpieces, mapM_ofChars_chars]
  exact ofRanges_ranges s

theorem ofText_toText (s : SequenceSet) : ofText s.toText = .ok s := by
  rw [ofText, toText, String.toList_ofList, ofChars_chars]

/-- What is read as a text is one of the tokens that requests may have. -/
theorem octets_mem_token (s : SequenceSet) : Octet.ofText s.toText ∈ s.token := by
  have hread : ofChars s.toText.toList = .ok s := ofText_toText s
  obtain ⟨bs, -, htoList, hbs⟩ := exists_octets (List.all_eq_true.2 (isSetChar_of_ofChars hread))
  rw [htoList] at hread
  rw [hbs]
  exact ofChars_eq_ok_iff.1 hread

/-- Behind the text of a set, where no octet of sets follows, a request is read further. -/
theorem decode_of_text {s : SequenceSet} {t : List UInt8} {c : Cursor}
    (ht : Stops Octet.isSequenceSetChar t) (hc : c.Steady)
    (hrest : c.rest = Octet.ofText s.toText ++ t) :
    decode c = (.ok s, c.advance (Octet.ofText s.toText).length) := by
  obtain ⟨rs, -, helements⟩ := id s.octets_mem_token
  obtain ⟨⟨b, bs, heq, -⟩, hall, -⟩ := elements_of_mem helements
  have hne : Octet.ofText s.toText ≠ [] := heq ▸ List.cons_ne_nil b bs
  rw [decode_of_rest hne hall ht hc hrest, Decoder.token_of_ok (ofToken_of_mem s.octets_mem_token)]
  rfl

/-- The text of a set is read back as the set, with the same ranges in the same order, both by
itself and in a request; and the text of a range as the range. -/
theorem read_back :
    (∀ s : SequenceSet, ofText s.toText = .ok s) ∧
    (∀ (s : SequenceSet) (t : List UInt8) (c : Cursor), Stops Octet.isSequenceSetChar t → c.Steady →
      c.rest = Octet.ofText s.toText ++ t →
      decode c = (.ok s, c.advance (Octet.ofText s.toText).length)) ∧
    ∀ r : IdRange, IdRange.ofText r.toText = .ok r := by
  refine ⟨ofText_toText, fun s t c => decode_of_text, fun r => ?_⟩
  rw [IdRange.ofText, IdRange.toText, String.toList_ofList, IdRange.ofChars_chars]

/-- A set with two neighbours that stay apart, and a range up to the largest number. -/
theorem read_back_neighbours :
    let ranges : List IdRange := [⟨8, 8, by decide, by decide, by decide⟩,
      ⟨9, 10, by decide, by decide, by decide⟩, ⟨100, maxId, by decide, by decide, by decide⟩]
    let s : SequenceSet := ⟨ranges, by decide, by decide⟩
    let c := Cursor.ofOctets (Octet.ofText "8,9:10,100:* FLAGS")
    s.toText = "8,9:10,100:*" ∧ ofText s.toText = .ok s ∧ decode c = (.ok s, c.advance 12) := by
  intro ranges s c
  have htext : s.toText = "8,9:10,100:*" := by decide
  have hdecode :=
    read_back.2.1 s (Octet.ofText " FLAGS") c (Stops.cons rfl _) (Cursor.steady_ofOctets _)
    (by rw [htext]; decide)
  rw [htext] at hdecode
  exact ⟨htext, read_back.1 s, hdecode⟩

end SequenceSet

end ImapRequest
