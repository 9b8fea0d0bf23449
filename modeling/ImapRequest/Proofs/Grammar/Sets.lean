import ImapRequest.Proofs.Coverage
import ImapRequest.Proofs.Grammar.Values
import ImapRequest.Sequence.Text

/-!
# The grammar of sets of message numbers

```
set = element *("," element)
element = bound [":" bound]
bound = "*" / nz-number
```

Sets are read from the octets of a request, from left to right, and from texts, which are cut at
their commas and colons first.  Both read exactly the words of one grammar, and so they agree.

* `TokenReader.Takes`, `TokenReader.exists_of_readSeparated` : a reader of tokens reads nothing but
  the words of a language;
* `SequenceSet.ofToken_eq_ok_iff`, `SequenceSet.ofChars_eq_ok_iff` : the two readers and the
  grammar;
* `SequenceSet.Element` : elements as they are written, and the numbers that they stand for;
* `SequenceSet.readings_agree` : both readers accept the same texts as the same sets.
-/

namespace ImapRequest

namespace TokenReader

/-! ### Words of a grammar and nothing else -/

/-- Whatever is read is a word of the language of its value. -/
def Takes {α : Type} (x : TokenReader α) (L : α → Language UInt8) : Prop :=
  ∀ ⦃bs : List UInt8⦄ ⦃a : α⦄ ⦃rest : List UInt8⦄, x bs = .ok (a, rest) →
    ∃ us ∈ L a, bs = us ++ rest

section Separated

variable {α : Type} {b : UInt8} {element : α → Language UInt8} {as : List α} {us vs : List UInt8}

theorem mem_separated_cons_cons {a next : α} :
    us ∈ separated b element (a :: next :: as) ↔
      ∃ ts ∈ element a, ∃ ws ∈ separated b element (next :: as), us = ts ++ b :: ws := by
  constructor
  · rintro ⟨ts, hts, _, ⟨_, rfl, ws, hws, rfl⟩, rfl⟩
    exact ⟨ts, hts, ws, hws, rfl⟩
  · rintro ⟨ts, hts, ws, hws, rfl⟩
    exact ⟨ts, hts, _, ⟨_, rfl, ws, hws, rfl⟩, rfl⟩

/-- Without a separator there is one element. -/
theorem mem_separated_of_not_mem (hus : b ∉ us) :
    us ∈ separated b element as ↔ ∃ a, as = [a] ∧ us ∈ element a := by
  constructor
  · intro h
    cases as with
    | nil => exact absurd h (Language.notMem_zero us)
    | cons a as =>
      cases as with
      | nil => exact ⟨a, rfl, h⟩
      | cons next as =>
        obtain ⟨ts, -, ws, -, rfl⟩ := mem_separated_cons_cons.1 h
        exact absurd (List.mem_append_right ts (List.mem_cons_self ..)) hus
  · rintro ⟨a, rfl, h⟩
    exact h

/-- The first separator ends the first element. -/
theorem mem_separated_append (helement : ∀ a, ∀ us ∈ element a, b ∉ us) (hus : b ∉ us) :
    us ++ b :: vs ∈ separated b element as ↔
      ∃ a rest, as = a :: rest ∧ us ∈ element a ∧ vs ∈ separated b element rest := by
  constructor
  · intro h
    cases as with
    | nil => exact absurd h (Language.notMem_zero _)
    | cons a as =>
      cases as with
      | nil => exact absurd (List.mem_append_right us (List.mem_cons_self ..)) (helement a _ h)
      | cons next as =>
        obtain ⟨ts, hts, ws, hws, heq⟩ := mem_separated_cons_cons.1 h
        -- What is in front of the first separator is the same on both sides.
        have hfront : ∀ {xs ys : List UInt8}, b ∉ xs →
            (xs ++ b :: ys).takeWhile (fun b' => decide (b' ≠ b)) = xs := fun hxs =>
          Decoder.takeWhile_run (fun b' hb' => decide_eq_true fun h => hxs (h ▸ hb'))
            fun b' hb' => by simpa using hb'.symm
        obtain rfl : us = ts := by rw [← hfront hus, heq, hfront (helement a ts hts)]
        obtain rfl := (List.cons.inj (List.append_cancel_left heq)).2
        exact ⟨a, next :: as, rfl, hts, hws⟩
  · rintro ⟨a, as, rfl, hus, hvs⟩
    cases as with
    | nil => exact absurd hvs (Language.notMem_zero vs)
    | cons next as => exact mem_separated_cons_cons.2 ⟨us, hus, vs, hvs, rfl⟩

/-- By induction on the elements that may be read. -/
theorem exists_of_readSeparated {x : TokenReader α} (hx : Takes x element) (limit : Nat) :
    ∀ {bs left : List UInt8} {as : List α}, readSeparated b x limit bs = (as, left) → as ≠ [] →
      ∃ us ∈ separated b element as, bs = us ++ left := by
  induction limit with
  | zero =>
    intro bs left as h hne
    exact absurd (congrArg Prod.fst h).symm hne
  | succ limit ih =>
    intro bs left as h hne
    cases hread : x bs with
    | error e =>
      rw [readSeparated_of_error hread] at h
      exact absurd (congrArg Prod.fst h).symm hne
    | ok p =>
      obtain ⟨a, rest⟩ := p
      obtain ⟨us, hus, rfl⟩ := hx hread
      by_cases hseparator : rest.head? = some b
      · obtain ⟨after, rfl⟩ := List.head?_eq_some_iff.1 hseparator
        rw [readSeparated_of_separator hread] at h
        split at h
        · obtain ⟨rfl, rfl⟩ := Prod.mk.inj h
          exact ⟨us, hus, rfl⟩
        · rename_i as' left' hne' hmore
          obtain ⟨rfl, rfl⟩ := Prod.mk.inj h
          obtain ⟨vs, hvs, rfl⟩ := ih hmore hne'
          obtain ⟨next, further, rfl⟩ := List.exists_cons_of_ne_nil hne'
          exact ⟨_, mem_separated_cons_cons.2 ⟨us, hus, vs, hvs, rfl⟩, by simp⟩
      · rw [readSeparated_of_ne hread hseparator] at h
        obtain ⟨rfl, rfl⟩ := Prod.mk.inj h
        exact ⟨us, hus, rfl⟩

end Separated

end TokenReader

namespace SequenceSet

open TokenReader

/-! ### Sets in requests -/

theorem readNumber_takes : Takes readNumber number := by
  intro bs n rest h
  unfold readNumber at h
  dsimp only at h
  split at h
  · rename_i hcond
    simp only [Bool.and_eq_true, decide_eq_true_eq] at hcond
    obtain ⟨⟨hhead, hne⟩, hle⟩ := hcond
    obtain ⟨rfl, rfl⟩ : Decimal.value (bs.takeWhile Octet.isDigit) = n ∧
        bs.dropWhile Octet.isDigit = rest := by simpa using h
    refine ⟨bs.takeWhile Octet.isDigit, ⟨⟨?_, List.all_takeWhile, rfl, hle⟩, fun hzero => ?_⟩,
      List.takeWhile_append_dropWhile.symm⟩
    · simpa using hne
    · rw [hzero] at hhead
      exact absurd hhead (by decide)
  · simp at h

theorem readBound_takes : Takes readBound bound := by
  intro bs id rest h
  unfold readBound at h
  split at h
  · obtain ⟨rfl, rfl⟩ : maxId = id ∧ _ = rest := by simpa using h
    exact ⟨[Octet.star], Or.inl ⟨rfl, rfl⟩, rfl⟩
  · obtain ⟨us, hus, heq⟩ := readNumber_takes h
    exact ⟨us, Or.inr hus, heq⟩

/-- There is a second bound behind a colon, or else nothing more is read. -/
theorem readSecond_cases (first : Nat) (rest : List UInt8) :
    readSecond first rest = (first, rest) ∨
      ∃ us ∈ bound (readSecond first rest).1,
        rest = Octet.colon :: (us ++ (readSecond first rest).2) := by
  unfold readSecond
  split
  · rename_i after
    cases hsecond : readBound after with
    | error left => exact Or.inl rfl
    | ok r =>
      obtain ⟨us, hus, heq⟩ := readBound_takes hsecond
      exact Or.inr ⟨us, hus, congrArg _ heq⟩
  · exact Or.inl rfl

theorem readRange_takes : Takes readRange element := by
  intro bs r rest h
  rw [readRange_eq] at h
  cases hfirst : readBound bs with
  | error left => simp [hfirst] at h
  | ok p =>
    obtain ⟨first, left⟩ := p
    obtain ⟨us, hus, rfl⟩ := readBound_takes hfirst
    rw [hfirst] at h
    dsimp only at h
    split at h
    · rename_i r' hr
      obtain ⟨rfl, rfl⟩ : r' = r ∧ (readSecond first left).2 = rest := by simpa using h
      rcases readSecond_cases first left with hnone | ⟨vs, hvs, hleft⟩
      · rw [hnone] at hr ⊢
        exact ⟨us, Or.inl ⟨first, hr, hus⟩, rfl⟩
      · refine ⟨us ++ ([Octet.colon] ++ vs), Or.inr ⟨first, _, hr,
          Language.append_mem_mul hus (Language.append_mem_mul rfl hvs)⟩, ?_⟩
        simpa using hleft
    · simp at h

/-- Tokens are read as sets exactly where they are renderings of them. -/
theorem ofToken_eq_ok_iff {bs : List UInt8} {s : SequenceSet} :
    ofToken bs = .ok s ↔ bs ∈ s.token := by
  refine ⟨fun h => ?_, ofToken_of_mem⟩
  rw [ofToken] at h
  split at h
  · rename_i rs hread
    split at h
    · rename_i s' hs
      obtain rfl := Except.ok.inj h
      have hne : rs ≠ [] := by
        rintro rfl
        simp [ofRanges] at hs
      rw [readRanges_eq] at hread
      obtain ⟨us, hus, rfl⟩ := exists_of_readSeparated readRange_takes _ hread hne
      exact ⟨rs, hs, by rwa [List.append_nil]⟩
    · simp at h
  · simp at h

end SequenceSet

/-! ### Pieces of a text -/

namespace IdRange

theorem pieces_ne_nil (separator : Char) (cs : List Char) : pieces separator cs ≠ [] := by
  cases cs with
  | nil => exact List.cons_ne_nil _ _
  | cons c cs =>
    unfold pieces
    split
    · exact List.cons_ne_nil _ _
    · split <;> exact List.cons_ne_nil _ _

theorem pieces_of_not_mem {separator : Char} {cs : List Char} (h : separator ∉ cs) :
    pieces separator cs = [cs] := by
  induction cs with
  | nil => rfl
  | cons c cs ih =>
    obtain ⟨hc, hcs⟩ := not_or.1 (mt List.mem_cons.2 h)
    rw [pieces, if_neg (Ne.symm hc), ih hcs]

theorem pieces_append {separator : Char} {cs rest : List Char} (h : separator ∉ cs) :
    pieces separator (cs ++ separator :: rest) = cs :: pieces separator rest := by
  induction cs with
  | nil => exact if_pos rfl
  | cons c cs ih =>
    obtain ⟨hc, hcs⟩ := not_or.1 (mt List.mem_cons.2 h)
    rw [List.cons_append, pieces, if_neg (Ne.symm hc), ih hcs]

/-- What holds of the separator and in all pieces holds in the text. -/
theorem forall_of_pieces (separator : Char) {P : Char → Prop} (hseparator : P separator)
    {cs : List Char} (h : ∀ piece ∈ pieces separator cs, ∀ c ∈ piece, P c) : ∀ c ∈ cs, P c := by
  induction cs with
  | nil => exact List.forall_mem_nil _
  | cons c cs ih =>
    unfold pieces at h
    split at h
    · rename_i hc
      exact List.forall_mem_cons.2 ⟨hc ▸ hseparator, ih (List.forall_mem_cons.1 h).2⟩
    · split at h
      · rename_i hnil
        exact absurd hnil (pieces_ne_nil separator cs)
      · rename_i piece further hpieces
        obtain ⟨hfirst, hfurther⟩ := List.forall_mem_cons.1 h
        obtain ⟨hc, hpiece⟩ := List.forall_mem_cons.1 hfirst
        exact List.forall_mem_cons.2 ⟨hc, ih (hpieces ▸ List.forall_mem_cons.2 ⟨hpiece, hfurther⟩)⟩

end IdRange

theorem Octet.toChar_injective : Function.Injective toChar := by
  intro a b h
  have hnat : ∀ b, (toChar b).toNat = b.toNat := forall_octet (by decide +kernel)
  exact UInt8.toNat_inj.1 (by rw [← hnat, h, hnat])

/-- The pieces of a text of octets are those between octets. -/
theorem IdRange.pieces_map (b : UInt8) (bs : List UInt8) :
    b ∉ bs ∧ pieces (Octet.toChar b) (bs.map Octet.toChar) = [bs.map Octet.toChar] ∨
    ∃ us vs, bs = us ++ b :: vs ∧ b ∉ us ∧ pieces (Octet.toChar b) (bs.map Octet.toChar) =
      us.map Octet.toChar :: pieces (Octet.toChar b) (vs.map Octet.toChar) := by
  have hmem : ∀ {us : List UInt8}, b ∉ us → Octet.toChar b ∉ us.map Octet.toChar := fun h hmem =>
    h ((List.mem_map_of_injective Octet.toChar_injective).1 hmem)
  by_cases hb : b ∈ bs
  · obtain ⟨us, vs, rfl, hus⟩ := List.eq_append_cons_of_mem hb
    refine Or.inr ⟨us, vs, rfl, hus, ?_⟩
    rw [List.map_append, List.map_cons, pieces_append (hmem hus)]
  · exact Or.inl ⟨hb, pieces_of_not_mem (hmem hb)⟩

namespace SequenceSet

open TokenReader

/-! ### Sets in texts -/

theorem ofDigitChars_map (bs : List UInt8) (n : Nat) :
    Nat.ofDigitChars 10 (bs.map Octet.toChar) n = Decimal.extend n bs := by
  have hdigit : ∀ b, (Octet.toChar b).toNat - '0'.toNat = Octet.digitValue b :=
    Octet.forall_octet (by decide +kernel)
  induction bs generalizing n with
  | nil => rfl
  | cons b bs ih => rw [List.map_cons, Nat.ofDigitChars_cons, hdigit, ih, Decimal.extend_cons]

/-- A bound is `*` or a number; a lone zero counts as one at first. -/
theorem boundOfChars_eq_ok_iff {bs : List UInt8} {id : Nat} :
    IdRange.boundOfChars (bs.map Octet.toChar) = .ok id ↔ bs ∈ bound id ∨ bs = [0x30] ∧ id = 0 := by
  have hstar : bs.map Octet.toChar = ['*'] ↔ bs = [Octet.star] :=
    (List.map_injective_iff.2 Octet.toChar_injective).eq_iff (b := [Octet.star])
  have hhead : (bs.map Octet.toChar).head? = some '0' ↔ bs.head? = some 0x30 := by
    rw [List.head?_map]
    exact (Option.map_injective Octet.toChar_injective).eq_iff (b := some 0x30)
  have hall : (bs.map Octet.toChar).all Char.isDigit = bs.all Octet.isDigit := by
    have hdigit : ∀ b, (Octet.toChar b).isDigit = Octet.isDigit b :=
      Octet.forall_octet (by decide +kernel)
    rw [List.all_map]
    exact congrArg bs.all (funext hdigit)
  have hvalue : Nat.ofDigitChars 10 (bs.map Octet.toChar) 0 = Decimal.value bs :=
    ofDigitChars_map bs 0
  simp only [IdRange.boundOfChars, List.map_eq_nil_iff, hstar, hhead, List.length_map, hall, hvalue]
  constructor
  · intro h
    split_ifs at h with hnil hone hzero hdigits hle
    · obtain rfl := Except.ok.inj h
      exact Or.inl (Or.inl ⟨rfl, hone⟩)
    · obtain rfl := Except.ok.inj h
      by_cases hfirst : bs.head? = some 0x30
      · obtain ⟨rest, rfl⟩ := List.head?_eq_some_iff.1 hfirst
        obtain rfl : rest = [] := by
          refine List.length_eq_zero_iff.1 (Nat.eq_zero_of_not_pos fun hpos => hzero ⟨rfl, ?_⟩)
          exact Nat.succ_lt_succ hpos
        exact Or.inr ⟨rfl, rfl⟩
      · exact Or.inl (Or.inr ⟨⟨hnil, hdigits, rfl, hle⟩, hfirst⟩)
  · rintro ((⟨rfl, rfl⟩ | ⟨hds, hfirst⟩) | ⟨rfl, rfl⟩)
    · rfl
    · have hne : bs ≠ [Octet.star] := by
        rintro rfl
        exact absurd hds.all_isDigit (by decide)
      rw [if_neg hds.ne_nil, if_neg hne, if_neg fun h => hfirst h.1, if_pos hds.all_isDigit,
        hds.value_eq, if_pos (show id ≤ maxId from hds.le_maxNumber)]
    · rfl

/-- No range has a bound of zero. -/
theorem ne_zero_of_ofBounds {first second : Nat} {r : IdRange}
    (h : IdRange.ofBounds first second = .ok r) : first ≠ 0 ∧ second ≠ 0 := by
  rw [IdRange.ofBounds] at h
  split at h
  · simp at h
  · rename_i hne
    exact not_or.1 hne

/-- The octets of a bound are digits or `*`. -/
theorem not_mem_bound {id : Nat} {bs : List UInt8} (h : bs ∈ bound id) {b : UInt8}
    (hdigit : Octet.isDigit b = false) (hstar : b ≠ Octet.star) : b ∉ bs := by
  intro hb
  rcases h with ⟨-, rfl⟩ | ⟨hds, -⟩
  · exact hstar (List.mem_singleton.1 hb)
  · have := List.all_eq_true.1 hds.all_isDigit b hb
    simp [hdigit] at this

theorem comma_not_mem_element {r : IdRange} {bs : List UInt8} (h : bs ∈ element r) :
    Octet.comma ∉ bs := by
  have hbound : ∀ {id : Nat} {us : List UInt8}, us ∈ bound id → Octet.comma ∉ us :=
    fun h => not_mem_bound h rfl (by decide)
  rcases h with ⟨id, -, h⟩ | ⟨first, second, -, us, hus, _, ⟨_, rfl, vs, hvs, rfl⟩, rfl⟩
  · exact hbound h
  · intro hmem
    rcases List.mem_append.1 hmem with hmem | hmem
    · exact hbound hus hmem
    · rcases List.mem_cons.1 hmem with hmem | hmem
      · exact absurd hmem (by decide)
      · exact hbound hvs hmem

/-- A range is one bound or two with a colon between them. -/
theorem mem_element_iff {r : IdRange} {bs : List UInt8} : bs ∈ element r ↔
    (∃ id, IdRange.ofBounds id id = .ok r ∧ bs ∈ bound id) ∨
      ∃ first second, IdRange.ofBounds first second = .ok r ∧
        bs ∈ TokenReader.separated Octet.colon bound [first, second] := Iff.rfl

theorem rangeOfChars_eq_ok_iff {bs : List UInt8} {r : IdRange} :
    IdRange.ofChars (bs.map Octet.toChar) = .ok r ↔ bs ∈ element r := by
  have hcolon : ∀ id, ∀ us ∈ bound id, Octet.colon ∉ us :=
    fun id us h => not_mem_bound h rfl (by decide)
  -- A bound of a range is not zero.
  have hbound : ∀ {us : List UInt8} {id : Nat}, id ≠ 0 →
      (IdRange.boundOfChars (us.map Octet.toChar) = .ok id ↔ us ∈ bound id) := by
    intro us id hid
    simp [boundOfChars_eq_ok_iff, hid]
  rw [mem_element_iff, IdRange.ofChars]
  rcases IdRange.pieces_map Octet.colon bs with ⟨hnone, hpieces⟩ | ⟨us, vs, rfl, hus, hpieces⟩
  · rw [show ':' = Octet.toChar Octet.colon from rfl, hpieces, bind_eq_ok_iff]
    constructor
    · rintro ⟨id, hid, hr⟩
      exact Or.inl ⟨id, hr, (hbound (ne_zero_of_ofBounds hr).1).1 hid⟩
    · rintro (⟨id, hr, hid⟩ | ⟨first, second, -, h⟩)
      · exact ⟨id, (hbound (ne_zero_of_ofBounds hr).1).2 hid, hr⟩
      · obtain ⟨a, ha, -⟩ := (mem_separated_of_not_mem hnone).1 h
        simp at ha
  · have hone : ∀ id, us ++ Octet.colon :: vs ∉ bound id :=
      fun id h => hcolon id _ h (List.mem_append_right us (List.mem_cons_self ..))
    have htwo : ∀ {first second : Nat},
        us ++ Octet.colon :: vs ∈ TokenReader.separated Octet.colon bound [first, second] ↔
          us ∈ bound first ∧ vs ∈ bound second := by
      intro first second
      rw [mem_separated_append hcolon hus]
      constructor
      · rintro ⟨_, _, h, hu, hv⟩
        obtain ⟨rfl, rfl⟩ := List.cons.inj h
        exact ⟨hu, hv⟩
      · rintro ⟨hu, hv⟩
        exact ⟨first, [second], rfl, hu, hv⟩
    simp only [hone, and_false, exists_false, false_or, htwo]
    rw [show ':' = Octet.toChar Octet.colon from rfl, hpieces]
    rcases IdRange.pieces_map Octet.colon vs with ⟨hnone, hpieces'⟩ | ⟨vs, ws, rfl, hvs, hpieces'⟩
    · simp only [hpieces', bind_eq_ok_iff]
      constructor
      · rintro ⟨first, hfirst, second, hsecond, hr⟩
        obtain ⟨h₁, h₂⟩ := ne_zero_of_ofBounds hr
        exact ⟨first, second, hr, (hbound h₁).1 hfirst, (hbound h₂).1 hsecond⟩
      · rintro ⟨first, second, hr, hfirst, hsecond⟩
        obtain ⟨h₁, h₂⟩ := ne_zero_of_ofBounds hr
        exact ⟨first, (hbound h₁).2 hfirst, second, (hbound h₂).2 hsecond, hr⟩
    · -- There are three pieces or more, and a bound has no colon.
      obtain ⟨piece, further, hfurther⟩ := List.exists_cons_of_ne_nil
        (IdRange.pieces_ne_nil (Octet.toChar Octet.colon) (ws.map Octet.toChar))
      simp only [hpieces', hfurther]
      constructor
      · intro h
        simp at h
      · rintro ⟨first, second, -, -, h⟩
        exact absurd (List.mem_append_right vs (List.mem_cons_self ..)) (hcolon second _ h)

/-- The pieces between commas are ranges exactly where the octets are renderings of them.  By
induction on the ranges. -/
theorem rangesOfChars_eq_ok_iff {rs : List IdRange} : ∀ {bs : List UInt8},
    (IdRange.pieces ',' (bs.map Octet.toChar)).mapM IdRange.ofChars = .ok rs ↔
      bs ∈ elements rs := by
  have hcomma : ∀ r, ∀ us ∈ element r, Octet.comma ∉ us := fun r us => comma_not_mem_element
  have hchar : ',' = Octet.toChar Octet.comma := rfl
  induction rs with
  | nil =>
    intro bs
    obtain ⟨piece, further, hpieces⟩ :=
      List.exists_cons_of_ne_nil (IdRange.pieces_ne_nil ',' (bs.map Octet.toChar))
    rw [hpieces, mapM_cons_eq_ok_iff]
    exact ⟨fun ⟨_, _, _, _, h⟩ => absurd h (by simp), fun h => absurd h (Language.notMem_zero bs)⟩
  | cons r rs ih =>
    intro bs
    rcases IdRange.pieces_map Octet.comma bs with ⟨hnone, hpieces⟩ | ⟨us, vs, rfl, hus, hpieces⟩
    · rw [hchar, hpieces, mapM_cons_eq_ok_iff, elements, mem_separated_of_not_mem hnone]
      constructor
      · rintro ⟨r', rest, hr, hrest, h⟩
        obtain ⟨rfl, rfl⟩ := List.cons.inj h
        obtain rfl : [] = rs := Except.ok.inj hrest
        exact ⟨r, rfl, rangeOfChars_eq_ok_iff.1 hr⟩
      · rintro ⟨r', h, hr⟩
        obtain ⟨rfl, rfl⟩ := List.cons.inj h
        exact ⟨r, [], rangeOfChars_eq_ok_iff.2 hr, rfl, rfl⟩
    · rw [hchar, hpieces, mapM_cons_eq_ok_iff, elements, mem_separated_append hcomma hus]
      constructor
      · rintro ⟨r', rest, hr, hrest, h⟩
        obtain ⟨rfl, rfl⟩ := List.cons.inj h
        exact ⟨r, rs, rfl, rangeOfChars_eq_ok_iff.1 hr, ih.1 hrest⟩
      · rintro ⟨r', rest, h, hr, hrest⟩
        obtain ⟨rfl, rfl⟩ := List.cons.inj h
        exact ⟨r, rs, rangeOfChars_eq_ok_iff.2 hr, ih.2 hrest, rfl⟩

/-- Texts are read as sets exactly where their octets are renderings of them. -/
theorem ofChars_eq_ok_iff {bs : List UInt8} {s : SequenceSet} :
    ofChars (bs.map Octet.toChar) = .ok s ↔ bs ∈ s.token := by
  rw [ofChars]
  constructor
  · intro h
    split at h
    · rename_i rs hrs
      exact ⟨rs, h, rangesOfChars_eq_ok_iff.1 hrs⟩
    · simp at h
  · rintro ⟨rs, hrs, hbs⟩
    rw [rangesOfChars_eq_ok_iff.2 hbs]
    exact hrs

/-! ### Texts with other characters -/

/-- The characters of sets. -/
def isSetChar (ch : Char) : Bool := ch.isDigit || ch == ':' || ch == '*' || ch == ','

theorem exists_octet {ch : Char} (h : isSetChar ch = true) :
    ∃ b, Octet.isSequenceSetChar b = true ∧ ch = Octet.toChar b := by
  have hoctet : ∀ b, isSetChar (Octet.toChar b) = Octet.isSequenceSetChar b :=
    Octet.forall_octet (by decide +kernel)
  have hsmall : ch.toNat < 256 := by
    simp only [isSetChar, Bool.or_eq_true, beq_iff_eq] at h
    rcases h with ((hdigit | rfl) | rfl) | rfl
    · exact Nat.lt_of_le_of_lt (Char.isDigit_iff_toNat.1 hdigit).2 (by decide)
    all_goals decide
  have heq : ch = Octet.toChar (UInt8.ofNat ch.toNat) := by
    rw [Octet.toChar, UInt8.toNat_ofNat_of_lt' hsmall, Char.ofNat_toNat]
  exact ⟨_, by rwa [← hoctet, ← heq], heq⟩

/-- Texts of characters of sets are texts of octets of sets. -/
theorem exists_octets {text : String} (h : text.toList.all isSetChar = true) :
    ∃ bs, bs.all Octet.isSequenceSetChar = true ∧ text.toList = bs.map Octet.toChar ∧
      Octet.ofText text = bs := by
  have hlt : ∀ b, Octet.isSequenceSetChar b = true → b < 0x80 :=
    Octet.forall_octet (by decide +kernel)
  choose! octet hoctet heq using fun ch hch => exists_octet (List.all_eq_true.1 h ch hch)
  have hall : ∀ b ∈ text.toList.map octet, Octet.isSequenceSetChar b = true :=
    List.forall_mem_map.2 hoctet
  have htext : text.toList = (text.toList.map octet).map Octet.toChar := by
    rw [List.map_map]
    exact (List.map_id _).symm.trans (List.map_congr_left heq)
  refine ⟨_, List.all_eq_true.2 hall, htext, ?_⟩
  rw [← Octet.ofText_toText fun b hb => hlt b (hall b hb), Octet.toText, ← htext,
    String.ofList_toList]

theorem isSetChar_of_boundOfChars {cs : List Char} {id : Nat}
    (h : IdRange.boundOfChars cs = .ok id) :
    ∀ ch ∈ cs, isSetChar ch = true := by
  rw [IdRange.boundOfChars] at h
  split_ifs at h with hnil hstar hzero hdigits
  · rw [hstar]
    exact List.forall_mem_singleton.2 rfl
  · intro ch hch
    simp [isSetChar, List.all_eq_true.1 hdigits ch hch]

theorem isSetChar_of_rangeOfChars {cs : List Char} {r : IdRange} (h : IdRange.ofChars cs = .ok r) :
    ∀ ch ∈ cs, isSetChar ch = true := by
  refine IdRange.forall_of_pieces ':' (P := fun ch => isSetChar ch = true) rfl ?_
  rw [IdRange.ofChars] at h
  split at h
  · rename_i one hpieces
    obtain ⟨id, hid, -⟩ := bind_eq_ok_iff.1 h
    rw [hpieces]
    exact List.forall_mem_singleton.2 (isSetChar_of_boundOfChars hid)
  · rename_i first second hpieces
    obtain ⟨a, ha, h⟩ := bind_eq_ok_iff.1 h
    obtain ⟨b, hb, -⟩ := bind_eq_ok_iff.1 h
    rw [hpieces]
    exact List.forall_mem_cons.2 ⟨isSetChar_of_boundOfChars ha,
      List.forall_mem_singleton.2 (isSetChar_of_boundOfChars hb)⟩
  · simp at h

theorem exists_of_mapM {ε α β : Type} {f : α → Except ε β} {as : List α} : ∀ {bs : List β},
    as.mapM f = .ok bs → ∀ a ∈ as, ∃ b, f a = .ok b := by
  induction as with
  | nil => exact fun _ => List.forall_mem_nil _
  | cons a as ih =>
    intro bs h
    obtain ⟨b, rest, hb, hrest, -⟩ := mapM_cons_eq_ok_iff.1 h
    exact List.forall_mem_cons.2 ⟨⟨b, hb⟩, ih hrest⟩

theorem isSetChar_of_ofChars {cs : List Char} {s : SequenceSet} (h : ofChars cs = .ok s) :
    ∀ ch ∈ cs, isSetChar ch = true := by
  rw [ofChars] at h
  split at h
  · rename_i rs hrs
    refine IdRange.forall_of_pieces ',' (P := fun ch => isSetChar ch = true) rfl
      fun piece hpiece => ?_
    obtain ⟨r, hr⟩ := exists_of_mapM hrs piece hpiece
    exact isSetChar_of_rangeOfChars hr
  · simp at h

/-! ### Elements as they are written -/

/-- An element of a set as it is written, with `*` as the largest number. -/
inductive Element where
  | one (id : Nat)
  | two (first second : Nat)

namespace Element

/-- The renderings of an element. -/
def spelled : Element → Language UInt8
  | one id => bound id
  | two first second => bound first * ({[Octet.colon]} * bound second)

/-- The numbers of an element: all between its bounds, in either order.  Where the largest number
comes first and is not the only one, they begin at 1. -/
def Contains : Element → Nat → Prop
  | one n, id => id = n
  | two first second, id =>
    if first = maxId ∧ second < first then 1 ≤ id ∧ id ≤ second
    else min first second ≤ id ∧ id ≤ max first second

end Element

/-- A range and an element have the same numbers. -/
def SameNumbers (r : IdRange) (e : Element) : Prop := ∀ id, r.low ≤ id ∧ id ≤ r.high ↔ e.Contains id

theorem sameNumbers_two {first second : Nat} {r : IdRange}
    (h : IdRange.ofBounds first second = .ok r) : SameNumbers r (.two first second) := by
  intro id
  rw [IdRange.ofBounds] at h
  simp only [Element.Contains]
  split_ifs at h <;> obtain rfl := Except.ok.inj h <;> split_ifs <;> simp only [] <;> omega

theorem sameNumbers_one {n : Nat} {r : IdRange} (h : IdRange.ofBounds n n = .ok r) :
    SameNumbers r (.one n) := by
  intro id
  have htwo := sameNumbers_two h id
  simp only [Element.Contains] at htwo ⊢
  rw [htwo, if_neg (by omega)]
  omega

theorem bound_le {id : Nat} {us : List UInt8} (h : us ∈ bound id) : 1 ≤ id ∧ id ≤ maxId := by
  rcases h with ⟨rfl, -⟩ | ⟨hds, hhead⟩
  · decide
  · obtain ⟨d, ds, rfl⟩ := List.exists_cons_of_ne_nil hds.ne_nil
    have hpositive : ∀ b, Octet.isDigit b = true → b ≠ 0x30 → 1 ≤ Octet.digitValue b :=
      Octet.forall_octet (by decide +kernel)
    have hd := hpositive d (List.all_eq_true.1 hds.all_isDigit d (List.mem_cons_self ..))
      fun h => hhead (congrArg some h)
    refine ⟨?_, hds.le_maxNumber⟩
    rw [← hds.value_eq, Decimal.value, Decimal.extend_cons]
    exact Nat.le_trans (by omega) (Decimal.le_extend _ ds)

theorem exists_ofBounds {first second : Nat} (hfirst : 1 ≤ first ∧ first ≤ maxId)
    (hsecond : 1 ≤ second ∧ second ≤ maxId) : ∃ r, IdRange.ofBounds first second = .ok r := by
  rw [IdRange.ofBounds, dif_neg (by omega), dif_neg (by omega)]
  split_ifs <;> exact ⟨_, rfl⟩

/-- Every element that is written is a range. -/
theorem exists_range {e : Element} {us : List UInt8} (h : us ∈ e.spelled) :
    ∃ r, us ∈ element r ∧ SameNumbers r e := by
  cases e with
  | one id =>
    obtain ⟨r, hr⟩ := exists_ofBounds (bound_le h) (bound_le h)
    exact ⟨r, Or.inl ⟨id, hr, h⟩, sameNumbers_one hr⟩
  | two first second =>
    obtain ⟨vs, hvs, _, ⟨_, rfl, ws, hws, rfl⟩, rfl⟩ := id h
    obtain ⟨r, hr⟩ := exists_ofBounds (bound_le hvs) (bound_le hws)
    exact ⟨r, Or.inr ⟨first, second, hr, h⟩, sameNumbers_two hr⟩

/-- Every range is one of the elements that it is written as. -/
theorem exists_element {r : IdRange} {us : List UInt8} (h : us ∈ element r) :
    ∃ e : Element, us ∈ e.spelled ∧ SameNumbers r e := by
  rcases h with ⟨id, hr, h⟩ | ⟨first, second, hr, h⟩
  · exact ⟨.one id, h, sameNumbers_one hr⟩
  · exact ⟨.two first second, h, sameNumbers_two hr⟩

end SequenceSet

/-- Elements of one kind are replaced by elements of another that are written the same. -/
theorem TokenReader.exists_separated {α β : Type} {b : UInt8} {f : α → Language UInt8}
    {g : β → Language UInt8} {R : α → β → Prop}
    (h : ∀ {a : α} {us : List UInt8}, us ∈ f a → ∃ a', us ∈ g a' ∧ R a a') {as : List α} :
    ∀ {us : List UInt8}, us ∈ separated b f as → ∃ as', us ∈ separated b g as' ∧
      List.Forall₂ R as as' := by
  induction as with
  | nil => exact fun {us} hus => absurd hus (Language.notMem_zero us)
  | cons a as ih =>
    intro us hus
    cases as with
    | nil =>
      obtain ⟨a', ha', hR⟩ := h hus
      exact ⟨[a'], ha', .cons hR .nil⟩
    | cons next as =>
      obtain ⟨ts, hts, ws, hws, rfl⟩ := mem_separated_cons_cons.1 hus
      obtain ⟨a', ha', hR⟩ := h hts
      obtain ⟨_, hws', hRs⟩ := ih hws
      cases hRs with
      | cons hnext hRs =>
        exact ⟨_, mem_separated_cons_cons.2 ⟨ts, ha', ws, hws', rfl⟩, .cons hR (.cons hnext hRs)⟩

namespace SequenceSet

theorem covers_iff {rs : List IdRange} {es : List Element} (h : List.Forall₂ SameNumbers rs es)
    (id : Nat) : IdRange.Covers rs id ↔ ∃ e ∈ es, e.Contains id := by
  induction h with
  | nil => simp
  | cons hr _ ih => rw [IdRange.covers_cons, ih, hr id, List.exists_mem_cons_iff]

/-- The texts that list elements. -/
def listed (es : List Element) : Language UInt8 :=
  TokenReader.separated Octet.comma Element.spelled es

theorem exists_set {es : List Element} {us : List UInt8} (h : us ∈ listed es) :
    ∃ s : SequenceSet, us ∈ s.token ∧ ∀ id, s.contains id = true ↔ ∃ e ∈ es, e.Contains id := by
  obtain ⟨rs, hrs, hsame⟩ :=
    TokenReader.exists_separated (R := fun e r => SameNumbers r e) exists_range h
  have hne : rs ≠ [] := by
    rintro rfl
    exact Language.notMem_zero us hrs
  refine ⟨merged rs hne, ⟨rs, dif_neg hne, hrs⟩, fun id => ?_⟩
  rw [contains_of_ofRanges (dif_neg hne), covers_iff hsame.flip]

theorem exists_listed {s : SequenceSet} {us : List UInt8} (h : us ∈ s.token) :
    ∃ es, us ∈ listed es := by
  obtain ⟨rs, -, hrs⟩ := h
  obtain ⟨es, hes, -⟩ := TokenReader.exists_separated exists_element hrs
  exact ⟨es, hes⟩

/-! ### Both readers -/

theorem decode_of_rest {bs s : List UInt8} {c : Cursor} (hne : bs ≠ [])
    (hall : bs.all Octet.isSequenceSetChar = true) (hs : Stops Octet.isSequenceSetChar s)
    (hc : c.Steady) (hrest : c.rest = bs ++ s) :
    decode c = Decoder.token .sequenceSet ofToken bs (c.advance bs.length) :=
  Decoder.bind_of_ok (Decoder.takeWhile1_of_rest hc hrest hne (List.all_eq_true.1 hall) hs)

/-- A text of the characters of sets is read alike in a request and by itself: both give the set
with the numbers of its elements if it lists elements, and fail if it does not.  A text with any
other character is no set. -/
theorem readings_agree :
    (∀ (text : String) (s : List UInt8) (c : Cursor), text ≠ "" →
      text.toList.all isSetChar = true → Stops Octet.isSequenceSetChar s → c.Steady →
      c.rest = Octet.ofText text ++ s →
      (∀ es, Octet.ofText text ∈ listed es → ∃ set, ofText text = .ok set ∧
        decode c = (.ok set, c.advance (Octet.ofText text).length) ∧
        ∀ id, set.contains id = true ↔ ∃ e ∈ es, e.Contains id) ∧
      ((∀ es, Octet.ofText text ∉ listed es) → (∃ error, ofText text = .error error) ∧
        ∃ error e, decode c = (.error (.rejected error), e))) ∧
    ∀ text : String, text.toList.all isSetChar = false → ∃ error, ofText text = .error error := by
  refine ⟨fun text s c htext hchars hs hc hrest => ?_, fun text hchars => ?_⟩
  · obtain ⟨bs, hall, htoList, hbs⟩ := exists_octets hchars
    have hne : bs ≠ [] := by
      rintro rfl
      exact htext (String.toList_eq_nil_iff.1 htoList)
    rw [hbs] at hrest ⊢
    rw [decode_of_rest hne hall hs hc hrest, ofText, htoList]
    refine ⟨fun es hes => ?_, fun hnone => ⟨?_, ?_⟩⟩
    · obtain ⟨set, hset, hcontains⟩ := exists_set hes
      refine ⟨set, ofChars_eq_ok_iff.2 hset, ?_, hcontains⟩
      rw [Decoder.token_of_ok (ofToken_of_mem hset)]
      rfl
    · cases hread : ofChars (bs.map Octet.toChar) with
      | error error => exact ⟨error, rfl⟩
      | ok set =>
        obtain ⟨es, hes⟩ := exists_listed (ofChars_eq_ok_iff.1 hread)
        exact absurd hes (hnone es)
    · cases hread : ofToken bs with
      | error fault =>
        rw [Decoder.token, hread]
        exact ⟨_, _, rfl⟩
      | ok set =>
        obtain ⟨es, hes⟩ := exists_listed (ofToken_eq_ok_iff.1 hread)
        exact absurd hes (hnone es)
  · cases hread : ofText text with
    | error error => exact ⟨error, rfl⟩
    | ok set =>
      have hall := List.all_eq_true.2 (isSetChar_of_ofChars hread)
      simp [hchars] at hall

/-- Bounds in descending order, one of them the largest number; and an empty element, which is
refused. -/
theorem readings_agree_descending :
    (∃ set, ofText "9:7,*:3" = .ok set ∧
      decode (Cursor.ofOctets (Octet.ofText "9:7,*:3 FLAGS")) =
        (.ok set, (Cursor.ofOctets (Octet.ofText "9:7,*:3 FLAGS")).advance 7) ∧
      ∀ id, set.contains id = true ↔ (7 ≤ id ∧ id ≤ 9) ∨ 1 ≤ id ∧ id ≤ 3) ∧
    (∃ error, ofText "1,,2" = .error error) ∧
    (∃ error e, decode (Cursor.ofOctets (Octet.ofText "1,,2")) = (.error (.rejected error), e)) ∧
    ∃ error, ofText "1 2" = .error error := by
  have hdigit : ∀ {b : UInt8} {n : Nat}, Octet.isDigit b = true →
      Octet.digitValue b = n → b ≠ 0x30 →
      [b] ∈ bound n := fun hb hvalue hne =>
    Or.inr ⟨Decimal.isNumber_digit hb hvalue, fun h => hne (Option.some.inj h)⟩
  have hnine : [0x39] ∈ bound 9 := hdigit rfl rfl (by decide)
  have hseven : [0x37] ∈ bound 7 := hdigit rfl rfl (by decide)
  have hthree : [0x33] ∈ bound 3 := hdigit rfl rfl (by decide)
  have hlisted : Octet.ofText "9:7,*:3" ∈ listed [.two 9 7, .two maxId 3] :=
    TokenReader.mem_separated_cons_cons.2
      ⟨_, ⟨[0x39], hnine, _, ⟨[Octet.colon], rfl, [0x37], hseven, rfl⟩, rfl⟩,
        _, ⟨[Octet.star], Or.inl ⟨rfl, rfl⟩, _, ⟨[Octet.colon], rfl, [0x33], hthree, rfl⟩, rfl⟩,
          rfl⟩
  obtain ⟨set, hread, hdecode, hcontains⟩ := (readings_agree.1 "9:7,*:3" (Octet.ofText " FLAGS")
    (Cursor.ofOctets (Octet.ofText "9:7,*:3 FLAGS")) (by decide) (by decide)
    (Stops.cons rfl _)
    (Cursor.steady_ofOctets _) (by decide)).1 _ hlisted
  have hcommas := readings_agree.1 "1,,2" [] (Cursor.ofOctets (Octet.ofText "1,,2")) (by decide)
    (by decide) (fun b hb => by simp at hb) (Cursor.steady_ofOctets _) (by decide)
  have hempty : ofText "1,,2" = .error (.range .empty) := rfl
  obtain ⟨herror, hrejected⟩ := hcommas.2 fun es hes => by
    obtain ⟨set, hset, -⟩ := hcommas.1 es hes
    simp [hempty] at hset
  refine ⟨⟨set, hread, hdecode, fun id => ?_⟩, herror, hrejected,
    readings_agree.2 "1 2" (by decide)⟩
  have hdescending : (Element.two 9 7).Contains id ↔ 7 ≤ id ∧ id ≤ 9 := by
    rw [Element.Contains, if_neg (by decide)]
    omega
  have hlargest : (Element.two maxId 3).Contains id ↔ 1 ≤ id ∧ id ≤ 3 := by
    rw [Element.Contains, if_pos (by decide)]
  rw [hcontains id, List.exists_mem_cons_iff, List.exists_mem_cons_iff, hdescending, hlargest]
  simp

end SequenceSet

end ImapRequest
