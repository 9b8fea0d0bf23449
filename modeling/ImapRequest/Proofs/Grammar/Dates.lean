import ImapRequest.Proofs.Grammar.Printing

/-!
# Dates to the octet

```
date = date-text / DQUOTE date-text DQUOTE
date-text = date-day "-" date-month "-" date-year
```

Which dates are read, and how far.  A reader of tokens takes a day of two places where there is one
and does not come back to it, so it has to be seen that no token is lost by that; a date without
quotes is the longest run of its octets, of which none may be left.

* `TokenReader.exists_of_bind`, `Date.readParts_takes` : what was read is a word of the grammar;
* `Date.ofToken_eq_ok_iff` : the tokens that are dates;
* `Decoder.quotedToken_eq_ok_iff`, `Date.decodeOctets_eq_ok_iff` : the tokens in requests;
* `Date.decode_exact` : the dates in requests, and that every date is read from its text.
-/

namespace ImapRequest

namespace TokenReader

variable {α β : Type}

/-! ### Readers of tokens -/

theorem exists_of_bind {x : TokenReader α} {f : α → TokenReader β} {b : β} {bs rest : List UInt8}
    (h : (x >>= f) bs = .ok (b, rest)) :
    ∃ a left, x bs = .ok (a, left) ∧ f a left = .ok (b, rest) := by
  rw [bind_apply] at h
  cases hx : x bs with
  | error left => simp [hx] at h
  | ok r => exact ⟨r.1, r.2, rfl, by simpa [hx] using h⟩

theorem exists_of_map {x : TokenReader α} {g : α → β} {b : β} {bs rest : List UInt8}
    (h : (do return g (← x)) bs = .ok (b, rest)) : ∃ a, x bs = .ok (a, rest) ∧ g a = b := by
  obtain ⟨a, left, hx, hb⟩ := exists_of_bind h
  obtain ⟨rfl, rfl⟩ : g a = b ∧ left = rest := by simpa [pure_apply] using hb
  exact ⟨a, hx, rfl⟩

theorem octet_takes (b : UInt8) : Takes (octet b) fun _ => {[b]} := by
  intro bs _ rest h
  unfold octet at h
  split at h
  · rename_i b' left
    split at h
    · rename_i hb
      obtain rfl : b' = b := by simpa using hb
      obtain rfl : left = rest := by simpa using h
      exact ⟨[b'], rfl, rfl⟩
    · simp at h
  · simp at h

/-- Digits that were read are so many, and stood there. -/
theorem of_digits {count : Nat} {ds bs rest : List UInt8} (h : digits count bs = .ok (ds, rest)) :
    ds ∈ fixed count (Decimal.value ds) ∧ bs = ds ++ rest := by
  unfold digits at h
  dsimp only at h
  split at h
  · rename_i hds
    obtain ⟨rfl, rfl⟩ : bs.take count = ds ∧ bs.drop count = rest := by simpa using h
    simp only [Bool.and_eq_true, beq_iff_eq] at hds
    exact ⟨⟨hds.1, hds.2, rfl⟩, (List.take_append_drop count bs).symm⟩
  · simp at h

theorem fixed_takes (count : Nat) :
    Takes (do return Decimal.value (← digits count)) (fixed count) := by
  intro bs n rest h
  obtain ⟨ds, hds, rfl⟩ := exists_of_map h
  exact ⟨ds, of_digits hds⟩

namespace Takes

variable {x y : TokenReader α} {L M : α → Language UInt8}

theorem either (hx : Takes x L) (hy : Takes y M) : Takes (either x y) fun a => L a + M a := by
  intro bs a rest h
  unfold TokenReader.either at h
  split at h
  · rename_i r hr
    obtain rfl : r = (a, rest) := by simpa using h
    obtain ⟨us, hus, rfl⟩ := hx hr
    exact ⟨us, Or.inl hus, rfl⟩
  · split at h
    · rename_i r hr
      obtain rfl : r = (a, rest) := by simpa using h
      obtain ⟨us, hus, rfl⟩ := hy hr
      exact ⟨us, Or.inr hus, rfl⟩
    · simp at h

/-- An octet in front. -/
theorem behind (hx : Takes x L) (b : UInt8) :
    Takes (do octet b; x) fun a => {[b]} * L a := by
  intro bs a rest h
  obtain ⟨_, left, hoctet, hrun⟩ := exists_of_bind h
  obtain ⟨_, rfl, rfl⟩ := octet_takes b hoctet
  obtain ⟨us, hus, rfl⟩ := hx hrun
  exact ⟨[b] ++ us, Language.append_mem_mul rfl hus, (List.append_assoc ..).symm⟩

end Takes

end TokenReader

namespace Date

open TokenReader

/-! ### The tokens that are dates -/

theorem readFixedDay_takes : Takes readFixedDay fixedDay :=
  ((fixed_takes 1).behind Octet.sp).either (fixed_takes 2)

theorem readDay_takes : Takes readDay fun n => fixedDay n + fixed 1 n :=
  readFixedDay_takes.either (fixed_takes 1)

theorem mem_named_of_monthOfName {name : List UInt8} {m : Nat} (h : monthOfName name = some m) :
    name ∈ named m := by
  obtain ⟨i, hi, rfl⟩ := Option.map_eq_some_iff.1 h
  obtain ⟨hlt, hletters, -⟩ := List.findIdx?_eq_some_iff_getElem.1 hi
  have hname : monthNames[i] = monthWord (i + 1) := by
    simp [monthNames_eq, Nat.add_comm 1 i]
  rw [hname] at hletters
  exact (beq_iff_eq.1 hletters).symm

theorem readMonth_takes : Takes readMonth named := by
  intro bs m rest h
  unfold readMonth at h
  split at h
  · rename_i m' hm
    obtain ⟨rfl, rfl⟩ : m' = m ∧ bs.drop 3 = rest := by simpa using h
    exact ⟨bs.take 3, mem_named_of_monthOfName hm, (List.take_append_drop 3 bs).symm⟩
  · simp at h

/-- Day, month and year as they are written, whether the calendar has them or not. -/
def spelledParts (day : Nat → Language UInt8) (p : Nat × Nat × Nat) : Language UInt8 :=
  day p.1 * ({[Octet.minus]} * (named p.2.1 * ({[Octet.minus]} * fixed 4 p.2.2)))

theorem readParts_takes {reader : TokenReader Nat} {day : Nat → Language UInt8}
    (hday : Takes reader day) : Takes (readParts reader) (spelledParts day) := by
  intro bs p rest h
  obtain ⟨d, left, hday', hrun⟩ := exists_of_bind h
  obtain ⟨_, left₁, hminus, hrun₁⟩ := exists_of_bind hrun
  obtain ⟨m, left₂, hmonth, hrun₂⟩ := exists_of_bind hrun₁
  obtain ⟨_, left₃, hminus', hrun₃⟩ := exists_of_bind hrun₂
  obtain ⟨y, hyear, rfl⟩ := exists_of_map hrun₃
  obtain ⟨ds, hds, rfl⟩ := hday hday'
  obtain ⟨_, rfl, rfl⟩ := octet_takes _ hminus
  obtain ⟨ms, hms, rfl⟩ := readMonth_takes hmonth
  obtain ⟨_, rfl, rfl⟩ := octet_takes _ hminus'
  obtain ⟨ys, hys, rfl⟩ := fixed_takes 4 hyear
  exact ⟨_, Language.append_mem_mul hds (Language.append_mem_mul rfl (Language.append_mem_mul hms
    (Language.append_mem_mul rfl hys))), by simp⟩

/-- There is a date with some parts just when it has these parts. -/
theorem ofParts_eq_ok_iff {day month : Nat} {year : Int} {d : Date} :
    ofParts day month year = .ok d ↔ d.day = day ∧ d.month = month ∧ (d.year : Int) = year := by
  constructor
  · intro h
    unfold ofParts at h
    split_ifs at h with hyear hday
    obtain rfl := Except.ok.inj h
    exact ⟨rfl, rfl, Int.toNat_of_nonneg hyear.1⟩
  · rintro ⟨rfl, rfl, rfl⟩
    exact ofParts_of_date d

theorem ofToken_eq_ok_iff {bs : List UInt8} {d : Date} :
    ofToken bs = .ok d ↔ bs ∈ d.quotedToken := by
  refine ⟨fun h => ?_, ofToken_of_mem⟩
  unfold ofToken at h
  split at h
  · simp at h
  · rename_i day month year left hread
    obtain ⟨us, hus, rfl⟩ := readParts_takes readDay_takes hread
    split at h
    · simp at h
    · rename_i d' hparts
      split_ifs at h with hleft
      obtain rfl := Except.ok.inj h
      obtain ⟨rfl, rfl, hyear⟩ := ofParts_eq_ok_iff.1 hparts
      obtain rfl := Int.ofNat.inj hyear
      rw [List.isEmpty_iff.1 hleft, List.append_nil]
      exact hus

/-- Only a day of two places may start with a space, and a date without quotes has none. -/
theorem mem_token_iff {d : Date} {bs : List UInt8} :
    bs ∈ d.token ↔ bs ∈ d.quotedToken ∧ bs.all Octet.isDateChar = true := by
  refine ⟨fun h => ⟨mem_quotedToken h, all_of_mem_token h⟩, ?_⟩
  rintro ⟨⟨ds, (hds | hds) | hds, bs, hbs, rfl⟩, hall⟩
  · obtain ⟨_, rfl, ds, -, rfl⟩ := hds
    exact absurd (List.all_eq_true.1 hall Octet.sp (by simp)) (by decide)
  · exact Language.append_mem_mul (Or.inr hds) hbs
  · exact Language.append_mem_mul (Or.inl hds) hbs

end Date

/-! ### Tokens in requests -/

namespace Decoder

variable {α : Type} {c e : Cursor} {w : List UInt8}

theorem takeWhile1_eq_ok_iff {p : UInt8 → Bool} {expected : String} (hc : c.Steady) :
    takeWhile1 p expected c = (.ok w, e) ↔
      ∃ s, c.rest = w ++ s ∧ w ≠ [] ∧ w.all p = true ∧ Stops p s ∧ e = c.advance w.length := by
  constructor
  · intro h
    obtain ⟨s, hrest, hne, hw, hs, he⟩ := rest_of_takeWhile1 hc h
    exact ⟨s, hrest, hne, List.all_eq_true.2 hw, hs, he⟩
  · rintro ⟨s, hrest, hne, hw, hs, rfl⟩
    exact takeWhile1_of_rest hc hrest hne (List.all_eq_true.1 hw) hs

/-- A token in double quotes, whose octets are neither escaped nor line breaks. -/
theorem quotedToken_eq_ok_iff :
    quotedToken c = (.ok w, e) ↔ c.Steady ∧ ∃ s, w.all Octet.isUnquoted = true ∧
      c.rest = Octet.quote :: (w ++ Octet.quote :: s) ∧ e = c.advance (w.length + 2) := by
  have hread : ∀ {s}, c.Steady → w.all Octet.isUnquoted = true →
      c.rest = Octet.quote :: (w ++ Octet.quote :: s) →
      quotedToken c = (.ok w, c.advance (w.length + 2)) := by
    intro s hc hall hrest
    have hrest₁ : (c.advance 1).rest = w ++ Octet.quote :: s := Cursor.rest_advance_one hrest
    have hrest₂ : ((c.advance 1).advance w.length).rest = Octet.quote :: s :=
      Cursor.rest_advance_append hrest₁
    have hrun : takeWhile (fun b => b != Octet.quote && !Octet.isLineBreak b) (c.advance 1) =
        (.ok w, (c.advance 1).advance w.length) :=
      takeWhile_of_rest (hc.advance 1) hrest₁ (List.all_eq_true.1 hall) (Stops.cons rfl s)
    rw [quotedToken, bind_of_ok (expect_of_rest hc hrest), bind_of_ok hrun,
      bind_of_ok (expect_of_rest ((hc.advance 1).advance _) hrest₂), Cursor.advance_advance,
      Cursor.advance_advance, Nat.add_comm 1]
    rfl
  constructor
  · intro h
    obtain ⟨_, d, hquote, -⟩ := exists_of_bind h
    have hc : c.Steady := (exists_of_look hquote).1
    obtain ⟨_, ⟨hall, rfl⟩, hreaches⟩ := (quotedToken_recognizes (F := Anything) c).sound hc h
    have hrest : c.rest = Octet.quote :: (w ++ Octet.quote :: e.rest) := by
      rw [hreaches.rest_eq]
      simp
    exact ⟨hc, e.rest, hall, hrest, congrArg Prod.snd (h.symm.trans (hread hc hall hrest))⟩
  · rintro ⟨hc, s, hall, hrest, rfl⟩
    exact hread hc hall hrest

/-- A token is read as a whole once it was taken. -/
theorem token_eq_ok_iff {x : Decoder (List UInt8)} {kind : TokenKind}
    {read : List UInt8 → Except TokenFault α} {a : α} :
    (do token kind read (← x)) c = (.ok a, e) ↔ ∃ w, x c = (.ok w, e) ∧ read w = .ok a := by
  constructor
  · intro h
    obtain ⟨w, d, hx, hrun⟩ := exists_of_bind h
    cases hread : read w with
    | error fault => simp [token, hread, reject, fail] at hrun
    | ok a' =>
      obtain ⟨rfl, rfl⟩ : a' = a ∧ d = e := by simpa [token, hread, pure_apply] using hrun
      exact ⟨w, hx, hread⟩
  · rintro ⟨w, hx, hread⟩
    rw [bind_of_ok hx, token_of_ok hread]
    rfl

end Decoder

namespace Date

variable {c e : Cursor} {w : List UInt8}

theorem decodeOctets_eq_ok_iff :
    decodeOctets c = (.ok w, e) ↔ c.Steady ∧
      ((∃ s, c.rest = w ++ s ∧ w ≠ [] ∧ w.all Octet.isDateChar = true ∧
        Stops Octet.isDateChar s ∧ e = c.advance w.length) ∨
      ∃ s, w.all Octet.isUnquoted = true ∧ c.rest = Octet.quote :: (w ++ Octet.quote :: s) ∧
        e = c.advance (w.length + 2)) := by
  constructor
  · intro h
    obtain ⟨hc, b, bs, -, hrun⟩ := Decoder.exists_of_look h
    refine ⟨hc, ?_⟩
    split at hrun
    · exact Or.inr (Decoder.quotedToken_eq_ok_iff.1 hrun).2
    · exact Or.inl ((Decoder.takeWhile1_eq_ok_iff hc).1 hrun)
  · rintro ⟨hc, h⟩
    rcases h with ⟨s, hrest, hne, hall, hs, he⟩ | ⟨s, hall, hrest, he⟩
    · obtain ⟨b, v, rfl⟩ := List.exists_cons_of_ne_nil hne
      have hb : ¬ (b == Octet.quote) = true := by
        intro hb
        obtain rfl := beq_iff_eq.1 hb
        exact absurd (List.all_eq_true.1 hall _ (List.mem_cons_self ..)) (by decide)
      rw [decodeOctets, Decoder.bind_of_ok (Decoder.peek_of_rest hc hrest), if_neg hb]
      exact (Decoder.takeWhile1_eq_ok_iff hc).2 ⟨s, hrest, hne, hall, hs, he⟩
    · exact (Decoder.bind_of_ok (Decoder.peek_of_rest hc hrest)).trans
        (Decoder.quotedToken_eq_ok_iff.2 ⟨hc, s, hall, hrest, he⟩)

theorem decode_eq_ok_iff {d : Date} :
    decode c = (.ok d, e) ↔ c.Steady ∧
      ((∃ w s, w ∈ d.token ∧ c.rest = w ++ s ∧ Stops Octet.isDateChar s ∧
        e = c.advance w.length) ∨
      ∃ w s, w ∈ d.quotedToken ∧ c.rest = Octet.quote :: (w ++ Octet.quote :: s) ∧
        e = c.advance (w.length + 2)) := by
  rw [decode_eq, Decoder.token_eq_ok_iff]
  simp only [decodeOctets_eq_ok_iff, ofToken_eq_ok_iff]
  constructor
  · rintro ⟨w, ⟨hc, ⟨s, hrest, -, hall, hs, he⟩ | ⟨s, -, hrest, he⟩⟩, hw⟩
    · exact ⟨hc, Or.inl ⟨w, s, mem_token_iff.2 ⟨hw, hall⟩, hrest, hs, he⟩⟩
    · exact ⟨hc, Or.inr ⟨w, s, hw, hrest, he⟩⟩
  · rintro ⟨hc, ⟨w, s, hw, hrest, hs, he⟩ | ⟨w, s, hw, hrest, he⟩⟩
    · exact ⟨w, ⟨hc, Or.inl ⟨s, hrest, ne_nil_of_mem_token hw, all_of_mem_token hw, hs, he⟩⟩,
        mem_quotedToken hw⟩
    · exact ⟨w, ⟨hc, Or.inr ⟨s, all_of_mem_quotedToken hw, hrest, he⟩⟩, hw⟩

end Date

/-! ### Texts of dates -/

theorem Octet.ofText_append (s t : String) : ofText (s ++ t) = ofText s ++ ofText t := by
  rw [ofText, String.toList_append, List.flatMap_append]
  rfl

namespace Decimal

/-- A number is printed with digits that stand for it. -/
theorem ofText_padded_mem {count n : Nat} (h : (Nat.toDigits 10 n).length ≤ count) :
    Octet.ofText (padded count n) ∈ TokenReader.fixed count n := by
  have hchars : (padded count n).toList =
      List.replicate (count - (Nat.toDigits 10 n).length) '0' ++ Nat.toDigits 10 n := by
    rw [padded, String.toList_ofList]
  have hdigits : ∀ ch ∈ (padded count n).toList, ch.isDigit = true := by
    intro ch hch
    rw [hchars, List.mem_append] at hch
    rcases hch with hch | hch
    · rw [List.eq_of_mem_replicate hch]
      rfl
    · exact List.all_eq_true.1 (IdRange.all_toDigits n) ch hch
  have hset : (padded count n).toList.all SequenceSet.isSetChar = true :=
    List.all_eq_true.2 fun ch hch => by simp [SequenceSet.isSetChar, hdigits ch hch]
  obtain ⟨bs, -, hbs, htext⟩ := SequenceSet.exists_octets hset
  have hdigit : ∀ b, (Octet.toChar b).isDigit = Octet.isDigit b :=
    Octet.forall_octet (by decide +kernel)
  rw [htext]
  refine ⟨?_, List.all_eq_true.2 fun b hb => ?_, ?_⟩
  · rw [← List.length_map Octet.toChar, ← hbs, hchars, List.length_append, List.length_replicate]
    omega
  · rw [← hdigit]
    exact hdigits _ (hbs ▸ List.mem_map_of_mem hb)
  · rw [value, ← SequenceSet.ofDigitChars_map, ← hbs, hchars, Nat.ofDigitChars_append,
      Nat.ofDigitChars_replicate_zero, Nat.mul_zero,
      Nat.ofDigitChars_toDigits (by decide) (by decide)]

theorem ofText_padded_mem_of_lt {count n : Nat} (hcount : 0 < count) (h : n < 10 ^ count) :
    Octet.ofText (padded count n) ∈ TokenReader.fixed count n :=
  ofText_padded_mem ((Nat.length_toDigits_le_iff (by decide) hcount).2 h)

theorem toString_eq_padded (n : Nat) : toString n = padded (Nat.toDigits 10 n).length n := by
  rw [padded, Nat.sub_self]
  rfl

end Decimal

namespace Date

open TokenReader

theorem ofText_toText_mem (d : Date) : Octet.ofText d.toText ∈ d.token := by
  have hday : Octet.ofText (toString d.day) ∈ fixed 1 d.day + fixed 2 d.day := by
    have hpos : 0 < (Nat.toDigits 10 d.day).length := Nat.length_toDigits_pos
    have hle := (Nat.length_toDigits_le_iff (b := 10) (k := 2) (by decide) (by decide)).2 d.day_lt
    have hmem := Decimal.ofText_padded_mem (Nat.le_refl (Nat.toDigits 10 d.day).length)
    rw [← Decimal.toString_eq_padded] at hmem
    rcases Nat.lt_or_ge 1 (Nat.toDigits 10 d.day).length with hlt | hge
    · exact Or.inr (Nat.le_antisymm hle hlt ▸ hmem)
    · exact Or.inl (Nat.le_antisymm hge hpos ▸ hmem)
  have hyear : Octet.ofText (Decimal.padded 4 d.year) ∈ fixed 4 d.year :=
    Decimal.ofText_padded_mem_of_lt (by decide) (Nat.lt_succ_of_le d.year_le)
  have hname : Octet.ofText (monthWord d.month) ∈ named d.month := rfl
  simp only [toText, monthName_eq_monthWord, Octet.ofText_append, List.append_assoc]
  exact Language.append_mem_mul hday (Language.append_mem_mul rfl (Language.append_mem_mul hname
    (Language.append_mem_mul rfl hyear)))

/-- A date is read exactly where a rendering of it stands: one without quotes, which no further
octet of dates may follow, or one in double quotes.  The cursor is then behind the rendering, with
its quotes.  The text of a date is a rendering of it. -/
theorem decode_exact (c : Cursor) :
    (∀ d e, decode c = (.ok d, e) ↔ c.Steady ∧
      ((∃ w s, w ∈ d.token ∧ c.rest = w ++ s ∧ Stops Octet.isDateChar s ∧
        e = c.advance w.length) ∨
      ∃ w s, w ∈ d.quotedToken ∧ c.rest = Octet.quote :: (w ++ Octet.quote :: s) ∧
        e = c.advance (w.length + 2))) ∧
    ∀ (d : Date) s, c.Steady →
      (c.rest = Octet.ofText d.toText ++ s → Stops Octet.isDateChar s →
        decode c = (.ok d, c.advance (Octet.ofText d.toText).length)) ∧
      (c.rest = Octet.quote :: (Octet.ofText d.toText ++ Octet.quote :: s) →
        decode c = (.ok d, c.advance ((Octet.ofText d.toText).length + 2))) := by
  refine ⟨fun d e => decode_eq_ok_iff, fun d s hc => ⟨fun hrest hs => ?_, fun hrest => ?_⟩⟩
  · exact decode_eq_ok_iff.2 ⟨hc, Or.inl ⟨_, s, ofText_toText_mem d, hrest, hs, rfl⟩⟩
  · exact decode_eq_ok_iff.2 ⟨hc, Or.inr ⟨_, s, mem_quotedToken (ofText_toText_mem d), hrest, rfl⟩⟩

/-- A leap day with its month in any letter case, and the text of the first day of all. -/
theorem decode_exact_leapDay :
    let leapDay : Date := ⟨2000, 2, 29, by decide, by decide, by decide⟩
    let first : Date := ⟨0, 1, 1, by decide, by decide, by decide⟩
    let c := Cursor.ofOctets (Octet.ofText "29-fEB-2000)")
    let q := Cursor.ofOctets (Octet.ofText "\"1-Jan-0000\")")
    decode c = (.ok leapDay, c.advance 11) ∧ first.toText = "1-Jan-0000" ∧
      decode q = (.ok first, q.advance 12) := by
  intro leapDay first c q
  have hc : c.Steady := Cursor.steady_ofOctets _
  have hq : q.Steady := Cursor.steady_ofOctets _
  have hmonth : (Octet.ofText "fEB").map Octet.upper = (Octet.ofText "Feb").map Octet.upper := by
    decide +kernel
  have hleap : Octet.ofText "29-fEB-2000" ∈ leapDay.token :=
    Language.append_mem_mul (a := Octet.ofText "29") (Or.inr ⟨rfl, by decide, by decide⟩)
      (Language.append_mem_mul (a := [Octet.minus]) rfl
        (Language.append_mem_mul (a := Octet.ofText "fEB") hmonth
          (Language.append_mem_mul (a := [Octet.minus]) rfl
            (show Octet.ofText "2000" ∈ _ from ⟨rfl, by decide, by decide⟩))))
  have htext : first.toText = "1-Jan-0000" := by decide +kernel
  refine ⟨?_, htext, ?_⟩
  · exact ((decode_exact c).1 _ _).2
      ⟨hc, Or.inl ⟨_, [Octet.rparen], hleap, by decide, Stops.cons rfl _, rfl⟩⟩
  · have h := ((decode_exact q).2 first [Octet.rparen] hq).2 (by rw [htext]; decide)
    rwa [htext] at h

end Date

end ImapRequest
