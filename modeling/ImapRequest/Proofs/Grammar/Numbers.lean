import ImapRequest.Proofs.Grammar.Values
import ImapRequest.Proofs.Tally

/-!
# Numbers to the octet

A number may have any number of digits, most of them zeros, and its value is checked behind every
digit.  It is rejected just where its digits so far are too many for 32 bits, long before 64 bits
are.  What may overflow is the count of the digits; as long as it fits, a number in machine words is
read like one of any size.

* `Decoder.numberInWords_eq`, `Decoder.positiveInWords_eq` : words make no difference then;
* `Decoder.EvaluatesDigits` : the value of digits is exact, however many there are;
* `Decoder.ReadsNumbers` : which numbers are read, and where the others are rejected;
* `Decoder.number_exact` : values are exact everywhere, and numbers are read like this wherever the
  count of their digits fits;
* `Decoder.number_overflows` : what becomes of numbers whose count does not.
-/

namespace ImapRequest

namespace Decoder

/-! ### Numbers -/

variable {c e : Cursor} {n : Nat}

theorem steady_of_number (h : number c = (.ok n, e)) : c.Steady := by
  refine Classical.byContradiction fun hc => ?_
  obtain ⟨io, hpeek⟩ := peek_of_not_steady hc
  have hrun : digitsUpTo c.rest.length 0 0 c = (.ok (0, 0), c) := digitsUpTo_of_not_steady hc
  have hdigits : digits c = (.error (.io io), c) := by
    rw [digits, bind_of_ok (bound_apply c), bind_of_ok hrun]
    exact bind_of_error hpeek
  simp [number, bind_of_error hdigits] at h

theorem value_take_mono (ds : List UInt8) {j k : Nat} (h : j ≤ k) :
    Decimal.value (ds.take j) ≤ Decimal.value (ds.take k) := by
  rw [← Nat.min_eq_left h, ← List.take_take]
  exact Decimal.value_take_le _ j

/-- The digits make too large a number from one of them on. -/
theorem lt_value_take_iff {front : List UInt8} {b : UInt8} (more : List UInt8)
    (hle : Decimal.value front ≤ Decimal.maxNumber)
    (hlt : Decimal.maxNumber < Decimal.value (front ++ [b])) (j : Nat) :
    Decimal.maxNumber < Decimal.value ((front ++ b :: more).take j) ↔ front.length + 1 ≤ j := by
  have hbefore : (front ++ b :: more).take front.length = front := List.take_left
  have hbehind : (front ++ b :: more).take (front.length + 1) = front ++ [b] := by
    rw [List.take_length_add_append]
    rfl
  constructor
  · intro hj
    refine Nat.lt_of_not_le fun hbefore' => ?_
    have hmono := value_take_mono (front ++ b :: more) hbefore'
    rw [hbefore] at hmono
    exact Nat.not_le.2 hj (Nat.le_trans hmono hle)
  · intro hj
    have hmono := value_take_mono (front ++ b :: more) hj
    rw [hbehind] at hmono
    exact Nat.lt_of_lt_of_le hlt hmono

/-- Digits that make too large a number have a first digit that makes it so, behind which they are
rejected. -/
theorem digits_of_too_large (hc : c.Steady) {ds s : List UInt8} (hds : ds.all Octet.isDigit = true)
    (hvalue : Decimal.maxNumber < Decimal.value ds) (hrest : c.rest = ds ++ s) :
    ∃ k ≤ ds.length, (∀ j, Decimal.maxNumber < Decimal.value (ds.take j) ↔ k ≤ j) ∧
      digits c = (.error (.rejected (.numberOutOfRange k)), c.advance k) := by
  rcases exists_digits 0 (Nat.zero_le _) ds with
    ⟨front, more, rfl, -, hle, hmore⟩ | ⟨front, b, more, rfl, -, -, hle, hlt⟩
  · cases more with
    | nil =>
      rw [List.append_nil] at hvalue
      exact absurd hvalue (Nat.not_lt.2 hle)
    | cons b more =>
      have hb : Octet.isDigit b = true := List.all_eq_true.1 hds b (by simp)
      exact absurd (hmore b rfl) (by simp [hb])
  · rw [List.all_append, List.all_cons, Bool.and_eq_true, Bool.and_eq_true] at hds
    exact ⟨front.length + 1, by simp, lt_value_take_iff more hle hlt,
      digits_of_lt hc (by simpa using hrest) hds.1 hds.2.1 hle hlt⟩

/-! ### In machine words -/

variable {overflow : Overflow} {w : UInt32}

theorem le_maxNumber_of_number (h : number c = (.ok n, e)) : n ≤ Decimal.maxNumber := by
  obtain ⟨ds, s, hds, -⟩ := (number_eq_ok_iff (steady_of_number h)).1 h
  exact hds.le_maxNumber

theorem numberInWords_eq (overflow : Overflow) (hlength : (digitRun c).length < 2 ^ 31) :
    numberInWords overflow c = inWords (number c) := by
  rw [numberInWords, number, bind_apply, bind_apply, digitsInWords_eq overflow hlength]
  rcases digits c with ⟨failure | value, d⟩
  · rfl
  · simp only [inWords, Except.map, bind_apply, isConsumed]
    cases d.isConsumed with
    | true => rfl
    | false =>
      simp only [Bool.false_eq_true, ↓reduceIte, bind_apply]
      rcases peek d with ⟨failure | b, d⟩
      · rfl
      · dsimp only
        split <;> rfl

theorem positiveInWords_eq (overflow : Overflow) (hlength : (digitRun c).length < 2 ^ 31) :
    positiveInWords overflow c = inWords (positive c) := by
  rw [positiveInWords, positive, bind_apply, bind_apply, numberInWords_eq overflow hlength]
  cases hnumber : number c with
  | mk r d =>
    cases r with
    | error failure => rfl
    | ok n =>
      have hfits : n < 2 ^ 32 := Nat.lt_succ_of_le (le_maxNumber_of_number hnumber)
      have hzero : UInt32.ofNat n = 0 ↔ n = 0 := by
        rw [← UInt32.toNat_inj, UInt32.toNat_ofNat_of_lt' hfits]
        rfl
      simp only [inWords, Except.map, hzero]
      split <;> rfl

/-- An answer in words is the one that the words stand for. -/
theorem inWords_eq_ok_iff {r : Except Failure Nat × Cursor}
    (hr : ∀ n, r.1 = .ok n → n ≤ Decimal.maxNumber) :
    inWords r = (.ok (some w), e) ↔ r = (.ok w.toNat, e) := by
  rcases r with ⟨failure | n, d⟩
  · simp [inWords, Except.map]
  · have hfits : n < 2 ^ 32 := Nat.lt_succ_of_le (hr n rfl)
    have hword : UInt32.ofNat n = w ↔ n = w.toNat := by
      rw [← UInt32.toNat_inj, UInt32.toNat_ofNat_of_lt' hfits]
    simp [inWords, Except.map, hword]

theorem inWords_ne_none (r : Except Failure Nat × Cursor) : (inWords r).1 ≠ .ok none := by
  rcases r with ⟨failure | n, d⟩ <;> simp [inWords, Except.map]

theorem positiveInWords_eq_ok_iff : positiveInWords overflow c = (.ok (some w), e) ↔
    numberInWords overflow c = (.ok (some w), e) ∧ w ≠ 0 := by
  constructor
  · intro h
    obtain ⟨m, d, hnumber, hrun⟩ := exists_of_bind h
    cases m with
    | none => simp [pure_apply] at hrun
    | some m =>
      dsimp only at hrun
      split at hrun
      · simp [reject, fail] at hrun
      · rename_i hm
        obtain ⟨rfl, rfl⟩ : m = w ∧ d = e := by simpa [pure_apply] using hrun
        exact ⟨hnumber, hm⟩
  · rintro ⟨hnumber, hw⟩
    rw [positiveInWords, bind_of_ok hnumber]
    dsimp only
    rw [if_neg hw]
    rfl

/-- The value of the digits at a cursor is exact, whatever becomes of their count. -/
structure EvaluatesDigits (overflow : Overflow) (c : Cursor) : Prop where
  /-- In the end the loop over digits holds the value of those that it has read. -/
  reads : ∀ tally e, tallyUpTo overflow c.rest.length {} c = (.ok (some tally), e) →
    ∃ ds s, c.rest = ds ++ s ∧ ds.all Octet.isDigit = true ∧
      tally.count = Int32.ofNat ds.length ∧ tally.value.toNat = Decimal.value ds ∧
      e = c.advance ds.length
  /-- It only rejects the first digit that makes the number too large. -/
  rejects : ∀ failure e, tallyUpTo overflow c.rest.length {} c = (.error failure, e) →
    ∃ ds s, c.rest = ds ++ s ∧ ds.all Octet.isDigit = true ∧
      (∀ j, Decimal.maxNumber < Decimal.value (ds.take j) ↔ ds.length ≤ j) ∧
      failure = .rejected (.numberOutOfRange (Int32.ofNat ds.length).toInt) ∧
      e = c.advance ds.length
  /-- It is their count that makes the program panic. -/
  panics : ∀ e, tallyUpTo overflow c.rest.length {} c = (.ok none, e) →
    2 ^ 31 ≤ (digitRun c).length

/-- How numbers are read in words at a cursor. -/
structure ReadsNumbers (overflow : Overflow) (c : Cursor) : Prop where
  /-- A number is read exactly where its digits stand, of which there is at least one, in front of
  an octet that ends it or of nothing that the source still shows.  The cursor is then behind the
  digits. -/
  accepts : ∀ w e, numberInWords overflow c = (.ok (some w), e) ↔ c.Steady ∧
    ∃ ds s, Decimal.IsNumber ds w.toNat ∧ NumberEnds s ∧ c.rest = ds ++ s ∧ e = c.advance ds.length
  /-- Digits that make too large a number are rejected behind the first one that makes it so. -/
  rejects : ∀ ds s, c.Steady → ds.all Octet.isDigit = true →
    Decimal.maxNumber < Decimal.value ds → c.rest = ds ++ s → ∃ k ≤ ds.length,
      (∀ j, Decimal.maxNumber < Decimal.value (ds.take j) ↔ k ≤ j) ∧
      ∃ error : DecodingError, error.kind = .illegalArguments ∧ error = .numberOutOfRange k ∧
        numberInWords overflow c = (.error (.rejected error), c.advance k)
  /-- A number above zero is one that is not zero. -/
  positive : ∀ w e, positiveInWords overflow c = (.ok (some w), e) ↔
    numberInWords overflow c = (.ok (some w), e) ∧ w ≠ 0
  /-- The digits are counted, and no count overflows. -/
  counts : ∀ r e, tallyUpTo overflow c.rest.length {} c = (.ok r, e) →
    ∃ tally ds s, r = some tally ∧ c.rest = ds ++ s ∧ tally.count.toInt = ds.length ∧
      e = c.advance ds.length
  /-- Nothing makes the program panic. -/
  goes_on : (numberInWords overflow c).1 ≠ .ok none ∧ (positiveInWords overflow c).1 ≠ .ok none

namespace EvaluatesDigits

variable {ds s : List UInt8}

theorem of_read {tally : Tally} (hrest : c.rest = ds ++ s) (hds : ds.all Octet.isDigit = true)
    (hcount : tally.count = Int32.ofNat ds.length) (hvalue : tally.value.toNat = Decimal.value ds)
    (hrun : tallyUpTo overflow c.rest.length {} c = (.ok (some tally), c.advance ds.length)) :
    EvaluatesDigits overflow c where
  reads tally' e h := by
    obtain ⟨rfl, rfl⟩ : tally = tally' ∧ c.advance ds.length = e := by simpa [hrun] using h
    exact ⟨ds, s, hrest, hds, hcount, hvalue, rfl⟩
  rejects failure e h := by simp [hrun] at h
  panics e h := by simp [hrun] at h

theorem of_rejection (hrest : c.rest = ds ++ s) (hds : ds.all Octet.isDigit = true)
    (hfirst : ∀ j, Decimal.maxNumber < Decimal.value (ds.take j) ↔ ds.length ≤ j)
    (hrun : tallyUpTo overflow c.rest.length {} c =
      (.error (.rejected (.numberOutOfRange (Int32.ofNat ds.length).toInt)),
        c.advance ds.length)) : EvaluatesDigits overflow c where
  reads tally e h := by simp [hrun] at h
  rejects failure e h := by
    rw [hrun] at h
    obtain ⟨hfailure, rfl⟩ := Prod.mk.inj h
    exact ⟨ds, s, hrest, hds, hfirst, (Except.error.inj hfailure).symm, rfl⟩
  panics e h := by simp [hrun] at h

theorem of_panic (hmany : 2 ^ 31 ≤ (digitRun c).length)
    (hrun : tallyUpTo overflow c.rest.length {} c = (.ok none, e)) :
    EvaluatesDigits overflow c where
  reads tally e h := by simp [hrun] at h
  rejects failure e h := by simp [hrun] at h
  panics _ _ := hmany

end EvaluatesDigits

theorem evaluatesDigits (overflow : Overflow) (c : Cursor) : EvaluatesDigits overflow c := by
  by_cases hc : c.Steady
  case neg =>
    have hrest : c.rest = [] ++ c.rest := rfl
    exact .of_read hrest rfl rfl rfl (tallyUpTo_of_not_steady hc)
  rcases tallyUpTo_cases overflow hc with ⟨ds, s, hrest, hds, hle, hrun⟩ |
    ⟨ds, b, s, hrest, hds, hle, hlt, hrun⟩ | ⟨hmany, hrun⟩
  · have hmax : Decimal.maxNumber < UInt64.size := by decide
    exact .of_read hrest hds rfl (Tally.toNat_value_ofNat (Nat.lt_of_le_of_lt hle hmax)) hrun
  · refine .of_rejection hrest hds (fun j => ?_) hrun
    rw [List.length_append]
    exact lt_value_take_iff [] hle hlt j
  · exact .of_panic hmany hrun

theorem readsNumbers (overflow : Overflow) (hlength : (digitRun c).length < 2 ^ 31) :
    ReadsNumbers overflow c where
  accepts w e := by
    rw [numberInWords_eq overflow hlength, inWords_eq_ok_iff fun n hn =>
      le_maxNumber_of_number (e := (number c).2) (Prod.ext hn rfl)]
    constructor
    · intro h
      have hc := steady_of_number h
      exact ⟨hc, (number_eq_ok_iff hc).1 h⟩
    · rintro ⟨hc, h⟩
      exact (number_eq_ok_iff hc).2 h
  rejects ds s hc hds hvalue hrest := by
    obtain ⟨k, hk, hfirst, hdigits⟩ := digits_of_too_large hc hds hvalue hrest
    refine ⟨k, hk, hfirst, .numberOutOfRange k, rfl, rfl, ?_⟩
    have hnumber : number c = (.error (.rejected (.numberOutOfRange k)), c.advance k) :=
      bind_of_error hdigits
    rw [numberInWords_eq overflow hlength, hnumber]
    rfl
  positive w e := positiveInWords_eq_ok_iff
  counts r e h := by
    cases r with
    | none => exact absurd hlength (Nat.not_lt.2 ((evaluatesDigits overflow c).panics e h))
    | some tally =>
      obtain ⟨ds, s, hrest, hds, hcount, -, he⟩ := (evaluatesDigits overflow c).reads tally e h
      have hfits := Nat.lt_of_le_of_lt (length_le_digitRun hrest hds) hlength
      exact ⟨tally, ds, s, rfl, hrest, hcount ▸ Int32.toInt_ofNat_of_lt hfits, he⟩
  goes_on := by
    rw [numberInWords_eq overflow hlength, positiveInWords_eq overflow hlength]
    exact ⟨inWords_ne_none _, inWords_ne_none _⟩

/-- The value of digits is exact at every cursor, whether arithmetic that overflows panics or wraps
around.  So a number is read in words as its digits say, and one above zero likewise, wherever there
are fewer than `2 ^ 31` digits. -/
theorem number_exact (overflow : Overflow) (c : Cursor) :
    EvaluatesDigits overflow c ∧ ((digitRun c).length < 2 ^ 31 → ReadsNumbers overflow c) :=
  ⟨evaluatesDigits overflow c, readsNumbers overflow⟩

/-- The largest number with zeros in front, and one digit more. -/
theorem number_exact_largest :
    let c := Cursor.ofOctets (Octet.ofText "0004294967295)")
    let d := Cursor.ofOctets (Octet.ofText "42949672950000 ")
    numberInWords .panics c = (.ok (some 4294967295), c.advance 13) ∧
      (∃ error : DecodingError, error.kind = .illegalArguments ∧
        numberInWords .wraps d = (.error (.rejected error), d.advance 11)) ∧
      ∃ ds s, c.rest = ds ++ s ∧ ds.all Octet.isDigit = true ∧ 13 = Int32.ofNat ds.length ∧
        (4294967295 : UInt64).toNat = Decimal.value ds ∧ c.advance 13 = c.advance ds.length := by
  intro c d
  have hc : c.Steady := Cursor.steady_ofOctets _
  have hd : d.Steady := Cursor.steady_ofOctets _
  have hlargest : Decimal.IsNumber (Octet.ofText "0004294967295") 4294967295 :=
    ⟨by decide, by decide, by decide +kernel, by decide⟩
  have hends : NumberEnds [Octet.rparen] := by
    intro b hb
    obtain rfl : Octet.rparen = b := Option.some.inj hb
    rfl
  have hreads : ReadsNumbers .wraps d := (number_exact .wraps d).2 (by decide +kernel)
  obtain ⟨k, hk, hfirst, error, hkind, -, hrun⟩ := hreads.rejects
    (Octet.ofText "42949672950000") (Octet.ofText " ") hd (by decide)
    (by decide +kernel) (by decide)
  obtain rfl : k = 11 := by
    refine Nat.le_antisymm ((hfirst 11).1 (by decide +kernel)) (Nat.lt_of_not_le fun hle => ?_)
    exact absurd ((hfirst 10).2 hle) (by decide +kernel)
  refine ⟨?_, ⟨error, hkind, hrun⟩, ?_⟩
  · exact (((number_exact .panics c).2 (by decide +kernel)).accepts _ _).2
      ⟨hc, _, [Octet.rparen], hlargest, hends, by decide, by decide⟩
  · exact (number_exact .wraps c).1.reads ⟨13, 4294967295⟩ _ (by decide +kernel)

/-! ### More digits than can be counted -/

/-- More digits than can be counted are no number: a program panics at the first one that is too
many, or it goes on, and where its count has come back to zero, it has seen no digit. -/
theorem number_overflows {b : UInt8} {ds s : List UInt8} (hc : c.Steady)
    (hrest : c.rest = ds ++ b :: s) (hds : ds.all Octet.isDigit = true)
    (hle : Decimal.value ds ≤ Decimal.maxNumber) (hb : Octet.isDigit b = false) :
    (2 ^ 31 ≤ ds.length → numberInWords .panics c = (.ok none, c.advance (2 ^ 31))) ∧
    (2 ^ 32 ∣ ds.length → numberInWords .wraps c =
      (.error (.rejected (.unexpected b "number")), c.advance ds.length)) := by
  constructor
  · intro hlength
    rw [numberInWords, bind_of_ok (digitsInWords_of_panic hc hrest hds hle hlength)]
    rfl
  · intro hlength
    rw [numberInWords, bind_of_error (digitsInWords_of_wrapped hc hrest hds hle hb hlength)]

theorem value_zeros (n : Nat) : Decimal.value (List.replicate n 0x30) = 0 := by
  induction n with
  | zero => rfl
  | succ n ih => exact ih

theorem number_of_zeros (n : Nat) :
    let zeros := Cursor.ofOctets (List.replicate n 0x30 ++ [Octet.sp])
    (2 ^ 31 ≤ n → numberInWords .panics zeros = (.ok none, zeros.advance (2 ^ 31))) ∧
    (2 ^ 32 ∣ n → numberInWords .wraps zeros =
      (.error (.rejected (.unexpected Octet.sp "number")), zeros.advance n)) := by
  have hdigits : (List.replicate n (0x30 : UInt8)).all Octet.isDigit = true :=
    List.all_eq_true.2 fun b hb => by rw [List.eq_of_mem_replicate hb]; rfl
  have hle : Decimal.value (List.replicate n 0x30) ≤ Decimal.maxNumber :=
    (value_zeros n).trans_le (Nat.zero_le _)
  have hsp : Octet.isDigit Octet.sp = false := rfl
  have h := number_overflows (c := Cursor.ofOctets (List.replicate n 0x30 ++ [Octet.sp]))
    (Cursor.steady_ofOctets _) rfl hdigits hle hsp
  rwa [List.length_replicate] at h

/-- A reader that fails behind the digits `12` does not keep them from being a number, although
neither an octet that ends it nor the end of input is there.  And `2 ^ 32` zeros in front of a space
are not read as a number: a program either panics when it counts them, or has counted none in the
end. -/
theorem number_before_failure :
    let broken := Cursor.ofStream (Octet.ofText "12") 8 (some 2) none
    let zeros := Cursor.ofOctets (List.replicate (2 ^ 32) 0x30 ++ [Octet.sp])
    (∀ overflow, numberInWords overflow broken = (.ok (some 12), broken.advance 2)) ∧
      (broken.advance 2).peek = .error .readerFailed ∧
      numberInWords .panics zeros = (.ok none, zeros.advance (2 ^ 31)) ∧
      numberInWords .wraps zeros =
        (.error (.rejected (.unexpected Octet.sp "number")), zeros.advance (2 ^ 32)) := by
  intro broken zeros
  have hbroken : broken.Steady := by
    intro link hlink
    obtain rfl := Source.stream.inj hlink
    decide
  have htwelve : Decimal.IsNumber (Octet.ofText "12") 12 :=
    ⟨by decide, by decide, by decide +kernel, by decide⟩
  have hnumber : number broken = (.ok 12, broken.advance 2) :=
    (number_eq_ok_iff hbroken).2 ⟨_, [], htwelve, by simp [NumberEnds], by decide, by decide⟩
  refine ⟨fun overflow => ?_, by decide +kernel, (number_of_zeros _).1 (by norm_num),
    (number_of_zeros _).2 (Nat.dvd_refl _)⟩
  rw [numberInWords_eq overflow (by decide +kernel), hnumber]
  rfl

end Decoder

end ImapRequest
