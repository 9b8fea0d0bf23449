import ImapRequest.Proofs.Number
import Mathlib.Algebra.Group.Nat.Defs

/-!
# Digits in machine words

The value is checked behind every digit.  One digit more makes at most ten times a number of 32 bits
and nine, which 64 bits hold, so the value is exact however many digits there are.  Nothing bounds
their count, since any number of zeros may stand in front; its word holds what is below `2 ^ 31`.

* `Tally.push_ofNat` : one digit more, where its count is reached;
* `Decoder.tallyUpTo_append` : the digits of a run, none of which makes the number too large;
* `Decoder.digitsInWords_eq` : as long as the count fits, words make no difference;
* `Decoder.digitsInWords_of_panic`, `Decoder.digitsInWords_of_wrapped` : what happens where it does
  not.
-/

namespace ImapRequest

namespace Overflow

variable {overflow : Overflow} {α : Type} {fits : Bool} {word : α}

/-- A count of digits fits its word, or the program goes on where it does not. -/
def Reaches (overflow : Overflow) (count : Nat) : Prop := count < 2 ^ 31 ∨ overflow = .wraps

theorem Reaches.mono {count count' : Nat} (h : overflow.Reaches count) (hle : count' ≤ count) :
    overflow.Reaches count' :=
  h.imp_left fun hlt => Nat.lt_of_le_of_lt hle hlt

theorem eq_panics_of_not_reaches {count : Nat} (h : ¬ overflow.Reaches count) :
    overflow = .panics ∧ 2 ^ 31 ≤ count := by
  obtain ⟨hlarge, hwraps⟩ := not_or.1 h
  refine ⟨?_, Nat.le_of_not_lt hlarge⟩
  cases overflow with
  | panics => rfl
  | wraps => exact absurd rfl hwraps

theorem result_of_fits (h : fits = true) : overflow.result fits word = some word :=
  if_pos (by simp [h])

theorem result_wraps : Overflow.wraps.result fits word = some word := if_pos (by simp)

theorem result_panics (h : fits = false) : Overflow.panics.result fits word = none := by
  subst h
  rfl

end Overflow

namespace Tally

variable {overflow : Overflow} {count value : Nat} {d : UInt8}

/-- The words of a count and a value. -/
def ofNat (count value : Nat) : Tally := ⟨Int32.ofNat count, UInt64.ofNat value⟩

theorem toInt_count_ofNat (h : count < 2 ^ 31) : (ofNat count value).count.toInt = count :=
  Int32.toInt_ofNat_of_lt h

theorem toNat_value_ofNat (h : value < UInt64.size) : (ofNat count value).value.toNat = value :=
  UInt64.toNat_ofNat_of_lt' h

theorem count_ofNat_ne_zero (hne : count ≠ 0) (h : count < 2 ^ 31) :
    (ofNat count value).count ≠ 0 := by
  intro h0
  have hcount : (ofNat count value).count.toInt = count := toInt_count_ofNat h
  rw [h0] at hcount
  exact hne (Int.ofNat_eq_zero.1 hcount.symm)

/-- The count is zero again where it has wrapped around completely. -/
theorem count_ofNat_eq_zero (h : 2 ^ 32 ∣ count) : (ofNat count value).count = 0 := by
  obtain ⟨times, rfl⟩ := h
  refine (Int32.ofNat_mul _ _).trans ?_
  rw [show Int32.ofNat (2 ^ 32) = 0 from rfl, Int32.zero_mul]

/-- A count can be raised unless it is the last one that fits. -/
theorem count_lt_iff (h : count < 2 ^ 31) :
    (ofNat count value).count < Int32.maxValue ↔ count + 1 < 2 ^ 31 := by
  have hmax : Int32.maxValue.toInt = 2147483647 := rfl
  rw [Int32.lt_iff_toInt_lt, toInt_count_ofNat h, hmax]
  omega

/-- A value that has passed its check has room for one more digit. -/
theorem push_ofNat (hcount : overflow.Reaches (count + 1)) (hvalue : value ≤ Decimal.maxNumber)
    (hd : Octet.isDigit d = true) :
    (ofNat count value).push overflow d =
      some (ofNat (count + 1) (10 * value + Octet.digitValue d)) := by
  have hmax : Decimal.maxNumber = 4294967295 := rfl
  have hsize : UInt64.size = 18446744073709551616 := rfl
  obtain ⟨hge, hle⟩ : 0x30 ≤ d ∧ d ≤ 0x39 := by simpa [Octet.isDigit] using hd
  have hdigit : (d - 0x30).toNat = Octet.digitValue d := UInt8.toNat_sub_of_le _ _ hge
  have hsmall : Octet.digitValue d ≤ 9 := Nat.sub_le_of_le_add (UInt8.le_iff_toNat_le.1 hle)
  have hcounted : overflow.result (decide ((ofNat count value).count < Int32.maxValue))
      ((ofNat count value).count + 1) = some (Int32.ofNat (count + 1)) := by
    rw [Int32.ofNat_add]
    rcases hcount with hlt | rfl
    · exact Overflow.result_of_fits (decide_eq_true
        ((count_lt_iff (Nat.lt_of_succ_lt hlt)).2 hlt))
    · exact Overflow.result_wraps
  have htenfold : (ofNat count value).value * 10 = UInt64.ofNat (value * 10) :=
    (UInt64.ofNat_mul value 10).symm
  have hsum : UInt64.ofNat (value * 10) + (d - 0x30).toUInt64 =
      UInt64.ofNat (10 * value + Octet.digitValue d) := by
    rw [UInt64.ofNat_add, Nat.mul_comm 10, ← hdigit, ← UInt8.toNat_toUInt64, UInt64.ofNat_toNat]
  have hfits : (UInt64.ofNat (value * 10)).toNat = value * 10 :=
    UInt64.toNat_ofNat_of_lt' (by omega)
  rw [push, hcounted, Option.bind_eq_bind, Option.bind_some, htenfold,
    toNat_value_ofNat (by omega), Overflow.result_of_fits (decide_eq_true (by omega)),
    Option.bind_eq_bind, Option.bind_some, Overflow.result_of_fits (decide_eq_true hge),
    Option.bind_eq_bind, Option.bind_some, hfits, hdigit, hsum,
    Overflow.result_of_fits (decide_eq_true (by omega))]
  rfl

/-- The last count that fits can not be raised. -/
theorem push_panics (hcount : count + 1 = 2 ^ 31) : (ofNat count value).push .panics d = none := by
  have hlast : ¬ (ofNat count value).count < Int32.maxValue := by
    rw [count_lt_iff (by omega)]
    omega
  rw [push, Overflow.result_panics (decide_eq_false hlast)]
  rfl

end Tally

namespace Decimal

theorem value_take_le (ds : List UInt8) (k : Nat) : value (ds.take k) ≤ value ds := by
  calc value (ds.take k)
    _ ≤ extend (value (ds.take k)) (ds.drop k) := le_extend _ _
    _ = value (ds.take k ++ ds.drop k) := (extend_append 0 _ _).symm
    _ = value ds := by rw [List.take_append_drop]

end Decimal

namespace Decoder

variable {overflow : Overflow} {c e : Cursor} {b : UInt8} {ds s : List UInt8} {n : Nat}

/-! ### The loop over digits -/

theorem tallyUpTo_of_digit {limit : Nat} {tally : Tally} (hc : c.Steady) (hrest : c.rest = b :: s)
    (hb : Octet.isDigit b = true) :
    tallyUpTo overflow (limit + 1) tally c = match tally.push overflow b with
      | some tally =>
        if Decimal.maxNumber < tally.value.toNat then
          (.error (.rejected (.numberOutOfRange tally.count.toInt)), c.advance 1)
        else
          tallyUpTo overflow limit tally (c.advance 1)
      | none => (.ok none, c.advance 1) := by
  rw [tallyUpTo, bind_of_ok (isConsumed_apply hc), hrest]
  simp only [List.isEmpty_cons, Bool.false_eq_true, ↓reduceIte]
  rw [bind_of_ok (peek_of_rest hc hrest), if_pos hb, bind_of_ok (consume_of_rest hc hrest)]
  cases tally.push overflow b with
  | none => rfl
  | some tally =>
    dsimp only
    split <;> rfl

theorem tallyUpTo_of_end {limit : Nat} {tally : Tally} (hc : c.Steady)
    (hlimit : c.rest.length ≤ limit)
    (hs : ∀ b ∈ c.rest.head?, Octet.isDigit b = false) :
    tallyUpTo overflow limit tally c = (.ok (some tally), c) := by
  cases limit with
  | zero => rfl
  | succ limit =>
    rw [tallyUpTo, bind_of_ok (isConsumed_apply hc)]
    cases hrest : c.rest with
    | nil => rfl
    | cons b s =>
      simp only [List.isEmpty_cons, Bool.false_eq_true, ↓reduceIte]
      rw [bind_of_ok (peek_of_rest hc hrest), hs b (by simp [hrest])]
      rfl

/-- By induction on the digits, whose counts are all reached and whose values pass the check. -/
theorem tallyUpTo_append (limit : Nat) (ds : List UInt8) : ∀ {c : Cursor} {s : List UInt8}
    {count value : Nat}, c.Steady → c.rest = ds ++ s → ds.all Octet.isDigit = true →
    Decimal.extend value ds ≤ Decimal.maxNumber → overflow.Reaches (count + ds.length) →
    tallyUpTo overflow (ds.length + limit) (.ofNat count value) c =
      tallyUpTo overflow limit (.ofNat (count + ds.length) (Decimal.extend value ds))
        (c.advance ds.length) := by
  induction ds with
  | nil => exact fun _ _ _ _ _ => by simp [Decimal.extend_nil]
  | cons d ds ih =>
    intro c s count value hc hrest hds hle hcount
    rw [List.all_cons, Bool.and_eq_true] at hds
    have hcons : c.rest = d :: (ds ++ s) := hrest
    have hrest' : (c.advance 1).rest = ds ++ s := Cursor.rest_advance_one hcons
    have hvalue : 10 * value + Octet.digitValue d ≤ Decimal.maxNumber :=
      Nat.le_trans (Decimal.le_extend _ ds) hle
    have hmax : Decimal.maxNumber < UInt64.size := by decide
    rw [List.length_cons] at hcount
    rw [List.length_cons, Nat.add_right_comm, tallyUpTo_of_digit hc hcons hds.1,
      Tally.push_ofNat (hcount.mono (by omega)) (by omega) hds.1]
    dsimp only
    rw [Tally.toNat_value_ofNat (by omega), if_neg (Nat.not_lt.2 hvalue),
      ih (hc.advance 1) hrest' hds.2 hle (hcount.mono (by omega)), Cursor.advance_advance,
      Nat.add_comm 1, Nat.add_assoc, Nat.add_comm 1]
    rfl

/-- All digits are counted where their count is reached and their value passes the check. -/
theorem tallyUpTo_of_le (hc : c.Steady) (hrest : c.rest = ds ++ s)
    (hds : ds.all Octet.isDigit = true) (hle : Decimal.value ds ≤ Decimal.maxNumber)
    (hs : ∀ b ∈ s.head?, Octet.isDigit b = false) (hcount : overflow.Reaches ds.length) :
    tallyUpTo overflow c.rest.length {} c =
      (.ok (some (.ofNat ds.length (Decimal.value ds))), c.advance ds.length) := by
  have hcount' : overflow.Reaches (0 + ds.length) := by rwa [Nat.zero_add]
  have hrest' : (c.advance ds.length).rest = s := Cursor.rest_advance_append hrest
  have hle' : Decimal.extend 0 ds ≤ Decimal.maxNumber := hle
  have hrun := tallyUpTo_append s.length ds hc hrest hds hle' hcount'
  rw [Nat.zero_add] at hrun
  rw [hrest, List.length_append]
  exact hrun.trans (tallyUpTo_of_end (hc.advance _) (Nat.le_of_eq (congrArg _ hrest'))
    (by rwa [hrest']))

/-- The digit that makes the number too large is counted before it is rejected. -/
theorem tallyUpTo_of_lt (hc : c.Steady) (hrest : c.rest = ds ++ b :: s)
    (hds : ds.all Octet.isDigit = true) (hb : Octet.isDigit b = true)
    (hle : Decimal.value ds ≤ Decimal.maxNumber)
    (hlt : Decimal.maxNumber < Decimal.value (ds ++ [b]))
    (hcount : overflow.Reaches (ds.length + 1)) :
    tallyUpTo overflow c.rest.length {} c =
      (.error (.rejected (.numberOutOfRange (Int32.ofNat (ds.length + 1)).toInt)),
        c.advance (ds.length + 1)) := by
  have hcount' : overflow.Reaches (0 + ds.length) := by
    rw [Nat.zero_add]
    exact hcount.mono (Nat.le_succ _)
  have hrest' : (c.advance ds.length).rest = b :: s := Cursor.rest_advance_append hrest
  have hvalue : Decimal.value (ds ++ [b]) = 10 * Decimal.value ds + Octet.digitValue b :=
    Decimal.value_append_singleton ds b
  have hsmall : Octet.digitValue b < 256 := Nat.lt_of_le_of_lt (Nat.sub_le _ _) b.toNat_lt
  have hsize : UInt64.size = 18446744073709551616 := rfl
  have hmax : Decimal.maxNumber = 4294967295 := rfl
  have hle' : Decimal.extend 0 ds ≤ Decimal.maxNumber := hle
  have hrun := tallyUpTo_append (s.length + 1) ds hc hrest hds hle' hcount'
  rw [Nat.zero_add] at hrun
  rw [hrest, List.length_append, List.length_cons]
  refine hrun.trans ?_
  rw [tallyUpTo_of_digit (hc.advance _) hrest' hb, ← Decimal.value,
    Tally.push_ofNat hcount hle hb, ← hvalue]
  dsimp only
  rw [Tally.toNat_value_ofNat (by omega), if_pos hlt, Cursor.advance_advance]
  rfl

theorem tallyUpTo_of_panic (hc : c.Steady) (hrest : c.rest = ds ++ b :: s)
    (hds : ds.all Octet.isDigit = true) (hb : Octet.isDigit b = true)
    (hle : Decimal.value ds ≤ Decimal.maxNumber) (hlength : ds.length + 1 = 2 ^ 31) :
    tallyUpTo .panics c.rest.length {} c = (.ok none, c.advance (2 ^ 31)) := by
  have hcount : Overflow.panics.Reaches (0 + ds.length) := Or.inl (by omega)
  have hrest' : (c.advance ds.length).rest = b :: s := Cursor.rest_advance_append hrest
  have hle' : Decimal.extend 0 ds ≤ Decimal.maxNumber := hle
  have hrun := tallyUpTo_append (s.length + 1) ds hc hrest hds hle' hcount
  rw [Nat.zero_add] at hrun
  rw [hrest, List.length_append, List.length_cons]
  refine hrun.trans ?_
  rw [tallyUpTo_of_digit (hc.advance _) hrest' hb, Tally.push_panics hlength,
    Cursor.advance_advance, hlength]

/-! ### Numbers whatever follows them -/

/-- The digits that are in front of a cursor. -/
def digitRun (c : Cursor) : List UInt8 := c.rest.takeWhile Octet.isDigit

theorem length_le_digitRun (hrest : c.rest = ds ++ s) (hds : ds.all Octet.isDigit = true) :
    ds.length ≤ (digitRun c).length := by
  rw [digitRun, hrest, List.takeWhile_append_of_pos (List.all_eq_true.1 hds), List.length_append]
  exact Nat.le_add_right _ _

/-- What a reader of numbers answers, in words. -/
def inWords (r : Except Failure Nat × Cursor) : Except Failure (Option UInt32) × Cursor :=
  (r.1.map fun n => some (UInt32.ofNat n), r.2)

theorem digitsInWords_of_tally {tally : Tally}
    (h : tallyUpTo overflow c.rest.length {} c = (.ok (some tally), e)) (hcount : tally.count ≠ 0) :
    digitsInWords overflow c = (.ok (some tally.value.toUInt32), e) := by
  rw [digitsInWords, bind_of_ok (bound_apply c), bind_of_ok h]
  dsimp only
  rw [if_neg hcount]
  rfl

theorem digitsInWords_of_uncounted {tally : Tally}
    (h : tallyUpTo overflow c.rest.length {} c = (.ok (some tally), e)) (hcount : tally.count = 0) :
    digitsInWords overflow c = (do unexpected (← peek) "number" : Decoder (Option UInt32)) e := by
  rw [digitsInWords, bind_of_ok (bound_apply c), bind_of_ok h]
  dsimp only
  rw [if_pos hcount]

theorem digitsInWords_of_error {failure : Failure}
    (h : tallyUpTo overflow c.rest.length {} c = (.error failure, e)) :
    digitsInWords overflow c = (.error failure, e) := by
  rw [digitsInWords, bind_of_ok (bound_apply c)]
  exact bind_of_error h

theorem digitsInWords_of_le (hc : c.Steady) (hrest : c.rest = ds ++ s) (hds : Decimal.IsNumber ds n)
    (hs : ∀ b ∈ s.head?, Octet.isDigit b = false) (hlength : ds.length < 2 ^ 31) :
    digitsInWords overflow c = (.ok (some (UInt32.ofNat n)), c.advance ds.length) := by
  have hle : Decimal.value ds ≤ Decimal.maxNumber := hds.value_eq ▸ hds.le_maxNumber
  have hne : ds.length ≠ 0 := by simpa using hds.ne_nil
  have hcount : overflow.Reaches ds.length := Or.inl hlength
  have hrun := tallyUpTo_of_le hc hrest hds.all_isDigit hle hs hcount
  rw [digitsInWords_of_tally hrun (Tally.count_ofNat_ne_zero hne hlength), hds.value_eq]
  exact congrArg (fun word => (Except.ok (some word), c.advance ds.length))
    (UInt64.toUInt32_ofNat' n)

/-- A source that shows nothing has no digits. -/
theorem tallyUpTo_of_not_steady {limit : Nat} {tally : Tally} (hc : ¬ c.Steady) :
    tallyUpTo overflow limit tally c = (.ok (some tally), c) := by
  cases limit with
  | zero => rfl
  | succ limit =>
    rw [tallyUpTo, bind_of_ok (isConsumed_of_not_steady hc)]
    rfl

theorem digitsUpTo_of_not_steady {limit count value : Nat} (hc : ¬ c.Steady) :
    digitsUpTo limit count value c = (.ok (count, value), c) := by
  cases limit with
  | zero => rfl
  | succ limit =>
    rw [digitsUpTo, bind_of_ok (isConsumed_of_not_steady hc)]
    rfl

/-- Without a digit the next octet is unexpected, or there is none. -/
theorem digitsInWords_of_none (hdigits : digitsUpTo c.rest.length 0 0 c = (.ok (0, 0), c))
    (htally : tallyUpTo overflow c.rest.length {} c = (.ok (some {}), c)) :
    digitsInWords overflow c = inWords (digits c) := by
  rw [digitsInWords_of_uncounted htally rfl, digits,
    bind_of_ok (bound_apply c), bind_of_ok hdigits]
  dsimp only
  rw [if_pos rfl, bind_apply, bind_apply]
  rcases peek c with ⟨failure | b, d⟩ <;> rfl

theorem digitsInWords_of_not_steady (hc : ¬ c.Steady) :
    digitsInWords overflow c = inWords (digits c) :=
  digitsInWords_of_none (digitsUpTo_of_not_steady hc) (tallyUpTo_of_not_steady hc)

theorem digitsInWords_of_no_digit (hc : c.Steady)
    (hs : ∀ b ∈ c.rest.head?, Octet.isDigit b = false) :
    digitsInWords overflow c = inWords (digits c) :=
  digitsInWords_of_none
    (digitsUpTo_of_le [] hc (List.nil_append _).symm rfl (Nat.zero_le _) hs (Nat.le_refl _))
    (tallyUpTo_of_end hc (Nat.le_refl _) hs)

/-- As long as the count of the digits fits, words make no difference. -/
theorem digitsInWords_eq (overflow : Overflow) (hlength : (digitRun c).length < 2 ^ 31) :
    digitsInWords overflow c = inWords (digits c) := by
  by_cases hc : c.Steady
  case neg => exact digitsInWords_of_not_steady hc
  rcases digits_cases c with ⟨ds, s, n, hrest, hds, hs⟩ | ⟨ds, b, s, hrest, hds, hb, hle, hlt⟩ |
    ⟨b, s, hrest, hb⟩ | hrest
  · have hle := length_le_digitRun hrest hds.all_isDigit
    rw [digits_of_le hc hrest hds hs, digitsInWords_of_le hc hrest hds hs (by omega)]
    rfl
  · have hle' : (ds ++ [b]).length ≤ (digitRun c).length :=
      length_le_digitRun (s := s) (by simpa using hrest) (by simp [hds, hb])
    have hlength' : ds.length + 1 < 2 ^ 31 := by
      rw [List.length_append, List.length_singleton] at hle'
      omega
    rw [digits_of_lt hc hrest hds hb hle hlt, digitsInWords_of_error
      (tallyUpTo_of_lt hc hrest hds hb hle hlt (Or.inl hlength')), Int32.toInt_ofNat_of_lt hlength']
    rfl
  · exact digitsInWords_of_no_digit hc (by simpa [hrest] using hb)
  · exact digitsInWords_of_no_digit hc (by simp [hrest])

/-! ### Counts that do not fit -/

theorem tallyUpTo_of_many {n : Nat} (hn : n + 1 = 2 ^ 31) (hc : c.Steady)
    (hrest : c.rest = ds ++ s) (hds : ds.all Octet.isDigit = true) (hlength : 2 ^ 31 ≤ ds.length)
    (hle : Decimal.value (ds.take n) ≤ Decimal.maxNumber) :
    tallyUpTo .panics c.rest.length {} c = (.ok none, c.advance (2 ^ 31)) := by
  have hlt : n < ds.length := by omega
  have hsplit : ds = ds.take n ++ ds[n] :: ds.drop (n + 1) := by
    rw [← List.drop_eq_getElem_cons hlt, List.take_append_drop]
  have hall := List.all_eq_true.1 hds
  have hfront : (ds.take n).all Octet.isDigit = true :=
    List.all_eq_true.2 fun b hb => hall b (List.mem_of_mem_take hb)
  have hlength' : (ds.take n).length + 1 = 2 ^ 31 := by
    rw [List.length_take_of_le (Nat.le_of_lt hlt), hn]
  refine tallyUpTo_of_panic (s := ds.drop (n + 1) ++ s) hc ?_ hfront
    (hall _ (List.getElem_mem hlt)) hle hlength'
  rw [hrest, ← List.cons_append, ← List.append_assoc, ← hsplit]

/-- The loop answers with the digits of the run, or rejects the first one that makes the number too
large, unless the program panics at their number. -/
theorem tallyUpTo_cases (overflow : Overflow) (hc : c.Steady) :
    (∃ ds s, c.rest = ds ++ s ∧ ds.all Octet.isDigit = true ∧
      Decimal.value ds ≤ Decimal.maxNumber ∧ tallyUpTo overflow c.rest.length {} c =
        (.ok (some (.ofNat ds.length (Decimal.value ds))), c.advance ds.length)) ∨
    (∃ ds b s, c.rest = ds ++ [b] ++ s ∧ (ds ++ [b]).all Octet.isDigit = true ∧
      Decimal.value ds ≤ Decimal.maxNumber ∧ Decimal.maxNumber < Decimal.value (ds ++ [b]) ∧
      tallyUpTo overflow c.rest.length {} c =
        (.error (.rejected (.numberOutOfRange (Int32.ofNat (ds ++ [b]).length).toInt)),
          c.advance (ds ++ [b]).length)) ∨
    2 ^ 31 ≤ (digitRun c).length ∧
      tallyUpTo overflow c.rest.length {} c = (.ok none, c.advance (2 ^ 31)) := by
  obtain ⟨n, hn⟩ : ∃ n, n + 1 = 2 ^ 31 := ⟨_, Nat.sub_add_cancel Nat.one_le_two_pow⟩
  rcases exists_digits 0 (Nat.zero_le _) c.rest with
    ⟨ds, s, hrest, hds, hle, hs⟩ | ⟨ds, b, s, hrest, hds, hb, hle, hlt⟩
  · by_cases hcount : overflow.Reaches ds.length
    · exact Or.inl ⟨ds, s, hrest, hds, hle, tallyUpTo_of_le hc hrest hds hle hs hcount⟩
    · obtain ⟨rfl, hmany⟩ := Overflow.eq_panics_of_not_reaches hcount
      have hvalue := Nat.le_trans (Decimal.value_take_le ds n) hle
      exact Or.inr (Or.inr ⟨Nat.le_trans hmany (length_le_digitRun hrest hds),
        tallyUpTo_of_many hn hc hrest hds hmany hvalue⟩)
  · have hrest' : c.rest = ds ++ [b] ++ s := by simpa using hrest
    have hds' : (ds ++ [b]).all Octet.isDigit = true := by simp [hds, hb]
    have hlength : (ds ++ [b]).length = ds.length + 1 := List.length_append
    by_cases hcount : overflow.Reaches (ds.length + 1)
    · refine Or.inr (Or.inl ⟨ds, b, s, hrest', hds', hle, hlt, ?_⟩)
      rw [hlength]
      exact tallyUpTo_of_lt hc hrest hds hb hle hlt hcount
    · obtain ⟨rfl, hmany⟩ := Overflow.eq_panics_of_not_reaches hcount
      rw [← hlength] at hmany
      have hvalue := Nat.le_trans (Decimal.value_take_le ds n) hle
      have htake : (ds ++ [b]).take n = ds.take n := List.take_append_of_le_length (by omega)
      rw [← htake] at hvalue
      exact Or.inr (Or.inr ⟨Nat.le_trans hmany (length_le_digitRun hrest' hds'),
        tallyUpTo_of_many hn hc hrest' hds' hmany hvalue⟩)

/-- A program that panics does so at the first digit whose count does not fit. -/
theorem digitsInWords_of_panic (hc : c.Steady) (hrest : c.rest = ds ++ s)
    (hds : ds.all Octet.isDigit = true) (hle : Decimal.value ds ≤ Decimal.maxNumber)
    (hlength : 2 ^ 31 ≤ ds.length) :
    digitsInWords .panics c = (.ok none, c.advance (2 ^ 31)) := by
  obtain ⟨n, hn⟩ : ∃ n, n + 1 = 2 ^ 31 := ⟨_, Nat.sub_add_cancel Nat.one_le_two_pow⟩
  have hvalue := Nat.le_trans (Decimal.value_take_le ds n) hle
  rw [digitsInWords, bind_of_ok (bound_apply c),
    bind_of_ok (tallyUpTo_of_many hn hc hrest hds hlength hvalue)]
  rfl

/-- Where the count has wrapped around to zero, the digits pass for none. -/
theorem digitsInWords_of_wrapped (hc : c.Steady) (hrest : c.rest = ds ++ b :: s)
    (hds : ds.all Octet.isDigit = true) (hle : Decimal.value ds ≤ Decimal.maxNumber)
    (hb : Octet.isDigit b = false) (hlength : 2 ^ 32 ∣ ds.length) :
    digitsInWords .wraps c =
      (.error (.rejected (.unexpected b "number")), c.advance ds.length) := by
  have hcount : Overflow.wraps.Reaches ds.length := Or.inr rfl
  have hrun := tallyUpTo_of_le hc hrest hds hle (by simpa using hb) hcount
  have hrest' : (c.advance ds.length).rest = b :: s := Cursor.rest_advance_append hrest
  rw [digitsInWords_of_uncounted hrun (Tally.count_ofNat_eq_zero hlength),
    bind_of_ok (peek_of_rest (hc.advance _) hrest')]
  rfl

end Decoder

end ImapRequest
