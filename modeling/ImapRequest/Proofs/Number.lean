import ImapRequest.Decoder.Number
import ImapRequest.Proofs.Decoder

/-!
# Numbers on a steady source

What `Decoder.digits` does is decided by the digits in front of the cursor: it reads all of them
when they make a number of 32 bits (`Decoder.digits_of_le`), and stops behind the first digit that
makes the number too large (`Decoder.digits_of_lt`).  There are no other ways to read or to reject
digits (`Decoder.digits_cases`).
-/

namespace ImapRequest

namespace Decimal

theorem extend_nil (n : Nat) : extend n [] = n := rfl

theorem extend_cons (n : Nat) (b : UInt8) (bs : List UInt8) :
    extend n (b :: bs) = extend (10 * n + Octet.digitValue b) bs := extend_append n [b] bs

/-- Digits that are at least one and make a number of 32 bits. -/
structure IsNumber (ds : List UInt8) (n : Nat) : Prop where
  ne_nil : ds ≠ []
  all_isDigit : ds.all Octet.isDigit = true
  value_eq : Decimal.value ds = n
  le_maxNumber : n ≤ Decimal.maxNumber

/-- The digit of a number below ten. -/
theorem exists_digit : ∀ n < 10, ∃ d, Octet.isDigit d = true ∧ Octet.digitValue d = n :=
  fun n hn => ⟨UInt8.ofNat (n + 0x30), by revert n; decide⟩

theorem isNumber_digit {d : UInt8} {n : Nat} (hd : Octet.isDigit d = true)
    (hvalue : Octet.digitValue d = n) : IsNumber [d] n where
  ne_nil := List.cons_ne_nil _ _
  all_isDigit := by simpa using hd
  value_eq := by
    rw [Decimal.value, extend_cons, extend_nil, hvalue]
    omega
  le_maxNumber := by
    have hlt := d.toNat_lt
    rw [← hvalue, Octet.digitValue, maxNumber]
    omega

theorem value_append_singleton (ds : List UInt8) (d : UInt8) :
    Decimal.value (ds ++ [d]) = 10 * Decimal.value ds + Octet.digitValue d := by
  rw [Decimal.value, extend_append, extend_cons, extend_nil, Decimal.value]

/-- Every number of 32 bits can be written, and without a zero in front unless it is zero. -/
theorem exists_isNumber (n : Nat) (hn : n ≤ maxNumber) :
    ∃ ds, IsNumber ds n ∧ (n ≠ 0 → ds.head? ≠ some 0x30) := by
  induction n using Nat.strongRecOn with
  | ind n ih =>
    obtain ⟨d, hd, hvalue⟩ := exists_digit (n % 10) (Nat.mod_lt _ (by decide))
    by_cases hsmall : n < 10
    · refine ⟨[d], isNumber_digit hd (by omega), fun h0 hhead => ?_⟩
      obtain rfl : d = 0x30 := Option.some.inj hhead
      have hzero : Octet.digitValue 0x30 = 0 := rfl
      omega
    · obtain ⟨ds, hds, hhead⟩ := ih (n / 10) (by omega) (by omega)
      refine ⟨ds ++ [d], ⟨by simp, ?_, ?_, hn⟩, fun _ => ?_⟩
      · rw [List.all_append, hds.all_isDigit, List.all_cons, hd]
        rfl
      · rw [value_append_singleton, hds.value_eq, hvalue]
        omega
      · obtain ⟨d', ds', rfl⟩ := List.exists_cons_of_ne_nil hds.ne_nil
        exact hhead (by omega)

end Decimal

namespace Decoder

variable {c : Cursor}

theorem digitsUpTo_of_le (ds : List UInt8) : ∀ {c : Cursor} {s : List UInt8}
    {limit count value : Nat}, c.Steady → c.rest = ds ++ s → ds.all Octet.isDigit = true →
    Decimal.extend value ds ≤ Decimal.maxNumber → (∀ b ∈ s.head?, Octet.isDigit b = false) →
    c.rest.length ≤ limit →
    digitsUpTo limit count value c =
      (.ok (count + ds.length, Decimal.extend value ds), c.advance ds.length) := by
  induction ds with
  | nil =>
    intro c s limit count value hc hrest _ _ hs _
    cases limit with
    | zero => simp [digitsUpTo, pure_apply, Decimal.extend_nil]
    | succ limit =>
      rw [digitsUpTo, bind_of_ok (isConsumed_apply hc)]
      cases h : s with
      | nil => simp [hrest, h, pure_apply, Decimal.extend_nil]
      | cons b bs =>
        have hb : Octet.isDigit b = false := hs b (by simp [h])
        have hcons : c.rest = b :: bs := by rw [hrest, h, List.nil_append]
        simp only [hcons, List.isEmpty_cons, Bool.false_eq_true, ↓reduceIte]
        rw [bind_of_ok (peek_of_rest hc hcons), hb]
        rfl
  | cons d ds ih =>
    intro c s limit count value hc hrest hds hle hs hlimit
    rw [List.all_cons, Bool.and_eq_true] at hds
    have hcons : c.rest = d :: (ds ++ s) := hrest
    have hrest' : (c.advance 1).rest = ds ++ s := Cursor.rest_advance_one hcons
    have hvalue : 10 * value + Octet.digitValue d ≤ Decimal.maxNumber :=
      Nat.le_trans (Decimal.le_extend _ ds) hle
    cases limit with
    | zero => rw [hcons] at hlimit; simp at hlimit
    | succ limit =>
      have hlimit' : (c.advance 1).rest.length ≤ limit := by
        rw [hcons, List.length_cons] at hlimit
        rw [hrest']
        omega
      rw [digitsUpTo, bind_of_ok (isConsumed_apply hc)]
      simp only [hcons, List.isEmpty_cons, Bool.false_eq_true, ↓reduceIte]
      rw [bind_of_ok (peek_of_rest hc hcons), if_pos hds.1,
        bind_of_ok (consume_of_rest hc hcons), if_neg (Nat.not_lt.2 hvalue),
        ih (hc.advance 1) hrest' hds.2 hle hs hlimit', Cursor.advance_advance,
        List.length_cons, Nat.add_assoc, Nat.add_comm 1]
      rfl

theorem digitsUpTo_of_lt (ds : List UInt8) : ∀ {c : Cursor} {b : UInt8} {s : List UInt8}
    {limit count value : Nat}, c.Steady → c.rest = ds ++ b :: s → ds.all Octet.isDigit = true →
    Octet.isDigit b = true → Decimal.extend value ds ≤ Decimal.maxNumber →
    Decimal.maxNumber < Decimal.extend value (ds ++ [b]) → c.rest.length ≤ limit →
    digitsUpTo limit count value c =
      (.error (.rejected (.numberOutOfRange (count + ds.length + 1 : Nat))),
        c.advance (ds.length + 1)) := by
  induction ds with
  | nil =>
    intro c b s limit count value hc hrest _ hb _ hlt hlimit
    have hcons : c.rest = b :: s := hrest
    cases limit with
    | zero => rw [hcons] at hlimit; simp at hlimit
    | succ limit =>
      rw [digitsUpTo, bind_of_ok (isConsumed_apply hc)]
      simp only [hcons, List.isEmpty_cons, Bool.false_eq_true, ↓reduceIte]
      rw [bind_of_ok (peek_of_rest hc hcons), if_pos hb, bind_of_ok (consume_of_rest hc hcons),
        if_pos (show Decimal.maxNumber < 10 * value + Octet.digitValue b from hlt)]
      rfl
  | cons d ds ih =>
    intro c b s limit count value hc hrest hds hb hle hlt hlimit
    rw [List.all_cons, Bool.and_eq_true] at hds
    have hcons : c.rest = d :: (ds ++ b :: s) := hrest
    have hrest' : (c.advance 1).rest = ds ++ b :: s := Cursor.rest_advance_one hcons
    have hvalue : 10 * value + Octet.digitValue d ≤ Decimal.maxNumber :=
      Nat.le_trans (Decimal.le_extend _ ds) hle
    cases limit with
    | zero => rw [hcons] at hlimit; simp at hlimit
    | succ limit =>
      have hlimit' : (c.advance 1).rest.length ≤ limit := by
        rw [hcons, List.length_cons] at hlimit
        rw [hrest']
        omega
      rw [digitsUpTo, bind_of_ok (isConsumed_apply hc)]
      simp only [hcons, List.isEmpty_cons, Bool.false_eq_true, ↓reduceIte]
      rw [bind_of_ok (peek_of_rest hc hcons), if_pos hds.1,
        bind_of_ok (consume_of_rest hc hcons), if_neg (Nat.not_lt.2 hvalue),
        ih (hc.advance 1) hrest' hds.2 hb hle hlt hlimit', Cursor.advance_advance,
        List.length_cons, Nat.add_comm 1 (ds.length + 1), Nat.add_assoc count 1,
        Nat.add_comm 1 ds.length]

/-- All digits are read when they make a number of 32 bits. -/
theorem digits_of_le (hc : c.Steady) {ds s : List UInt8} {n : Nat} (hrest : c.rest = ds ++ s)
    (hds : Decimal.IsNumber ds n) (hs : ∀ b ∈ s.head?, Octet.isDigit b = false) :
    digits c = (.ok n, c.advance ds.length) := by
  have hle : Decimal.extend 0 ds ≤ Decimal.maxNumber := by
    rw [show Decimal.extend 0 ds = n from hds.value_eq]
    exact hds.le_maxNumber
  have hcount : 0 + ds.length ≠ 0 := by simpa using hds.ne_nil
  have hread : digitsUpTo c.rest.length 0 0 c =
      (.ok (0 + ds.length, Decimal.extend 0 ds), c.advance ds.length) :=
    digitsUpTo_of_le ds hc hrest hds.all_isDigit hle hs (Nat.le_refl _)
  rw [digits, bind_of_ok (bound_apply c), bind_of_ok hread]
  simp only [hcount, ↓reduceIte, pure_apply]
  rw [show Decimal.extend 0 ds = n from hds.value_eq]

/-- Reading stops behind the first digit that makes the number too large. -/
theorem digits_of_lt (hc : c.Steady) {ds s : List UInt8} {b : UInt8}
    (hrest : c.rest = ds ++ b :: s) (hds : ds.all Octet.isDigit = true)
    (hb : Octet.isDigit b = true) (hle : Decimal.value ds ≤ Decimal.maxNumber)
    (hlt : Decimal.maxNumber < Decimal.value (ds ++ [b])) :
    digits c = (.error (.rejected (.numberOutOfRange (ds.length + 1 : Nat))),
      c.advance (ds.length + 1)) := by
  have hread : digitsUpTo c.rest.length 0 0 c =
      (.error (.rejected (.numberOutOfRange (0 + ds.length + 1 : Nat))),
        c.advance (ds.length + 1)) :=
    digitsUpTo_of_lt ds hc hrest hds hb hle hlt (Nat.le_refl _)
  rw [digits, bind_of_ok (bound_apply c), bind_of_error hread,
    Nat.zero_add]

/-- Without a digit nothing is read. -/
theorem digits_of_ne (hc : c.Steady) {b : UInt8} {s : List UInt8} (hrest : c.rest = b :: s)
    (hb : Octet.isDigit b = false) :
    digits c = (.error (.rejected (.unexpected b "number")), c) := by
  have hread : digitsUpTo c.rest.length 0 0 c =
      (.ok (0 + [].length, Decimal.extend 0 []), c.advance [].length) :=
    digitsUpTo_of_le [] hc (show c.rest = [] ++ b :: s from hrest) rfl
      (by simp [Decimal.extend_nil]) (by simpa using hb) (Nat.le_refl _)
  rw [digits, bind_of_ok (bound_apply c), bind_of_ok hread]
  simp only [List.length_nil, Nat.add_zero, ↓reduceIte, Cursor.advance_zero]
  rw [bind_of_ok (peek_of_rest hc hrest)]
  rfl

theorem digits_of_nil (hc : c.Steady) (hrest : c.rest = []) :
    ∃ e, digits c = (.error (.io e), c) := by
  obtain ⟨e, he⟩ := peek_of_nil hrest
  have hread : digitsUpTo c.rest.length 0 0 c =
      (.ok (0 + [].length, Decimal.extend 0 []), c.advance [].length) :=
    digitsUpTo_of_le [] hc (show c.rest = [] ++ [] from hrest) rfl
      (by simp [Decimal.extend_nil]) (by simp) (Nat.le_refl _)
  refine ⟨e, ?_⟩
  rw [digits, bind_of_ok (bound_apply c), bind_of_ok hread]
  simp only [List.length_nil, Nat.add_zero, ↓reduceIte, Cursor.advance_zero]
  rw [bind_of_error he]

/-- The longest run of digits in front of octets is a number of 32 bits, or some digit of it is the
first to exceed them. -/
theorem exists_digits (value : Nat) (hvalue : value ≤ Decimal.maxNumber) : ∀ bs : List UInt8,
    (∃ ds s, bs = ds ++ s ∧ ds.all Octet.isDigit = true ∧
      Decimal.extend value ds ≤ Decimal.maxNumber ∧ ∀ b ∈ s.head?, Octet.isDigit b = false) ∨
    ∃ ds b s, bs = ds ++ b :: s ∧ ds.all Octet.isDigit = true ∧ Octet.isDigit b = true ∧
      Decimal.extend value ds ≤ Decimal.maxNumber ∧
      Decimal.maxNumber < Decimal.extend value (ds ++ [b]) := by
  intro bs
  induction bs generalizing value with
  | nil => exact Or.inl ⟨[], [], rfl, rfl, hvalue, by simp⟩
  | cons b bs ih =>
    by_cases hb : Octet.isDigit b = true
    · by_cases hle : 10 * value + Octet.digitValue b ≤ Decimal.maxNumber
      · rcases ih _ hle with ⟨ds, s, rfl, hds, hv, hs⟩ | ⟨ds, d, s, rfl, hds, hd, hv, hlt⟩
        · exact Or.inl ⟨b :: ds, s, rfl, by simp [hb, hds], hv, hs⟩
        · exact Or.inr ⟨b :: ds, d, s, rfl, by simp [hb, hds], hd, hv, hlt⟩
      · exact Or.inr ⟨[], b, bs, rfl, rfl, hb, hvalue, by
          simpa [Decimal.extend_nil, Decimal.extend_cons] using Nat.not_le.1 hle⟩
    · exact Or.inl ⟨[], b :: bs, rfl, rfl, hvalue, by simpa using hb⟩

/-- The ways in which reading a number can end. -/
theorem digits_cases (c : Cursor) :
    (∃ ds s n, c.rest = ds ++ s ∧ Decimal.IsNumber ds n ∧ ∀ b ∈ s.head?, Octet.isDigit b = false) ∨
    (∃ ds b s, c.rest = ds ++ b :: s ∧ ds.all Octet.isDigit = true ∧ Octet.isDigit b = true ∧
      Decimal.value ds ≤ Decimal.maxNumber ∧ Decimal.maxNumber < Decimal.value (ds ++ [b])) ∨
    (∃ b s, c.rest = b :: s ∧ Octet.isDigit b = false) ∨ c.rest = [] := by
  rcases exists_digits 0 (Nat.zero_le _) c.rest with ⟨ds, s, h, hds, hv, hs⟩ | h
  · by_cases hnil : ds = []
    · subst hnil
      cases s with
      | nil => exact Or.inr (Or.inr (Or.inr h))
      | cons b s => exact Or.inr (Or.inr (Or.inl ⟨b, s, h, hs b rfl⟩))
    · exact Or.inl ⟨ds, s, _, h, ⟨hnil, hds, rfl, hv⟩, hs⟩
  · exact Or.inr (Or.inl h)

/-- A number that was read stood there, in digits that go no further. -/
theorem rest_of_digits (hc : c.Steady) {n : Nat} {e : Cursor} (h : digits c = (.ok n, e)) :
    ∃ ds s, c.rest = ds ++ s ∧ Decimal.IsNumber ds n ∧ e = c.advance ds.length := by
  rcases digits_cases c with ⟨ds, s, m, hrest, hds, hs⟩ | ⟨ds, b, s, hrest, hds, hb, hle, hlt⟩ |
    ⟨b, s, hrest, hb⟩ | hrest
  · rw [digits_of_le hc hrest hds hs] at h
    obtain ⟨rfl, rfl⟩ : m = n ∧ c.advance ds.length = e := by simpa using h
    exact ⟨ds, s, hrest, hds, rfl⟩
  · simp [digits_of_lt hc hrest hds hb hle hlt] at h
  · simp [digits_of_ne hc hrest hb] at h
  · obtain ⟨io, hio⟩ := digits_of_nil hc hrest
    simp [hio] at h

end Decoder

end ImapRequest
