import ImapRequest.Proofs.Coverage
import ImapRequest.Proofs.Written.Strings
import ImapRequest.Sequence.Decode

/-!
# Renderings of sets of message numbers

A token is read by a reader of its own, so its renderings are languages of octets.  A set may be
sent as any ranges that have it as their union, in any order and with common numbers, each as one
number or as two bounds in either order.

* `TokenReader.Reads` : a reader of tokens reads every word of a language as the same value;
* `TokenReader.readSeparated`, `TokenReader.readSeparated_of_mem` : elements between separators;
* `SequenceSet.token`, `SequenceSet.ofToken_of_mem` : the renderings of a set, and that they are
  read as the set;
* `SequenceSet.decode_reads` : the same within a request.
-/

namespace ImapRequest

open Sent

namespace TokenReader

variable {α β : Type}

/-- Every word of `L`, with octets like `F` behind it, is read as `a`, and nothing else is read. -/
def Reads (x : TokenReader α) (L : Language UInt8) (F : List UInt8 → Prop) (a : α) : Prop :=
  ∀ bs ∈ L, ∀ s, F s → x (bs ++ s) = .ok (a, s)

namespace Reads

variable {x y : TokenReader α} {f : α → TokenReader β} {a : α} {b : β} {L M : Language UInt8}
  {F G : List UInt8 → Prop}

/-- One after the other.  What is read first has to end where the rest starts. -/
theorem bind (hx : Reads x L F a) (hf : Reads (f a) M G b)
    (hend : ∀ bs ∈ M, ∀ s, G s → F (bs ++ s)) : Reads (x >>= f) (L * M) G b := by
  rintro _ ⟨as, has, bs, hbs, rfl⟩ s hs
  rw [List.append_assoc, bind_apply, hx as has _ (hend bs hbs s hs)]
  exact hf bs hbs s hs

/-- What is read first has an end of its own. -/
theorem andThen (hx : Reads x L Anything a) (hf : Reads (f a) M G b) :
    Reads (x >>= f) (L * M) G b :=
  hx.bind hf fun _ _ _ _ => trivial

theorem map (f : α → β) (hx : Reads x L F a) : Reads (do return f (← x)) L F (f a) := by
  intro bs hbs s hs
  rw [bind_apply, hx bs hbs s hs]
  rfl

theorem imp (hx : Reads x L F a) (h : ∀ s, G s → F s) : Reads x L G a :=
  fun bs hbs s hs => hx bs hbs s (h s hs)

theorem add (hL : Reads x L F a) (hM : Reads x M F a) : Reads x (L + M) F a := by
  rintro bs (hbs | hbs)
  · exact hL bs hbs
  · exact hM bs hbs

theorem left (hx : Reads x L F a) (y : TokenReader α) : Reads (either x y) L F a := by
  intro bs hbs s hs
  rw [either, hx bs hbs s hs]

theorem right (hy : Reads y L F a) (hx : ∀ bs ∈ L, ∀ s, F s → ∃ e, x (bs ++ s) = .error e) :
    Reads (either x y) L F a := by
  intro bs hbs s hs
  obtain ⟨e, he⟩ := hx bs hbs s hs
  rw [either, he, hy bs hbs s hs]

end Reads

theorem octet_cons (b : UInt8) (s : List UInt8) : octet b (b :: s) = .ok ((), s) :=
  if_pos (beq_self_eq_true b)

theorem octet_reads (b : UInt8) : Reads (octet b) {[b]} Anything () := by
  rintro _ rfl s _
  exact octet_cons b s

/-- Digits of a number, exactly so many. -/
def fixed (count n : Nat) : Language UInt8 :=
  fun bs => bs.length = count ∧ bs.all Octet.isDigit = true ∧ Decimal.value bs = n

theorem digits_of_mem {count n : Nat} {bs s : List UInt8} (h : bs ∈ fixed count n) :
    digits count (bs ++ s) = .ok (bs, s) := by
  obtain ⟨rfl, hall, -⟩ := h
  simp [digits, hall]

/-- With zeros in front a number has any number of digits that is large enough. -/
theorem exists_mem_fixed (count : Nat) : ∀ n < 10 ^ count, ∃ bs, bs ∈ fixed count n := by
  induction count with
  | zero =>
    intro n hn
    obtain rfl : n = 0 := by simpa using hn
    exact ⟨[], rfl, rfl, rfl⟩
  | succ count ih =>
    intro n hn
    obtain ⟨d, hd, hvalue⟩ := Decimal.exists_digit (n % 10) (Nat.mod_lt _ (by decide))
    obtain ⟨bs, hlength, hall, hbs⟩ := ih (n / 10) (by rw [Nat.pow_succ] at hn; omega)
    refine ⟨bs ++ [d], by rw [List.length_append, hlength]; rfl, ?_, ?_⟩
    · rw [List.all_append, hall, List.all_cons, hd]
      rfl
    · rw [Decimal.value_append_singleton, hbs, hvalue]
      omega

/-- The number that exactly so many digits make. -/
theorem fixed_reads (count n : Nat) :
    Reads (do return Decimal.value (← digits count)) (fixed count n) Anything n := by
  intro bs hbs s _
  rw [bind_apply, digits_of_mem hbs]
  exact congrArg (fun n => Except.ok (n, s)) hbs.2.2

/-- One or more elements with an octet between them. -/
def separated {α : Type} (b : UInt8) (element : α → Language UInt8) : List α → Language UInt8
  | [] => 0
  | [a] => element a
  | a :: as => element a * ({[b]} * separated b element as)

section Separated

variable {α : Type} {b : UInt8} {element : α → Language UInt8}

/-- What starts elements and what all of their octets are is so for the whole, which has at least as
many octets as elements. -/
theorem separated_of_mem {P : UInt8 → Prop} {p : UInt8 → Bool} (hb : p b = true)
    (helement : ∀ {a : α} {bs : List UInt8}, bs ∈ element a →
      (∃ b s, bs = b :: s ∧ P b) ∧ bs.all p = true) :
    ∀ {as : List α} {bs : List UInt8}, bs ∈ separated b element as →
      (∃ b s, bs = b :: s ∧ P b) ∧ bs.all p = true ∧ as.length ≤ bs.length := by
  intro as
  induction as with
  | nil => exact fun {bs} hbs => absurd hbs (Language.notMem_zero bs)
  | cons a as ih =>
    intro bs hbs
    cases as with
    | nil =>
      obtain ⟨⟨b, s, rfl, hb⟩, hall⟩ := helement hbs
      exact ⟨⟨b, s, rfl, hb⟩, hall, by simp⟩
    | cons next as =>
      obtain ⟨us, hus, _, ⟨_, rfl, bs, hbs, rfl⟩, rfl⟩ := hbs
      obtain ⟨⟨d, s, rfl, hd⟩, hall⟩ := helement hus
      obtain ⟨-, hall', hle⟩ := ih hbs
      refine ⟨⟨d, s ++ ([b] ++ bs), rfl, hd⟩, ?_, ?_⟩
      · rw [List.all_append, hall, List.all_append, hall', List.all_cons, hb]
        rfl
      · simp only [List.length_cons, List.length_append, List.length_nil] at hle ⊢
        omega

theorem exists_mem_separated {as : List α} (h : as ≠ []) (has : ∀ a ∈ as, ∃ bs, bs ∈ element a) :
    ∃ bs, bs ∈ separated b element as := by
  induction as with
  | nil => exact absurd rfl h
  | cons a as ih =>
    obtain ⟨us, hus⟩ := has a (List.mem_cons_self ..)
    cases as with
    | nil => exact ⟨us, hus⟩
    | cons next as =>
      obtain ⟨bs, hbs⟩ :=
        ih (List.cons_ne_nil next as) fun a ha => has a (List.mem_cons_of_mem _ ha)
      exact ⟨_, Language.append_mem_mul hus (Language.append_mem_mul rfl hbs)⟩

/-- Reads up to `limit` elements around separators, and gives what is left after the last one.  A
separator without an element behind it is left. -/
def readSeparated (b : UInt8) (x : TokenReader α) : Nat → List UInt8 → List α × List UInt8
  | 0, bs => ([], bs)
  | limit + 1, bs =>
    match x bs with
    | .error _ => ([], bs)
    | .ok (a, rest) =>
      if rest.head? = some b then
        match readSeparated b x limit rest.tail with
        | ([], _) => ([a], rest)
        | (as, left) => (a :: as, left)
      else ([a], rest)

variable {x : TokenReader α} {a : α} {bs s : List UInt8} {limit : Nat}

theorem readSeparated_of_error {left : List UInt8} (h : x bs = .error left) :
    readSeparated b x limit bs = ([], bs) := by
  cases limit with
  | zero => rfl
  | succ limit => rw [readSeparated, h]

theorem readSeparated_of_separator (h : x bs = .ok (a, b :: s)) :
    readSeparated b x (limit + 1) bs = match readSeparated b x limit s with
      | ([], _) => ([a], b :: s)
      | (as, left) => (a :: as, left) := by
  rw [readSeparated, h]
  exact if_pos rfl

theorem readSeparated_of_ne (h : x bs = .ok (a, s)) (hs : s.head? ≠ some b) :
    readSeparated b x (limit + 1) bs = ([a], s) := by
  rw [readSeparated, h]
  exact if_neg hs

/-- What follows the last element: no separator, or one without an element behind it. -/
def EndsSeparated (b : UInt8) (x : TokenReader α) (s : List UInt8) : Prop :=
  s.head? ≠ some b ∨ ∃ t left, s = b :: t ∧ x t = .error left

/-- An element is followed by another one or by what ends the elements. -/
theorem readSeparated_of_mem {F : List UInt8 → Prop} (hx : ∀ a, Reads x (element a) F a)
    (hseparator : ∀ s, F (b :: s)) : ∀ (as : List α) {bs s : List UInt8} {limit : Nat},
    bs ∈ separated b element as → F s → EndsSeparated b x s → as.length ≤ limit →
      readSeparated b x limit (bs ++ s) = (as, s) := by
  intro as
  induction as with
  | nil => exact fun {bs} _ _ hbs => absurd hbs (Language.notMem_zero bs)
  | cons a as ih =>
    intro bs s limit hbs hs hend hlimit
    obtain ⟨limit, rfl⟩ := Nat.exists_eq_succ_of_ne_zero (Nat.ne_of_gt (Nat.lt_of_lt_of_le
      (Nat.succ_pos as.length) hlimit))
    cases as with
    | nil =>
      have hread := hx a bs hbs s hs
      obtain hs | ⟨t, left, rfl, ht⟩ := hend
      · exact readSeparated_of_ne hread hs
      · rw [readSeparated_of_separator hread, readSeparated_of_error ht]
    | cons next as =>
      obtain ⟨us, hus, _, ⟨_, rfl, bs, hbs, rfl⟩, rfl⟩ := hbs
      have hsplit : us ++ ([b] ++ bs) ++ s = us ++ b :: (bs ++ s) := by simp
      change readSeparated b x (limit + 1) (us ++ ([b] ++ bs) ++ s) = _
      rw [hsplit, readSeparated_of_separator (hx a us hus _ (hseparator _)),
        ih hbs hs hend (Nat.le_of_succ_le_succ hlimit)]

end Separated

end TokenReader

/-- The octets of two tokens in a row are octets of either. -/
theorem Octet.all_of_mem_mul {p : UInt8 → Bool} {L M : Language UInt8}
    (hL : ∀ bs ∈ L, bs.all p = true) (hM : ∀ bs ∈ M, bs.all p = true) :
    ∀ bs ∈ L * M, bs.all p = true := by
  rintro _ ⟨as, has, bs, hbs, rfl⟩
  exact List.all_append.trans ((Bool.and_eq_true _ _).mpr ⟨hL as has, hM bs hbs⟩)

theorem Octet.all_of_mem_singleton {p : UInt8 → Bool} {b : UInt8} (hb : p b = true) :
    ∀ bs ∈ ({[b]} : Language UInt8), bs.all p = true := by
  rintro _ rfl
  rw [List.all_cons, hb]
  rfl

namespace Written

/-- A token as it is. -/
def token (L : Language UInt8) : Language Sent := fun t => ∃ bs ∈ L, t = plain bs

end Written

namespace IdRange

theorem ofBounds_low_high (r : IdRange) : ofBounds r.low r.high = .ok r := by
  have h₁ := r.one_le_low
  have h₂ := r.low_le_high
  have h₃ := r.high_le_maxId
  rw [ofBounds, dif_neg (by omega), dif_neg (by omega), dif_pos h₂]

end IdRange

namespace SequenceSet

theorem ofRanges_ranges (s : SequenceSet) : ofRanges s.ranges = .ok s := by
  rw [ofRanges, dif_neg s.ranges_ne_nil]
  exact congrArg Except.ok (SequenceSet.ext (IdRange.merge_of_separated s.separated))

/-! ### Renderings -/

/-- The digits of a number without a zero in front. -/
def number (n : Nat) : Language UInt8 :=
  fun bs => Decimal.IsNumber bs n ∧ bs.head? ≠ some 0x30

/-- A bound: the largest number is also written `*`. -/
def bound (id : Nat) : Language UInt8 :=
  fun bs => id = maxId ∧ bs = [Octet.star] ∨ bs ∈ number id

/-- A range as one number or as two bounds. -/
def element (r : IdRange) : Language UInt8 :=
  fun bs => (∃ id, IdRange.single id = .ok r ∧ bs ∈ bound id) ∨
    ∃ first second, IdRange.ofBounds first second = .ok r ∧
      bs ∈ bound first * ({[Octet.colon]} * bound second)

/-- One or more ranges with commas between them. -/
def elements (rs : List IdRange) : Language UInt8 := TokenReader.separated Octet.comma element rs

/-- The renderings of a set, by any ranges that make it. -/
def token (s : SequenceSet) : Language UInt8 :=
  fun bs => ∃ rs, ofRanges rs = .ok s ∧ bs ∈ elements rs

/-! ### Reading them -/

open TokenReader

theorem readNumber_reads (n : Nat) : Reads readNumber (number n) (Stops Octet.isDigit) n := by
  rintro ds ⟨hds, hhead⟩ s hs
  have htake : (ds ++ s).takeWhile Octet.isDigit = ds :=
    Decoder.takeWhile_run (List.all_eq_true.1 hds.all_isDigit) hs
  have hdrop : (ds ++ s).dropWhile Octet.isDigit = s := by
    have hsplit := List.takeWhile_append_dropWhile (p := Octet.isDigit) (l := ds ++ s)
    rw [htake] at hsplit
    exact List.append_cancel_left hsplit
  have hzero : ds.head?.all (· != 0x30) = true := by
    cases ds with
    | nil => rfl
    | cons d ds => simpa using hhead
  have hne : ds.isEmpty = false := by simpa using hds.ne_nil
  have hle : decide (Decimal.value ds ≤ Decimal.maxNumber) = true := by
    rw [hds.value_eq]
    exact decide_eq_true hds.le_maxNumber
  simp only [readNumber, htake, hdrop, hzero, hne, hle]
  exact congrArg (fun n => Except.ok (n, s)) hds.value_eq

theorem readBound_reads (id : Nat) : Reads readBound (bound id) (Stops Octet.isDigit) id := by
  rintro bs (⟨rfl, rfl⟩ | ⟨hds, hhead⟩) s hs
  · rfl
  · obtain ⟨d, ds, rfl⟩ := List.exists_cons_of_ne_nil hds.ne_nil
    have hd : d ≠ Octet.star := by
      rintro rfl
      have hdigit := hds.all_isDigit
      rw [List.all_cons, Bool.and_eq_true] at hdigit
      exact absurd hdigit.1 (by decide)
    rw [← readNumber_reads id _ ⟨hds, hhead⟩ s hs, readBound]
    rintro rest hrest
    exact absurd (List.head_eq_of_cons_eq hrest) hd

/-- The second bound of a range whose first was read, and what is left. -/
def readSecond (first : Nat) (rest : List UInt8) : Nat × List UInt8 :=
  match rest with
  | Octet.colon :: after => (readBound after).toOption.getD (first, rest)
  | _ => (first, rest)

theorem readRange_eq (bs : List UInt8) : readRange bs = match readBound bs with
    | .error left => .error left
    | .ok (first, rest) => match IdRange.ofBounds first (readSecond first rest).1 with
      | .ok r => .ok (r, (readSecond first rest).2)
      | .error _ => .error bs := rfl

/-- What follows a range. -/
def RangeEnds (s : List UInt8) : Prop := Stops (fun b => Octet.isDigit b || b == Octet.colon) s

theorem readSecond_of_ends {s : List UInt8} (hs : RangeEnds s) (first : Nat) :
    readSecond first s = (first, s) := by
  unfold readSecond
  split
  · exact absurd (hs _ rfl) (by decide)
  · rfl

theorem readRange_reads (r : IdRange) : Reads readRange (element r) RangeEnds r := by
  have hdigit : ∀ s, RangeEnds s → Stops Octet.isDigit s := by
    intro s hs b hb
    exact (Bool.or_eq_false_iff.1 (hs b hb)).1
  rintro bs (⟨id, hr, hbs⟩ | ⟨first, second, hr, as, has, _, ⟨_, rfl, bs, hbs, rfl⟩, rfl⟩) s hs
  · have hr' : IdRange.ofBounds id id = .ok r := hr
    simp only [readRange_eq, readBound_reads id bs hbs s (hdigit s hs), readSecond_of_ends hs, hr']
  · have hfirst := readBound_reads first as has (Octet.colon :: (bs ++ s))
      (Stops.cons rfl _)
    have hsecond : readSecond first (Octet.colon :: (bs ++ s)) = (second, s) := by
      change (readBound (bs ++ s)).toOption.getD _ = _
      rw [readBound_reads second bs hbs s (hdigit s hs)]
      rfl
    have hsplit : as ++ ([Octet.colon] ++ bs) ++ s = as ++ Octet.colon :: (bs ++ s) := by simp
    simp only [hsplit, readRange_eq, hfirst, hsecond, hr]

/-- Behind the comma after a range the next ones are read. -/
theorem readRanges_of_comma {r : IdRange} {bs s : List UInt8} {limit : Nat}
    (h : readRange bs = .ok (r, Octet.comma :: s)) :
    readRanges (limit + 1) bs = match readRanges limit s with
      | ([], _) => ([r], Octet.comma :: s)
      | (rs, left) => (r :: rs, left) := by
  rw [readRanges, h]
  rfl

theorem readRanges_eq (limit : Nat) : ∀ bs : List UInt8,
    readRanges limit bs = readSeparated Octet.comma readRange limit bs := by
  induction limit with
  | zero => exact fun _ => rfl
  | succ limit ih =>
    intro bs
    cases hread : readRange bs with
    | error left => rw [readRanges, hread, readSeparated_of_error hread]
    | ok p =>
      obtain ⟨r, rest⟩ := p
      by_cases hcomma : ∃ s, rest = Octet.comma :: s
      · obtain ⟨s, rfl⟩ := hcomma
        rw [readRanges_of_comma hread, readSeparated_of_separator hread, ← ih]
        rcases readRanges limit s with ⟨_ | ⟨_, _⟩, _⟩ <;> rfl
      · rw [readRanges, hread,
          readSeparated_of_ne hread (by simpa [List.head?_eq_some_iff] using hcomma)]
        dsimp only
        split
        · exact absurd ⟨_, rfl⟩ hcomma
        · rfl

/-- A range is followed by another one or ends the token. -/
theorem readRanges_of_mem {rs : List IdRange} {bs : List UInt8} {limit : Nat}
    (hbs : bs ∈ elements rs)
    (hlimit : rs.length ≤ limit) : readRanges limit bs = (rs, []) := by
  have hends : RangeEnds [] := fun b hb => by simp at hb
  have hread := readSeparated_of_mem readRange_reads (fun s => Stops.cons rfl s) rs hbs hends
    (Or.inl (by simp)) hlimit
  rwa [List.append_nil, ← readRanges_eq] at hread

/-- The first octet of a range. -/
def IsRangeStart (b : UInt8) : Prop := Octet.isDigit b = true ∨ b = Octet.star

instance (b : UInt8) : Decidable (IsRangeStart b) := inferInstanceAs (Decidable (_ ∨ _))

theorem bound_of_mem {id : Nat} {bs : List UInt8} (h : bs ∈ bound id) :
    (∃ b s, bs = b :: s ∧ IsRangeStart b) ∧ bs.all Octet.isSequenceSetChar = true := by
  rcases h with ⟨-, rfl⟩ | ⟨hds, -⟩
  · exact ⟨⟨_, _, rfl, Or.inr rfl⟩, rfl⟩
  · obtain ⟨d, ds, rfl⟩ := List.exists_cons_of_ne_nil hds.ne_nil
    have hall := hds.all_isDigit
    refine ⟨⟨d, ds, rfl, Or.inl (List.all_eq_true.1 hall d (List.mem_cons_self ..))⟩,
      List.all_eq_true.2 fun b hb => ?_⟩
    simp [Octet.isSequenceSetChar, List.all_eq_true.1 hall b hb]

theorem element_of_mem {r : IdRange} {bs : List UInt8} (h : bs ∈ element r) :
    (∃ b s, bs = b :: s ∧ IsRangeStart b) ∧ bs.all Octet.isSequenceSetChar = true := by
  rcases h with ⟨id, -, h⟩ | ⟨first, second, -, as, has, _, ⟨_, rfl, bs, hbs, rfl⟩, rfl⟩
  · exact bound_of_mem h
  · obtain ⟨⟨b, s, rfl, hb⟩, hall⟩ := bound_of_mem has
    refine ⟨⟨b, s ++ ([Octet.colon] ++ bs), rfl, hb⟩, ?_⟩
    rw [List.all_append, hall, List.all_append, (bound_of_mem hbs).2]
    rfl

theorem elements_of_mem {rs : List IdRange} {bs : List UInt8} (h : bs ∈ elements rs) :
    (∃ b s, bs = b :: s ∧ IsRangeStart b) ∧ bs.all Octet.isSequenceSetChar = true ∧
      rs.length ≤ bs.length :=
  separated_of_mem rfl element_of_mem h

/-- A set is read from every rendering. -/
theorem ofToken_of_mem {s : SequenceSet} {bs : List UInt8} (h : bs ∈ token s) :
    ofToken bs = .ok s := by
  obtain ⟨rs, hrs, hbs⟩ := h
  rw [ofToken, readRanges_of_mem hbs (elements_of_mem hbs).2.2]
  simp only [hrs]

/-- The renderings of a set within a request. -/
def written (s : SequenceSet) : Language Sent := Written.token s.token

theorem starts_written (s : SequenceSet) : Starts IsRangeStart s.written := by
  rintro t ⟨bs, ⟨rs, -, hbs⟩, rfl⟩
  obtain ⟨⟨b, u, rfl, hb⟩, -⟩ := elements_of_mem hbs
  exact ⟨b, u, octets_plain _, hb⟩

end SequenceSet

theorem Decoder.token_of_ok {α : Type} {kind : TokenKind}
    {read : List UInt8 → Except TokenFault α} {bs : List UInt8} {a : α} (h : read bs = .ok a) :
    Decoder.token kind read bs = pure a := by
  rw [Decoder.token, h]

namespace SequenceSet

theorem decode_reads (s : SequenceSet) : Decoder.Reads decode s.written Delimited s := by
  rintro t ⟨bs, hbs, rfl⟩ u hu c hc hrest
  obtain ⟨rs, -, helements⟩ := id hbs
  obtain ⟨⟨b, v, rfl, -⟩, hall, -⟩ := elements_of_mem helements
  have hread := Decoder.takeWhile1_reads (List.cons_ne_nil b v) hall "sequence set" _ rfl u
    (hu.stops rfl rfl rfl) c hc hrest
  rw [decode, Decoder.bind_of_ok hread, Decoder.token_of_ok (ofToken_of_mem hbs)]
  rfl

/-! ### Every set can be rendered -/

theorem exists_mem_bound {id : Nat} (h : 1 ≤ id) (hmax : id ≤ maxId) : ∃ bs, bs ∈ bound id := by
  obtain ⟨ds, hds, hhead⟩ := Decimal.exists_isNumber id hmax
  exact ⟨ds, Or.inr ⟨hds, hhead (Nat.ne_of_gt h)⟩⟩

theorem exists_mem_element (r : IdRange) : ∃ bs, bs ∈ element r := by
  have hlow := r.one_le_low
  have hle := r.low_le_high
  have hhigh := r.high_le_maxId
  obtain ⟨as, has⟩ := exists_mem_bound hlow (Nat.le_trans hle hhigh)
  obtain ⟨bs, hbs⟩ := exists_mem_bound (Nat.le_trans hlow hle) hhigh
  exact ⟨as ++ ([Octet.colon] ++ bs), Or.inr ⟨r.low, r.high, IdRange.ofBounds_low_high r,
    Language.append_mem_mul has (Language.append_mem_mul rfl hbs)⟩⟩

theorem possible_written (s : SequenceSet) : Possible s.written := by
  obtain ⟨bs, hbs⟩ :=
    TokenReader.exists_mem_separated s.ranges_ne_nil fun r _ => exists_mem_element r
  exact ⟨_, bs, ⟨s.ranges, ofRanges_ranges s, hbs⟩, rfl⟩

end SequenceSet

end ImapRequest
