import ImapRequest.Calendar.Decode
import ImapRequest.Proofs.Written.Sets

/-!
# Renderings of dates and date-times

The day of a date has one or two digits, in double quotes also a space and a digit, and its month
is written in any letter case.  A date-time is always in double quotes.

* `Date.token`, `Date.quotedToken` : the renderings of a date without and with quotes;
* `DateTime.token` : the renderings of a date-time;
* `Date.decode_reads`, `DateTime.decode_reads` : all of them are read as the date.
-/

namespace ImapRequest

open Sent TokenReader

namespace Date

/-! ### Days, months and years -/

/-- A day with two places. -/
def fixedDay (n : Nat) : Language UInt8 := {[Octet.sp]} * fixed 1 n + fixed 2 n

/-- The abbreviated name of a month. -/
def monthWord : Nat → String
  | 1 => "Jan"
  | 2 => "Feb"
  | 3 => "Mar"
  | 4 => "Apr"
  | 5 => "May"
  | 6 => "Jun"
  | 7 => "Jul"
  | 8 => "Aug"
  | 9 => "Sep"
  | 10 => "Oct"
  | 11 => "Nov"
  | 12 => "Dec"
  | _ => ""

/-- The names that are looked up are those of the months. -/
theorem monthNames_eq : monthNames = (List.range' 1 12).map monthWord := by decide

/-- The abbreviated name of a month in any letter case. -/
def named (n : Nat) : Language UInt8 :=
  fun bs => bs.map Octet.upper = (Octet.ofText (monthWord n)).map Octet.upper

/-- A date, whose day is written like `day`. -/
def parts (day : Language UInt8) (d : Date) : Language UInt8 :=
  day * ({[Octet.minus]} * (named d.month * ({[Octet.minus]} * fixed 4 d.year)))

/-- The renderings of a date without quotes. -/
def token (d : Date) : Language UInt8 := parts (fixed 1 d.day + fixed 2 d.day) d

/-- The renderings of a date between quotes. -/
def quotedToken (d : Date) : Language UInt8 := parts (fixedDay d.day + fixed 1 d.day) d

/-- An octet other than a digit follows. -/
def DigitsEnd (s : List UInt8) : Prop := Stops Octet.isDigit s

theorem exists_of_mem_fixed {count n : Nat} {bs : List UInt8} (h : bs ∈ fixed (count + 1) n) :
    ∃ b s, bs = b :: s ∧ Octet.isDigit b = true := by
  obtain ⟨hlength, hall, -⟩ := h
  obtain ⟨b, s, rfl⟩ := List.exists_cons_of_length_eq_add_one hlength
  exact ⟨b, s, rfl, List.all_eq_true.1 hall b (List.mem_cons_self ..)⟩

/-- Reading a space and a digit fails in front of a digit. -/
theorem octet_sp_of_mem_fixed {count n : Nat} {bs s : List UInt8} (h : bs ∈ fixed (count + 1) n) :
    octet Octet.sp (bs ++ s) = .error (bs ++ s) := by
  obtain ⟨b, bs, rfl, hb⟩ := exists_of_mem_fixed h
  have hne : b ≠ Octet.sp := by
    rintro rfl
    exact absurd hb (by decide)
  exact if_neg (by simpa using hne)

theorem readFixedDay_reads (n : Nat) : Reads readFixedDay (fixedDay n) Anything n := by
  refine Reads.add (Reads.left ?_ _) (Reads.right (fixed_reads 2 n) ?_)
  · exact (octet_reads _).andThen (fixed_reads 1 n)
  · intro bs hbs s _
    exact ⟨_, by rw [bind_apply, octet_sp_of_mem_fixed hbs]⟩

/-- There is no day of two places where a single digit is followed by something else. -/
theorem readFixedDay_of_single {n : Nat} {bs s : List UInt8} (h : bs ∈ fixed 1 n)
    (hs : DigitsEnd s) : ∃ e, readFixedDay (bs ++ s) = .error e := by
  have hfirst : (do octet Octet.sp; return Decimal.value (← digits 1) : TokenReader Nat) (bs ++ s) =
      .error (bs ++ s) := by
    rw [bind_apply, octet_sp_of_mem_fixed h]
  have hdigits : digits 2 (bs ++ s) = .error (bs ++ s) := by
    obtain ⟨hlength, -⟩ := h
    obtain ⟨b, rfl⟩ := List.length_eq_one_iff.1 hlength
    refine if_neg ?_
    cases s with
    | nil => simp
    | cons b' s =>
      have hb' : Octet.isDigit b' = false := hs b' rfl
      simp [hb']
  refine ⟨bs ++ s, ?_⟩
  rw [readFixedDay, either, hfirst]
  simp only [bind_apply, hdigits]

theorem readDay_reads (n : Nat) : Reads readDay (fixedDay n + fixed 1 n) DigitsEnd n := by
  refine Reads.add (Reads.left ((readFixedDay_reads n).imp fun _ _ => trivial) _) ?_
  refine Reads.right ((fixed_reads 1 n).imp fun _ _ => trivial) ?_
  exact fun bs hbs s hs => readFixedDay_of_single hbs hs

theorem length_of_mem_named : ∀ n, 1 ≤ n → n ≤ 12 → ∀ bs ∈ named n, bs.length = 3 := by
  intro n hle hlt bs hbs
  have hlength : ∀ n < 13, 1 ≤ n → ((Octet.ofText (monthWord n)).map
      Octet.upper).length = 3 := by decide
  rw [← hlength n (Nat.lt_succ_of_le hlt) hle, ← hbs, List.length_map]

theorem monthOfName_of_mem {n : Nat} (hle : 1 ≤ n) (hlt : n ≤ 12) {bs : List UInt8}
    (h : bs ∈ named n) : monthOfName bs = some n := by
  have hindex : ∀ n < 13, 1 ≤ n → (monthNames.findIdx? fun name =>
      (Octet.ofText name).map Octet.upper ==
        (Octet.ofText (monthWord n)).map Octet.upper) = some (n - 1) := by decide
  have hname : bs.map Octet.upper = _ := h
  simp only [monthOfName, Octet.sameLetters, hname]
  rw [hindex n (Nat.lt_succ_of_le hlt) hle]
  exact congrArg some (Nat.sub_add_cancel hle)

theorem readMonth_reads {n : Nat} (hle : 1 ≤ n) (hlt : n ≤ 12) :
    Reads readMonth (named n) Anything n := by
  intro bs hbs s _
  have hlength := length_of_mem_named n hle hlt bs hbs
  have htake : (bs ++ s).take 3 = bs := by rw [← hlength, List.take_left]
  have hdrop : (bs ++ s).drop 3 = s := by rw [← hlength, List.drop_left]
  simp only [readMonth, htake, hdrop, monthOfName_of_mem hle hlt hbs]

theorem one_le_month (d : Date) : 1 ≤ d.month ∧ d.month ≤ 12 := by
  have hday := Nat.le_trans d.one_le_day d.day_le
  unfold daysIn at hday
  split at hday <;> omega

theorem monthName_eq_monthWord (d : Date) : d.monthName = monthWord d.month := by
  have hname : ∀ n < 13, 1 ≤ n → monthNames.getD (n - 1) "" = monthWord n := by decide
  exact hname d.month (Nat.lt_succ_of_le d.one_le_month.2) d.one_le_month.1

theorem digitsEnd_of_mem {d : Date} :
    ∀ bs ∈ ({[Octet.minus]} * (named d.month * ({[Octet.minus]} * fixed 4 d.year)) :
      Language UInt8), ∀ s, DigitsEnd (bs ++ s) := by
  rintro _ ⟨_, rfl, bs, -, rfl⟩ s b hb
  obtain rfl : Octet.minus = b := Option.some.inj hb
  rfl

theorem readParts_reads {reader : TokenReader Nat} {day : Language UInt8} (d : Date)
    (hday : Reads reader day DigitsEnd d.day) :
    Reads (readParts reader) (parts day d) Anything (d.day, d.month, d.year) := by
  obtain ⟨hle, hlt⟩ := d.one_le_month
  refine hday.bind ?_ fun bs hbs s _ => digitsEnd_of_mem bs hbs s
  refine (octet_reads _).andThen ?_
  refine (readMonth_reads hle hlt).andThen ?_
  refine (octet_reads _).andThen ?_
  exact (fixed_reads 4 d.year).map fun y => (d.day, d.month, y)

theorem ofParts_of_date (d : Date) : ofParts d.day d.month d.year = .ok d := by
  have hyear : (0 : Int) ≤ d.year ∧ (d.year : Int) ≤ 9999 := by
    have := d.year_le
    omega
  have hday : 1 ≤ d.day ∧ d.day ≤ daysIn (d.year : Int).toNat d.month := ⟨d.one_le_day, d.day_le⟩
  rw [ofParts, dif_pos hyear, dif_pos hday]
  rfl

/-- A date is read from every rendering between quotes, and so from every one without. -/
theorem ofToken_of_mem {d : Date} {bs : List UInt8} (h : bs ∈ d.quotedToken) :
    ofToken bs = .ok d := by
  have hread := readParts_reads d (readDay_reads d.day) bs h [] trivial
  rw [List.append_nil] at hread
  rw [ofToken, hread]
  simp only [ofParts_of_date]
  rfl

theorem mem_quotedToken {d : Date} {bs : List UInt8} (h : bs ∈ d.token) : bs ∈ d.quotedToken := by
  obtain ⟨as, has | has, bs, hbs, rfl⟩ := h
  · exact Language.append_mem_mul (Or.inr has) hbs
  · exact Language.append_mem_mul (Or.inl (Or.inr has)) hbs

/-! ### Which octets they have -/

section Octets

variable {p : UInt8 → Bool} (hp : ∀ b, Octet.isDateChar b = true → p b = true)

include hp

theorem all_of_mem_fixed {count n : Nat} {bs : List UInt8} (h : bs ∈ fixed count n) :
    bs.all p = true := by
  refine List.all_eq_true.2 fun b hb => hp b ?_
  simp [Octet.isDateChar, Octet.isAlphanumeric, List.all_eq_true.1 h.2.1 b hb]

theorem all_of_mem_fixedDay (hsp : p Octet.sp = true) {n : Nat} {bs : List UInt8}
    (h : bs ∈ fixedDay n) : bs.all p = true := by
  rcases h with h | h
  · exact Octet.all_of_mem_mul (Octet.all_of_mem_singleton hsp)
      (fun _ hbs => all_of_mem_fixed hp hbs) bs h
  · exact all_of_mem_fixed hp h

theorem all_of_mem_named {n : Nat} (hle : 1 ≤ n) (hlt : n ≤ 12) {bs : List UInt8}
    (h : bs ∈ named n) : bs.all p = true := by
  have hletters : ∀ n < 13, 1 ≤ n →
      (Octet.ofText (monthWord n)).all Octet.isLetter = true := by decide
  have hupper : ∀ b, Octet.isLetter (Octet.upper b) = Octet.isLetter b :=
    Octet.forall_octet (by decide +kernel)
  have hall := Octet.all_of_map_upper hupper h (hletters n (Nat.lt_succ_of_le hlt) hle)
  refine List.all_eq_true.2 fun b hb => hp b ?_
  simp [Octet.isDateChar, Octet.isAlphanumeric, List.all_eq_true.1 hall b hb]

theorem all_of_mem_parts {day : Language UInt8} (hday : ∀ bs ∈ day, bs.all p = true) {d : Date}
    {bs : List UInt8} (h : bs ∈ parts day d) : bs.all p = true := by
  obtain ⟨hle, hlt⟩ := d.one_le_month
  have hminus : ∀ bs ∈ ({[Octet.minus]} : Language UInt8), bs.all p = true :=
    Octet.all_of_mem_singleton (hp _ rfl)
  refine Octet.all_of_mem_mul hday (Octet.all_of_mem_mul hminus ?_) bs h
  exact Octet.all_of_mem_mul (fun _ hbs => all_of_mem_named hp hle hlt hbs)
    (Octet.all_of_mem_mul hminus fun _ hbs => all_of_mem_fixed hp hbs)

end Octets

end Date

/-! ### Between quotes -/

/-- The octets that may stand in a quoted token. -/
def Octet.isUnquoted (b : UInt8) : Bool := b != quote && !isLineBreak b

theorem Octet.isUnquoted_of_isDateChar (b : UInt8) : isDateChar b = true → isUnquoted b = true := by
  revert b
  exact forall_octet (by decide +kernel)

namespace Written

/-- A token between double quotes. -/
def inQuotes (L : Language UInt8) : Language Sent :=
  fun t => ∃ bs ∈ L, t = plain (Octet.quote :: (bs ++ [Octet.quote]))

end Written

namespace Starts

theorem inQuotes (L : Language UInt8) : Starts (· = Octet.quote) (Written.inQuotes L) := by
  rintro t ⟨bs, -, rfl⟩
  exact ⟨_, _, octets_plain _, rfl⟩

end Starts

theorem Decoder.quotedToken_reads {bs : List UInt8} (hbs : bs.all Octet.isUnquoted = true) :
    Reads quotedToken (Written.octets (Octet.quote :: (bs ++ [Octet.quote]))) Anything bs := by
  have hread : Reads quotedToken (Written.octets [Octet.quote] *
      (Written.octets bs * Written.octets [Octet.quote])) Anything bs := by
    refine (expect_reads _).andThen
      ((takeWhile_reads hbs).bind ((expect_reads _).map fun _ => bs) ?_)
    rintro u rfl s _ b hb
    obtain rfl : Octet.quote = b := by simpa [plain, octets] using hb
    rfl
  rintro t rfl
  refine hread _ ⟨plain [Octet.quote], rfl, _, ⟨plain bs, rfl, plain [Octet.quote], rfl, rfl⟩, ?_⟩
  change plain [Octet.quote] ++ (plain bs ++ plain [Octet.quote]) = _
  rw [← plain_append, ← plain_append]
  rfl

namespace Date

/-- The renderings of a date within a request. -/
def written (d : Date) : Language Sent := Written.token d.token + Written.inQuotes d.quotedToken

theorem all_of_mem_token {d : Date} {bs : List UInt8} (h : bs ∈ d.token) :
    bs.all Octet.isDateChar = true := by
  refine all_of_mem_parts (fun _ hb => hb) ?_ h
  rintro as (has | has) <;> exact all_of_mem_fixed (fun _ hb => hb) has

theorem ne_nil_of_mem_token {d : Date} {bs : List UInt8} (h : bs ∈ d.token) : bs ≠ [] := by
  obtain ⟨as, has | has, u, -, rfl⟩ := h
  all_goals
    obtain ⟨b, as, rfl, -⟩ := exists_of_mem_fixed has
    exact List.cons_ne_nil _ _

theorem all_of_mem_quotedToken {d : Date} {bs : List UInt8} (h : bs ∈ d.quotedToken) :
    bs.all Octet.isUnquoted = true := by
  refine all_of_mem_parts Octet.isUnquoted_of_isDateChar ?_ h
  rintro as (has | has)
  · exact all_of_mem_fixedDay Octet.isUnquoted_of_isDateChar rfl has
  · exact all_of_mem_fixed Octet.isUnquoted_of_isDateChar has

/-- The octets of a date, in double quotes or not. -/
def decodeOctets : Decoder (List UInt8) := do
  if (← Decoder.peek) == Octet.quote then
    Decoder.quotedToken
  else
    Decoder.takeWhile1 Octet.isDateChar "date"

theorem decode_eq : decode = (do Decoder.token .date ofToken (← decodeOctets)) := rfl

theorem decodeOctets_of_mem_token {d : Date} {bs : List UInt8} (h : bs ∈ d.token) :
    Decoder.Reads decodeOctets (Written.octets bs) Delimited bs := by
  have hall := all_of_mem_token h
  obtain ⟨b, bs, rfl⟩ := List.exists_cons_of_ne_nil (ne_nil_of_mem_token h)
  have hquote : b ≠ Octet.quote := by
    rintro rfl
    exact absurd (List.all_eq_true.1 hall _ (List.mem_cons_self ..)) (by decide)
  refine Decoder.Reads.look (Written.starts_octets b bs) fun b' hb' => ?_
  rw [if_neg (by simpa [show b' = b from hb'] using hquote)]
  exact (Decoder.takeWhile1_reads (List.cons_ne_nil b bs) hall "date").imp
    fun s hs => hs.stops rfl rfl rfl

theorem decodeOctets_of_mem_quotedToken {d : Date} {bs : List UInt8} (h : bs ∈ d.quotedToken) :
    Decoder.Reads decodeOctets (Written.octets (Octet.quote :: (bs ++ [Octet.quote]))) Delimited
      bs := by
  refine Decoder.Reads.look (Written.starts_octets Octet.quote _) ?_
  rintro _ rfl
  exact (Decoder.quotedToken_reads (all_of_mem_quotedToken h)).anywhere

theorem decode_reads (d : Date) : Decoder.Reads decode d.written Delimited d := by
  rintro t (⟨bs, hbs, rfl⟩ | ⟨bs, hbs, rfl⟩) s hs c hc hrest
  · rw [decode_eq, Decoder.bind_of_ok (decodeOctets_of_mem_token hbs _ rfl s hs c hc hrest),
      Decoder.token_of_ok (ofToken_of_mem (mem_quotedToken hbs))]
    rfl
  · rw [decode_eq, Decoder.bind_of_ok (decodeOctets_of_mem_quotedToken hbs _ rfl s hs c hc hrest),
      Decoder.token_of_ok (ofToken_of_mem hbs)]
    rfl

end Date

namespace DateTime

/-! ### Date-times -/

/-- Hours and minutes of an offset.  There may be more than 59 minutes. -/
def clock (minutes : Nat) : Language UInt8 :=
  fun bs => ∃ hour minute, 60 * hour + minute = minutes ∧ bs ∈ fixed 2 hour * fixed 2 minute

/-- An offset: its sign, which is free for none, its hours and its minutes. -/
def zone (offset : Int) : Language UInt8 :=
  fun bs => (0 ≤ offset ∧ bs ∈ ({[Octet.plus]} : Language UInt8) * clock offset.natAbs) ∨
    (offset ≤ 0 ∧ bs ∈ ({[Octet.minus]} : Language UInt8) * clock offset.natAbs)

/-- Hours, minutes and seconds. -/
def time (t : DateTime) : Language UInt8 :=
  fixed 2 t.hour * ({[Octet.colon]} * (fixed 2 t.minute * ({[Octet.colon]} * fixed 2 t.second)))

/-- The renderings of a date-time between quotes. -/
def token (t : DateTime) : Language UInt8 :=
  Date.parts (Date.fixedDay t.date.day) t.date *
    ({[Octet.sp]} * (time t * ({[Octet.sp]} * zone t.offset)))

/-- The renderings of a date-time within a request. -/
def written (t : DateTime) : Language Sent := Written.inQuotes t.token

theorem readTime_reads (t : DateTime) :
    Reads readTime (time t) Anything (t.hour, t.minute, t.second) := by
  rintro _ ⟨hs, hhs, _, ⟨_, rfl, _, ⟨ms, hms, _, ⟨_, rfl, ss, hss, rfl⟩, rfl⟩, rfl⟩, rfl⟩ s _
  simp only [List.append_assoc, List.nil_append, List.cons_append, readTime, bind_apply,
    digits_of_mem hhs,
    digits_of_mem hms, digits_of_mem hss, octet_cons, hhs.2.2, hms.2.2, hss.2.2]
  rfl

theorem readClock_reads (minutes : Nat) (east : Bool) :
    Reads (do
      let h ← digits 2
      let m ← digits 2
      let minutes : Int := 60 * Decimal.value h + Decimal.value m
      return if east then minutes else -minutes) (clock minutes) Anything
      (if east then (minutes : Int) else -minutes) := by
  rintro _ ⟨hour, minute, rfl, hs, hhs, ms, hms, rfl⟩ s _
  simp only [List.append_assoc, bind_apply, digits_of_mem hhs, digits_of_mem hms, hhs.2.2,
    hms.2.2]
  push_cast
  rfl

theorem readZone_reads (offset : Int) : Reads readZone (zone offset) Anything offset := by
  rintro bs (⟨hle, hbs⟩ | ⟨hle, hbs⟩)
  · have hoffset : (if true then (offset.natAbs : Int) else -offset.natAbs) = offset :=
      Int.natAbs_of_nonneg hle
    have hread := readClock_reads offset.natAbs true
    rw [hoffset] at hread
    exact Reads.andThen (Reads.left ((octet_reads _).map fun _ => true) _) hread bs hbs
  · have hoffset : (if false then (offset.natAbs : Int) else -offset.natAbs) = offset := by
      rw [if_neg Bool.false_ne_true]
      omega
    have hread := readClock_reads offset.natAbs false
    rw [hoffset] at hread
    refine Reads.andThen (Reads.right ((octet_reads _).map fun _ => false) ?_) hread bs hbs
    rintro _ rfl s _
    exact ⟨Octet.minus :: s, rfl⟩

theorem readParts_reads (t : DateTime) : Reads readParts (token t) Anything
    { day := t.date.day, month := t.date.month, year := t.date.year, hour := t.hour,
      minute := t.minute, second := t.second, offset := t.offset } := by
  have hdate := Date.readParts_reads t.date
    ((Date.readFixedDay_reads t.date.day).imp (G := Date.DigitsEnd) fun _ _ => trivial)
  refine hdate.andThen ?_
  refine (octet_reads _).andThen ?_
  refine (readTime_reads t).andThen ?_
  refine (octet_reads _).andThen ?_
  exact (readZone_reads t.offset).map fun offset =>
    ({ day := t.date.day, month := t.date.month, year := t.date.year, hour := t.hour,
       minute := t.minute, second := t.second, offset } : Parts)

/-- A date-time is read from every rendering. -/
theorem ofToken_of_mem {t : DateTime} {bs : List UInt8} (h : bs ∈ t.token) :
    ofToken bs = .ok t := by
  have hread := readParts_reads t bs h [] trivial
  rw [List.append_nil] at hread
  have hparts : ofParts t.date t.hour t.minute t.second t.offset = some t :=
    dif_pos ⟨t.hour_lt, t.minute_lt, t.second_lt, t.offset_gt, t.offset_lt⟩
  rw [ofToken, hread]
  simp only [Parts.toDateTime?, Date.ofParts_of_date, hparts]
  rfl

theorem all_of_mem_token {t : DateTime} {bs : List UInt8} (h : bs ∈ t.token) :
    bs.all Octet.isUnquoted = true := by
  have hdigits : ∀ {count n : Nat}, ∀ bs ∈ fixed count n, bs.all Octet.isUnquoted = true :=
    fun bs hbs => Date.all_of_mem_fixed Octet.isUnquoted_of_isDateChar hbs
  have hclock : ∀ minutes, ∀ bs ∈ clock minutes, bs.all Octet.isUnquoted = true := by
    rintro minutes bs ⟨hour, minute, -, hbs⟩
    exact Octet.all_of_mem_mul hdigits hdigits bs hbs
  have hdate : ∀ bs ∈ Date.parts (Date.fixedDay t.date.day) t.date,
      bs.all Octet.isUnquoted = true := fun bs hbs =>
    Date.all_of_mem_parts Octet.isUnquoted_of_isDateChar
      (fun _ h => Date.all_of_mem_fixedDay Octet.isUnquoted_of_isDateChar rfl h) hbs
  have hcolon : ∀ bs ∈ ({[Octet.colon]} : Language UInt8), bs.all Octet.isUnquoted = true :=
    Octet.all_of_mem_singleton rfl
  have hsp : ∀ bs ∈ ({[Octet.sp]} : Language UInt8), bs.all Octet.isUnquoted = true :=
    Octet.all_of_mem_singleton rfl
  have htime : ∀ bs ∈ time t, bs.all Octet.isUnquoted = true :=
    Octet.all_of_mem_mul hdigits (Octet.all_of_mem_mul hcolon
      (Octet.all_of_mem_mul hdigits (Octet.all_of_mem_mul hcolon hdigits)))
  have hzone : ∀ bs ∈ zone t.offset, bs.all Octet.isUnquoted = true := by
    rintro bs (⟨-, hbs⟩ | ⟨-, hbs⟩)
    · exact Octet.all_of_mem_mul (Octet.all_of_mem_singleton rfl) (hclock _) bs hbs
    · exact Octet.all_of_mem_mul (Octet.all_of_mem_singleton rfl) (hclock _) bs hbs
  exact Octet.all_of_mem_mul hdate
    (Octet.all_of_mem_mul hsp (Octet.all_of_mem_mul htime (Octet.all_of_mem_mul hsp hzone))) bs h

theorem decode_reads (t : DateTime) : Decoder.Reads decode t.written Anything t := by
  rintro _ ⟨bs, hbs, rfl⟩ s _ c hc hrest
  have hread := Decoder.quotedToken_reads (all_of_mem_token hbs) _ rfl s trivial c hc hrest
  rw [decode, Decoder.bind_of_ok hread, Decoder.token_of_ok (ofToken_of_mem hbs)]
  rfl

end DateTime

/-! ### Every date can be rendered -/

theorem Date.exists_mem_parts (day : Language UInt8) {bs : List UInt8} (h : bs ∈ day) (d : Date) :
    ∃ bs, bs ∈ parts day d := by
  obtain ⟨ys, hys⟩ := exists_mem_fixed 4 d.year (Nat.lt_succ_of_le d.year_le)
  exact ⟨_, Language.append_mem_mul h (Language.append_mem_mul rfl (Language.append_mem_mul rfl
    (Language.append_mem_mul rfl hys)))⟩

theorem Date.day_lt (d : Date) : d.day < 10 ^ 2 := by
  refine Nat.lt_of_le_of_lt d.day_le ?_
  unfold daysIn
  split <;> first | decide | (split <;> decide)

theorem Date.possible_written (d : Date) : Possible d.written := by
  obtain ⟨ds, hds⟩ := exists_mem_fixed 2 d.day d.day_lt
  obtain ⟨bs, hbs⟩ := exists_mem_parts (fixed 1 d.day + fixed 2 d.day) (Or.inr hds) d
  exact ⟨_, Or.inl ⟨bs, hbs, rfl⟩⟩

theorem DateTime.possible_written (t : DateTime) : Possible t.written := by
  have hoffset : t.offset.natAbs < 1440 := by
    have := t.offset_gt
    have := t.offset_lt
    omega
  have hhour := t.hour_lt
  have hminute := t.minute_lt
  have hsecond := t.second_lt
  obtain ⟨ds, hds⟩ := exists_mem_fixed 2 t.date.day t.date.day_lt
  obtain ⟨bs, hbs⟩ := Date.exists_mem_parts (Date.fixedDay t.date.day) (Or.inr hds) t.date
  obtain ⟨hs, hhs⟩ := exists_mem_fixed 2 t.hour (by omega)
  obtain ⟨ms, hms⟩ := exists_mem_fixed 2 t.minute (by omega)
  obtain ⟨ss, hss⟩ := exists_mem_fixed 2 t.second (by omega)
  obtain ⟨zs, hzs⟩ := exists_mem_fixed 2 (t.offset.natAbs / 60) (by omega)
  obtain ⟨ws, hws⟩ := exists_mem_fixed 2 (t.offset.natAbs % 60) (by omega)
  have hclock : zs ++ ws ∈ clock t.offset.natAbs :=
    ⟨_, _, Nat.div_add_mod _ _, Language.append_mem_mul hzs hws⟩
  have htime : hs ++ ([Octet.colon] ++ (ms ++ ([Octet.colon] ++ ss))) ∈ time t :=
    Language.append_mem_mul hhs (Language.append_mem_mul rfl
      (Language.append_mem_mul hms (Language.append_mem_mul rfl hss)))
  obtain ⟨us, hus⟩ : ∃ us, us ∈ zone t.offset := by
    rcases Int.le_total 0 t.offset with hle | hle
    · exact ⟨_, Or.inl ⟨hle, Language.append_mem_mul rfl hclock⟩⟩
    · exact ⟨_, Or.inr ⟨hle, Language.append_mem_mul rfl hclock⟩⟩
  exact ⟨_, _, Language.append_mem_mul hbs (Language.append_mem_mul rfl
    (Language.append_mem_mul htime (Language.append_mem_mul rfl hus))), rfl⟩

end ImapRequest
