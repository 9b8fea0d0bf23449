import ImapRequest.Proofs.Calendar
import ImapRequest.Proofs.Grammar.Dates

/-!
# Date-times to the octet

```
date-time = DQUOTE date-day-fixed "-" date-month "-" date-year SP time SP zone DQUOTE
```

A date-time is checked four times: its digits when they are read, its parts against calendar and
clock, the conversion to an instant, and what the instant is in local time.  The last two checks
reject nothing that has passed the first two: universal time may be in the year -1 or 10000, but
these are still years of a library of instants, and in local time the year is the one that was read.

* `DateTime.ofToken_eq_ok_iff` : the tokens that are date-times;
* `DateTime.ofLocal_eq_ok_iff` : the local times and offsets that are date-times;
* `DateTime.exists_instant` : the way through a library of instants;
* `DateTime.decode_faithful` : the date-times in requests, and those of instants.
-/

namespace ImapRequest

namespace TokenReader.Takes

variable {α β : Type} {x : TokenReader α} {L : α → Language UInt8}

theorem map (g : α → β) (hx : Takes x L) :
    Takes (do return g (← x)) fun b => fun w => ∃ a, w ∈ L a ∧ g a = b := by
  intro bs b rest h
  obtain ⟨a, hrun, rfl⟩ := exists_of_map h
  obtain ⟨us, hus, rfl⟩ := hx hrun
  exact ⟨us, ⟨a, hus, rfl⟩, rfl⟩

end TokenReader.Takes

/-- So many digits make a number below that power of ten. -/
theorem Decimal.extend_lt {n m : Nat} (h : n < m) (ds : List UInt8)
    (hds : ds.all Octet.isDigit = true) :
    extend n ds < m * 10 ^ ds.length := by
  have hdigit : ∀ d, Octet.isDigit d = true → Octet.digitValue d < 10 :=
    Octet.forall_octet (by decide +kernel)
  induction ds generalizing n m with
  | nil => simpa [extend_nil] using h
  | cons d ds ih =>
    rw [List.all_cons, Bool.and_eq_true] at hds
    have hd := hdigit d hds.1
    rw [extend_cons, List.length_cons, Nat.pow_succ', ← Nat.mul_assoc]
    exact ih (by omega) hds.2

namespace DateTime

open TokenReader

/-! ### What is read -/

/-- Hours, minutes and seconds as they are written, whether the clock has them or not. -/
def spelledTime (p : Nat × Nat × Nat) : Language UInt8 :=
  fixed 2 p.1 * ({[Octet.colon]} * (fixed 2 p.2.1 * ({[Octet.colon]} * fixed 2 p.2.2)))

/-- The parts of a date-time as they are written, whether calendar and clock have them or not. -/
def spelledParts (p : Parts) : Language UInt8 :=
  Date.spelledParts Date.fixedDay (p.day, p.month, p.year) *
    ({[Octet.sp]} * (spelledTime (p.hour, p.minute, p.second) * ({[Octet.sp]} * zone p.offset)))

theorem readTime_takes : Takes readTime spelledTime := by
  intro bs p rest h
  obtain ⟨hs, left, hhour, hrun⟩ := exists_of_bind h
  obtain ⟨_, left₁, hcolon, hrun₁⟩ := exists_of_bind hrun
  obtain ⟨ms, left₂, hminute, hrun₂⟩ := exists_of_bind hrun₁
  obtain ⟨_, left₃, hcolon', hrun₃⟩ := exists_of_bind hrun₂
  obtain ⟨ss, hsecond, rfl⟩ := exists_of_map hrun₃
  obtain ⟨hhs, rfl⟩ := of_digits hhour
  obtain ⟨_, rfl, rfl⟩ := octet_takes _ hcolon
  obtain ⟨hms, rfl⟩ := of_digits hminute
  obtain ⟨_, rfl, rfl⟩ := octet_takes _ hcolon'
  obtain ⟨hss, rfl⟩ := of_digits hsecond
  exact ⟨_, Language.append_mem_mul hhs (Language.append_mem_mul rfl (Language.append_mem_mul hms
    (Language.append_mem_mul rfl hss))), by simp⟩

theorem readZone_takes : Takes readZone zone := by
  intro bs offset rest h
  obtain ⟨east, left, hsign, hrun⟩ := exists_of_bind h
  obtain ⟨hs, left₁, hhour, hrun₁⟩ := exists_of_bind hrun
  obtain ⟨ms, hminute, rfl⟩ := exists_of_map hrun₁
  obtain ⟨us, hus, rfl⟩ := (((octet_takes Octet.plus).map fun _ => true).either
    ((octet_takes Octet.minus).map fun _ => false)) hsign
  obtain ⟨hhs, rfl⟩ := of_digits hhour
  obtain ⟨hms, rfl⟩ := of_digits hminute
  have hclock {minutes : Nat} (h : 60 * Decimal.value hs + Decimal.value ms = minutes) :
      hs ++ ms ∈ clock minutes :=
    ⟨_, _, h, Language.append_mem_mul hhs hms⟩
  rcases hus with ⟨_, rfl, rfl⟩ | ⟨_, rfl, rfl⟩
  · rw [if_pos rfl]
    exact ⟨_, Or.inl ⟨by omega, Language.append_mem_mul rfl (hclock (by omega))⟩, by simp⟩
  · rw [if_neg Bool.false_ne_true]
    exact ⟨_, Or.inr ⟨by omega, Language.append_mem_mul rfl (hclock (by omega))⟩, by simp⟩

theorem readParts_takes : Takes readParts spelledParts := by
  intro bs p rest h
  obtain ⟨⟨day, month, year⟩, left, hdate, hrun⟩ := exists_of_bind h
  obtain ⟨_, left₁, hsp, hrun₁⟩ := exists_of_bind hrun
  obtain ⟨⟨hour, minute, second⟩, left₂, htime, hrun₂⟩ := exists_of_bind hrun₁
  obtain ⟨_, left₃, hsp', hrun₃⟩ := exists_of_bind hrun₂
  obtain ⟨offset, hzone, rfl⟩ := exists_of_map hrun₃
  obtain ⟨ds, hds, rfl⟩ := Date.readParts_takes Date.readFixedDay_takes hdate
  obtain ⟨_, rfl, rfl⟩ := octet_takes _ hsp
  obtain ⟨ts, hts, rfl⟩ := readTime_takes htime
  obtain ⟨_, rfl, rfl⟩ := octet_takes _ hsp'
  obtain ⟨zs, hzs, rfl⟩ := readZone_takes hzone
  exact ⟨_, Language.append_mem_mul hds (Language.append_mem_mul rfl (Language.append_mem_mul hts
    (Language.append_mem_mul rfl hzs))), by simp⟩

/-! ### What calendar and clock have -/

/-- The parts of a date-time. -/
def parts (t : DateTime) : Parts where
  day := t.date.day
  month := t.date.month
  year := t.date.year
  hour := t.hour
  minute := t.minute
  second := t.second
  offset := t.offset

/-- The local time of parts. -/
def Parts.localTime (p : Parts) : LocalTime where
  year := p.year
  month := p.month
  day := p.day
  hour := p.hour
  minute := p.minute
  second := p.second
  nanos := 0

/-- Calendar and clock have the parts, and the offset is below a day. -/
def Parts.Valid (p : Parts) : Prop := p.localTime.Valid ∧ -1440 < p.offset ∧ p.offset < 1440

instance (p : Parts) : Decidable p.Valid := inferInstanceAs (Decidable (_ ∧ _))

theorem valid_parts (t : DateTime) : t.parts.Valid := by
  refine ⟨⟨⟨t.date.one_le_day, ?_⟩, t.hour_lt, t.minute_lt, t.second_lt⟩, t.offset_gt, t.offset_lt⟩
  exact Nat.le_trans t.date.day_le (Nat.le_of_eq (monthLength_ofNat _ _).symm)

theorem ofParts_parts (t : DateTime) : ofParts t.date t.hour t.minute t.second t.offset = some t :=
  dif_pos ⟨t.hour_lt, t.minute_lt, t.second_lt, t.offset_gt, t.offset_lt⟩

theorem eq_of_ofParts {date : Date} {hour minute second : Nat} {offset : Int} {t : DateTime}
    (h : ofParts date hour minute second offset = some t) :
    t.date = date ∧ t.hour = hour ∧ t.minute = minute ∧ t.second = second ∧ t.offset = offset := by
  unfold ofParts at h
  split_ifs at h
  obtain rfl := Option.some.inj h
  exact ⟨rfl, rfl, rfl, rfl, rfl⟩

theorem toDateTime?_eq_some_iff {p : Parts} {t : DateTime} :
    p.toDateTime? = some t ↔ t.parts = p := by
  constructor
  · intro h
    unfold Parts.toDateTime? at h
    split at h
    · simp at h
    · rename_i date hdate
      obtain ⟨hday, hmonth, hyear⟩ := Date.ofParts_eq_ok_iff.1 hdate
      obtain ⟨rfl, hhour, hminute, hsecond, hoffset⟩ := eq_of_ofParts h
      rw [parts, hday, hmonth, Int.ofNat.inj hyear, hhour, hminute, hsecond, hoffset]
  · rintro rfl
    unfold Parts.toDateTime? parts
    rw [Date.ofParts_of_date]
    exact ofParts_parts t

theorem exists_of_valid {p : Parts} (hp : p.Valid) (hyear : p.year ≤ 9999) :
    ∃ t : DateTime, t.parts = p := by
  obtain ⟨⟨⟨hday, hlength⟩, hhour, hminute, hsecond⟩, hgt, hlt⟩ := hp
  have hlength : p.day ≤ daysIn p.year p.month :=
    Nat.le_trans hlength (Nat.le_of_eq (monthLength_ofNat _ _))
  exact ⟨⟨⟨p.year, p.month, p.day, hyear, hday, hlength⟩, p.hour, p.minute, p.second,
    p.offset, hhour,
    hminute, hsecond, hgt, hlt⟩, rfl⟩

/-- The tokens that are date-times. -/
theorem ofToken_eq_ok_iff {bs : List UInt8} {t : DateTime} : ofToken bs = .ok t ↔ bs ∈ t.token := by
  refine ⟨fun h => ?_, ofToken_of_mem⟩
  unfold ofToken at h
  split at h
  · simp at h
  · rename_i p left hread
    obtain ⟨us, hus, rfl⟩ := readParts_takes hread
    split at h
    · simp at h
    · rename_i t' ht
      split_ifs at h with hleft
      obtain rfl := Except.ok.inj h
      obtain rfl := toDateTime?_eq_some_iff.1 ht
      rw [List.isEmpty_iff.1 hleft, List.append_nil]
      exact hus

/-! ### Local times and instants -/

/-- A local time at an offset is a date-time just when it is the local time of it. -/
theorem ofLocal_eq_ok_iff {l : LocalTime} {offset : Int} {t : DateTime} :
    ofLocal l offset = .ok t ↔ t.parts.localTime = l ∧ 60 * t.offset = offset := by
  constructor
  · intro h
    unfold ofLocal at h
    split_ifs at h with hyear hnanos hoffset
    split at h
    · simp at h
    · rename_i date hdate
      split at h
      · rename_i t' ht
        obtain rfl := Except.ok.inj h
        obtain ⟨hday, hmonth, hyear'⟩ := Date.ofParts_eq_ok_iff.1 hdate
        obtain ⟨rfl, hhour, hminute, hsecond, hoffset'⟩ := eq_of_ofParts ht
        have hl : t'.parts.localTime = l := by
          simp only [parts, Parts.localTime, hday, hmonth, hyear', hhour, hminute, hsecond,
            ← not_ne_iff.1 hnanos]
        refine ⟨hl, ?_⟩
        rw [hoffset']
        exact Int.mul_tdiv_cancel_of_tmod_eq_zero (not_ne_iff.1 hoffset)
      · simp at h
  · rintro ⟨rfl, rfl⟩
    have hyear : 0 ≤ t.parts.localTime.year ∧ t.parts.localTime.year ≤ 9999 := by
      have := t.date.year_le
      simp only [parts, Parts.localTime]
      omega
    have hnanos : t.parts.localTime.nanos = 0 := rfl
    have hmod : (60 * t.offset).tmod 60 = 0 := Int.mul_tmod_right 60 t.offset
    have hdiv : (60 * t.offset).tdiv 60 = t.offset := Int.mul_tdiv_cancel_left _ (by decide)
    rw [ofLocal, if_neg (not_not.2 hyear), if_neg (not_not.2 hnanos), if_neg (not_not.2 hmod), hdiv]
    simp only [parts, Parts.localTime, Date.ofParts_of_date, ofParts_parts]

/-- The date-time of an instant. -/
def ofInstant (k : Chronology) (x : k.Instant) : Except DateTimeError DateTime :=
  ofLocal (k.toLocal x) (k.offset x)

theorem ofInstant_eq_ok_iff {k : Chronology} {x : k.Instant} {t : DateTime} :
    ofInstant k x = .ok t ↔ t.parts.localTime = k.toLocal x ∧ 60 * t.offset = k.offset x :=
  ofLocal_eq_ok_iff

section Instants

variable {k : Chronology}

/-- Parts in years of four digits that calendar and clock have are those of an instant, of which the
date-time has them again. -/
theorem exists_instant (hk : k.Lawful) {p : Parts} (hp : p.Valid) (hyear : p.year ≤ 9999) :
    ∃ x t, k.ofLocal p.localTime (60 * p.offset) = some x ∧ ofInstant k x = .ok t ∧
      t.parts = p := by
  obtain ⟨t, rfl⟩ := exists_of_valid hp hyear
  have hgt : -86400 < 60 * t.offset := by
    have := t.offset_gt
    omega
  have hlt : 60 * t.offset < 86400 := by
    have := t.offset_lt
    omega
  obtain ⟨x, hx⟩ :=
    hk.exists_ofLocal_of_year hp.1 (Int.natCast_nonneg _) (Int.ofNat_le.2 hyear) hgt hlt
  have hlocal : k.toLocal x = t.parts.localTime := hk.toLocal_ofLocal hp.1 hx
  have hoffset : k.offset x = 60 * t.offset := hk.offset_ofLocal hp.1 hx
  exact ⟨x, t, hx, ofInstant_eq_ok_iff.2 ⟨hlocal.symm, hoffset.symm⟩, rfl⟩

/-- The local time of an instant and its offset make the same instant. -/
theorem exists_same_instant (hk : k.Lawful) {x : k.Instant} {t : DateTime}
    (h : ofInstant k x = .ok t) :
    ∃ y, k.ofLocal t.parts.localTime (60 * t.offset) = some y ∧ k.universal y = k.universal x ∧
      k.offset y = k.offset x ∧ k.toLocal y = k.toLocal x := by
  obtain ⟨hlocal, hoffset⟩ := ofInstant_eq_ok_iff.1 h
  have hvalid := t.valid_parts.1
  obtain ⟨y, t', hy, -⟩ := exists_instant hk t.valid_parts t.date.year_le
  have hseconds := hk.seconds_toLocal x
  have hsame : k.offset y = k.offset x := (hk.offset_ofLocal hvalid hy).trans hoffset
  refine ⟨y, hy, ?_, hsame, (hk.toLocal_ofLocal hvalid hy).trans hlocal⟩
  rw [hk.universal_ofLocal hvalid hy, hlocal, hseconds]
  change k.universal x + k.offset x - 60 * t.offset = _
  rw [hoffset, Int.add_sub_cancel]

theorem year_le_of_readParts {token left : List UInt8} {p : Parts}
    (h : readParts token = .ok (p, left)) : p.year ≤ 9999 := by
  obtain ⟨us, ⟨_, ⟨_, -, _, ⟨_, -, _, ⟨_, -, _, ⟨_, -, ys, hyear, -⟩, -⟩, -⟩, -⟩, -⟩, -⟩ :=
    readParts_takes h
  obtain ⟨hlength, hall, hvalue⟩ : ys ∈ fixed 4 p.year := hyear
  have hlt := Decimal.extend_lt (show 0 < 1 by decide) ys hall
  rw [hlength] at hlt
  change Decimal.value ys < _ at hlt
  omega

end Instants

/-! ### Date-times in requests -/

variable {c e : Cursor} {t : DateTime}

theorem decode_eq_ok_iff :
    decode c = (.ok t, e) ↔ c.Steady ∧ ∃ w s, w ∈ t.token ∧
      c.rest = Octet.quote :: (w ++ Octet.quote :: s) ∧ e = c.advance (w.length + 2) := by
  rw [decode, Decoder.token_eq_ok_iff]
  simp only [Decoder.quotedToken_eq_ok_iff, ofToken_eq_ok_iff]
  constructor
  · rintro ⟨w, ⟨hc, s, -, hrest, he⟩, hw⟩
    exact ⟨hc, w, s, hw, hrest, he⟩
  · rintro ⟨hc, w, s, hw, hrest, he⟩
    exact ⟨w, ⟨hc, s, all_of_mem_token hw, hrest, he⟩, hw⟩

/-- A date-time is read exactly where a rendering of it stands in double quotes, and the cursor is
then behind these.  That is so for the date-time of every instant that has one, and it is the same
instant again.  Parts that were read are those of an instant and a date-time, if only calendar and
clock have them and the offset is below a day. -/
theorem decode_faithful (k : Chronology) (hk : k.Lawful) (c : Cursor) :
    (∀ t e, decode c = (.ok t, e) ↔ c.Steady ∧ ∃ w s, w ∈ t.token ∧
      c.rest = Octet.quote :: (w ++ Octet.quote :: s) ∧ e = c.advance (w.length + 2)) ∧
    (∀ x t, ofInstant k x = .ok t →
      t.parts.localTime = k.toLocal x ∧ 60 * t.offset = k.offset x ∧ (∃ w, w ∈ t.token) ∧
      (∀ w ∈ t.token, ∀ s, c.Steady → c.rest = Octet.quote :: (w ++ Octet.quote :: s) →
        decode c = (.ok t, c.advance (w.length + 2))) ∧
      ∃ y, k.ofLocal t.parts.localTime (60 * t.offset) = some y ∧ k.universal y = k.universal x ∧
        k.offset y = k.offset x ∧ k.toLocal y = k.toLocal x) ∧
    ∀ token p left, readParts token = .ok (p, left) →
      (p.Valid → ∃ x t, k.ofLocal p.localTime (60 * p.offset) = some x ∧ ofInstant k x = .ok t ∧
        p.toDateTime? = some t) ∧
      (¬ p.Valid → p.toDateTime? = none) := by
  refine ⟨fun t e => decode_eq_ok_iff, fun x t h => ?_,
    fun token p left h => ⟨fun hp => ?_, fun hp => ?_⟩⟩
  · obtain ⟨hlocal, hoffset⟩ := ofInstant_eq_ok_iff.1 h
    obtain ⟨_, w, hw, rfl⟩ := t.possible_written
    refine ⟨hlocal, hoffset, ⟨w, hw⟩, fun w hw s hc hrest => ?_, exists_same_instant hk h⟩
    exact decode_eq_ok_iff.2 ⟨hc, w, s, hw, hrest, rfl⟩
  · obtain ⟨x, t, hx, ht, hparts⟩ := exists_instant hk hp (year_le_of_readParts h)
    exact ⟨x, t, hx, ht, toDateTime?_eq_some_iff.2 hparts⟩
  · refine Option.eq_none_iff_forall_ne_some.2 fun t ht => hp ?_
    rw [← toDateTime?_eq_some_iff.1 ht]
    exact t.valid_parts

/-- Half an hour after the year 0 starts and half an hour before the year 9999 ends, while universal
time is in the year before and in the year after. -/
theorem decode_faithful_otherYear :
    let first : DateTime := ⟨⟨0, 1, 1, by decide, by decide, by decide⟩, 0, 30, 0, 60, by decide,
      by decide, by decide, by decide, by decide⟩
    let instant : Chronology.UniversalTime := ⟨⟨-1, 12, 31⟩, 84600, 0, 3600, by decide, by decide,
      by decide, by decide⟩
    let c := Cursor.ofOctets (Octet.ofText "\" 1-Jan-0000 00:30:00 +0100\")")
    let last : Parts := ⟨31, 12, 9999, 23, 30, 0, -1439⟩
    ofInstant .universalTimes instant = .ok first ∧ decode c = (.ok first, c.advance 28) ∧
      readParts (Octet.ofText "31-Dec-9999 23:30:00 -2359") = .ok (last, []) ∧
      ∃ (x : Chronology.UniversalTime) (t : DateTime),
        Chronology.universalTimes.ofLocal last.localTime (-86340) = some x ∧ x.day.year = 10000 ∧
          ofInstant .universalTimes x = .ok t ∧ last.toDateTime? = some t := by
  intro first instant c last
  have hinstant : ofInstant .universalTimes instant = .ok first :=
    ofInstant_eq_ok_iff.2 ⟨by decide +kernel, by decide⟩
  have hfirst : Octet.ofText " 1-Jan-0000 00:30:00 +0100" ∈ first.token :=
    ofToken_eq_ok_iff.1 (by decide +kernel)
  have hlast : readParts (Octet.ofText "31-Dec-9999 23:30:00 -2359") = .ok (last, []) := by
    decide +kernel
  obtain ⟨x, t, hx, ht, hparts⟩ :=
    ((decode_faithful _ Chronology.lawful_universalTimes c).2.2 _ _ _ hlast).1 (by decide +kernel)
  rw [show 60 * last.offset = -86340 by decide] at hx
  refine ⟨hinstant, ?_, hlast, x, t, hx, ?_, ht, hparts⟩
  · obtain ⟨-, -, -, hread, -⟩ :=
      (decode_faithful _ Chronology.lawful_universalTimes c).2.1 instant first hinstant
    exact hread _ hfirst [Octet.rparen] (Cursor.steady_ofOctets _) (by decide +kernel)
  · rw [(Chronology.of_ofLocal_universalTimes hx).1]
    decide +kernel

end DateTime

end ImapRequest
