import Mathlib.Tactic.IntervalCases
import Mathlib.Tactic.SplitIfs
import ImapRequest.Calendar.DateTime

/-!
# Days, seconds and instants

The days of the proleptic Gregorian calendar are numbered without gaps, in years of either sign, so
that a local time is a number of seconds, and subtracting its offset gives universal time.
Universal time may be a day earlier or later, and so may be the year.

* `Day.number`, `Day.number_next`, `Day.eq_of_number_eq` : the numbers of days, which count them;
* `LocalTime.seconds`, `LocalTime.eq_of_seconds_eq` : a local time is determined by its seconds;
* `Chronology`, `Chronology.Lawful` : what is relied on of a library of instants;
* `Chronology.Lawful.toLocal_ofLocal`, `Chronology.Lawful.exists_ofLocal_of_year` : local times are
  recovered from their instants, and those in years of four digits have one.
-/

namespace ImapRequest

/-! ### Days -/

/-- A day in a year of either sign. -/
@[ext]
structure Day where
  year : Int
  /-- The number of the month, from 1. -/
  month : Nat
  /-- The number of the day in its month, from 1. -/
  day : Nat
  deriving DecidableEq, Repr

/-- The number of days of a month.  The calendar repeats after 400 years. -/
def monthLength (year : Int) (month : Nat) : Nat := daysIn (year % 400).toNat month

/-- The number of days from the year 1 to a year. -/
def daysBeforeYear (year : Int) : Int :=
  365 * (year - 1) + (year - 1) / 4 - (year - 1) / 100 + (year - 1) / 400

/-- The number of days in the months of a year that are before a month. -/
def daysBeforeMonth (year : Int) : Nat → Nat
  | 0 => 0
  | month + 1 => daysBeforeMonth year month + monthLength year month

theorem isLeapYear_mod (year : Nat) : isLeapYear (year % 400) = isLeapYear year := by
  have h4 : year % 400 % 4 = year % 4 := by omega
  have h100 : year % 400 % 100 = year % 100 := by omega
  rw [isLeapYear, isLeapYear, h4, h100, Nat.mod_mod]

theorem monthLength_ofNat (year month : Nat) : monthLength year month = daysIn year month := by
  have h : ((year : Int) % 400).toNat = year % 400 := by omega
  simp only [monthLength, h, daysIn, isLeapYear_mod]

/-- A year is as long as its months. -/
theorem daysBeforeYear_succ (year : Int) :
    daysBeforeYear (year + 1) = daysBeforeYear year + daysBeforeMonth year 13 := by
  have hleap : isLeapYear (year % 400).toNat = true ↔
      year % 4 = 0 ∧ (year % 100 ≠ 0 ∨ year % 400 = 0) := by
    simp only [isLeapYear, Bool.and_eq_true, Bool.or_eq_true, beq_iff_eq, bne_iff_ne]
    omega
  have hlength :
      (daysBeforeMonth year 13 : Int) = if isLeapYear (year % 400).toNat then 366 else 365 := by
    simp only [daysBeforeMonth, monthLength, daysIn]
    split <;> rfl
  rw [hlength]
  unfold daysBeforeYear
  split
  · rename_i h
    have := hleap.1 h
    omega
  · rename_i h
    have := mt hleap.2 h
    omega

theorem daysBeforeYear_mono {year year' : Int} (h : year ≤ year') :
    daysBeforeYear year ≤ daysBeforeYear year' := by
  unfold daysBeforeYear
  omega

theorem daysBeforeMonth_mono (year : Int) {month month' : Nat} (h : month ≤ month') :
    daysBeforeMonth year month ≤ daysBeforeMonth year month' := by
  induction h with
  | refl => exact Nat.le_refl _
  | step _ ih => exact Nat.le_trans ih (Nat.le_add_right _ _)

namespace Day

/-- The day is in the calendar. -/
def Valid (d : Day) : Prop := 1 ≤ d.day ∧ d.day ≤ monthLength d.year d.month

instance (d : Day) : Decidable d.Valid := inferInstanceAs (Decidable (_ ∧ _))

/-- The number of a day, from 1 for the first day of the year 1. -/
def number (d : Day) : Int := daysBeforeYear d.year + daysBeforeMonth d.year d.month + d.day

/-- The day after a day. -/
def next (d : Day) : Day :=
  if d.day < monthLength d.year d.month then { d with day := d.day + 1 }
  else if d.month < 12 then { d with month := d.month + 1, day := 1 }
  else { year := d.year + 1, month := 1, day := 1 }

/-- The day before a day. -/
def prev (d : Day) : Day :=
  if 1 < d.day then { d with day := d.day - 1 }
  else if 1 < d.month then { d with month := d.month - 1, day := monthLength d.year (d.month - 1) }
  else { year := d.year - 1, month := 12, day := 31 }

variable {d e : Day}

theorem Valid.month_pos (h : d.Valid) : 1 ≤ d.month ∧ d.month ≤ 12 := by
  have hlength : 1 ≤ monthLength d.year d.month := Nat.le_trans h.1 h.2
  unfold monthLength daysIn at hlength
  split at hlength <;> omega

theorem one_le_monthLength (year : Int) {month : Nat} (hle : 1 ≤ month) (hlt : month ≤ 12) :
    1 ≤ monthLength year month := by
  interval_cases month
  any_goals exact Nat.le_add_left 1 _
  change 1 ≤ if isLeapYear (year % 400).toNat then 29 else 28
  split <;> decide

/-- A day is in its month, and its month in its year. -/
theorem Valid.number_bounds (h : d.Valid) :
    daysBeforeYear d.year + daysBeforeMonth d.year d.month < d.number ∧
      d.number ≤ daysBeforeYear d.year + daysBeforeMonth d.year (d.month + 1) ∧
      daysBeforeYear d.year + daysBeforeMonth d.year (d.month + 1) ≤
        daysBeforeYear (d.year + 1) := by
  have hlt : d.month + 1 ≤ 13 := Nat.succ_le_succ h.month_pos.2
  have hmono := daysBeforeMonth_mono d.year hlt
  have hmonth : daysBeforeMonth d.year (d.month + 1) =
      daysBeforeMonth d.year d.month + monthLength d.year d.month := rfl
  have hyear := daysBeforeYear_succ d.year
  have hle := h.1
  have hday := h.2
  unfold number
  omega

theorem year_le_of_number_le (hd : d.Valid) (he : e.Valid) (h : d.number ≤ e.number) :
    d.year ≤ e.year := by
  refine Int.not_lt.1 fun hlt => ?_
  have hmono := daysBeforeYear_mono (show e.year + 1 ≤ d.year from hlt)
  have hdb := hd.number_bounds
  have heb := he.number_bounds
  omega

theorem month_le_of_number_le (hd : d.Valid) (he : e.Valid) (hyear : d.year = e.year)
    (h : d.number ≤ e.number) : d.month ≤ e.month := by
  refine Nat.not_lt.1 fun hlt => ?_
  have hmono := daysBeforeMonth_mono e.year (show e.month + 1 ≤ d.month from hlt)
  have hdb := hd.number_bounds
  have heb := he.number_bounds
  rw [hyear] at hdb
  omega

/-- No two days have the same number. -/
theorem eq_of_number_eq (hd : d.Valid) (he : e.Valid) (h : d.number = e.number) : d = e := by
  have hyear : d.year = e.year := Int.le_antisymm (year_le_of_number_le hd he (Int.le_of_eq h))
    (year_le_of_number_le he hd (Int.le_of_eq h.symm))
  have hmonth : d.month = e.month :=
    Nat.le_antisymm (month_le_of_number_le hd he hyear (Int.le_of_eq h))
      (month_le_of_number_le he hd hyear.symm (Int.le_of_eq h.symm))
  refine Day.ext hyear hmonth ?_
  rw [number, number, hyear, hmonth] at h
  omega

/-! ### The next day and the one before -/

theorem valid_next (d : Day) : d.next.Valid := by
  unfold next
  split_ifs with hday hmonth
  · exact ⟨Nat.le_add_left _ _, hday⟩
  · exact ⟨Nat.le_refl _, one_le_monthLength _ (Nat.le_add_left _ _) hmonth⟩
  · exact ⟨Nat.le_refl 1, one_le_monthLength _ (Nat.le_refl 1) (show 1 ≤ 12 by decide)⟩

theorem Valid.prev (h : d.Valid) : d.prev.Valid := by
  obtain ⟨hle, hlt⟩ := h.month_pos
  unfold Day.prev
  split_ifs with hday hmonth
  · exact ⟨Nat.le_sub_one_of_lt hday, Nat.le_trans (Nat.sub_le _ _) h.2⟩
  · exact ⟨one_le_monthLength _ (by omega) (by omega), Nat.le_refl _⟩
  · exact ⟨show 1 ≤ 31 by decide, Nat.le_refl 31⟩

theorem number_next (h : d.Valid) : d.next.number = d.number + 1 := by
  unfold Day.next
  split_ifs with hday hmonth
  · simp only [number]
    omega
  · have hlast : d.day = monthLength d.year d.month := Nat.le_antisymm h.2 (Nat.le_of_not_lt hday)
    simp only [number, daysBeforeMonth, ← hlast]
    omega
  · have hlast : d.day = monthLength d.year d.month := Nat.le_antisymm h.2 (Nat.le_of_not_lt hday)
    have hdecember : d.month = 12 := Nat.le_antisymm h.month_pos.2 (Nat.le_of_not_lt hmonth)
    have hyear : daysBeforeMonth d.year 13 = daysBeforeMonth d.year d.month + d.day := by
      rw [hlast, hdecember]
      rfl
    have hfirst : daysBeforeMonth (d.year + 1) 1 = 0 := rfl
    simp only [number, hfirst, daysBeforeYear_succ, hyear]
    omega

theorem next_prev (h : d.Valid) : d.prev.next = d := by
  obtain ⟨hle, hlt⟩ := h.month_pos
  have hfirst := h.1
  unfold prev
  split_ifs with hday hmonth
  · have hnot : d.day - 1 < monthLength d.year d.month := Nat.lt_of_lt_of_le (by omega) h.2
    rw [next, if_pos hnot]
    exact Day.ext rfl rfl (Nat.sub_add_cancel h.1)
  · rw [next, if_neg (Nat.lt_irrefl _), if_pos (show d.month - 1 < 12 by omega)]
    exact Day.ext rfl (Nat.sub_add_cancel hle) (by simp only; omega)
  · refine (if_neg (Nat.lt_irrefl 31)).trans ((if_neg (Nat.lt_irrefl 12)).trans ?_)
    exact Day.ext (Int.sub_add_cancel _ _) (by simp only; omega) (by simp only; omega)

theorem number_prev (h : d.Valid) : d.prev.number = d.number - 1 := by
  have hnext := number_next h.prev
  rw [next_prev h] at hnext
  omega

/-- The day and the second of it that is `second` seconds after the start of a day, at most one day
away. -/
def shift (d : Day) (second : Int) : Day × Nat :=
  if second < 0 then (d.prev, (second + 86400).toNat)
  else if second < 86400 then (d, second.toNat)
  else (d.next, (second - 86400).toNat)

theorem shift_spec (h : d.Valid) (second : Int) (hlow : -86400 ≤ second) (hhigh : second < 172800) :
    (d.shift second).1.Valid ∧ (d.shift second).2 < 86400 ∧
      86400 * (d.shift second).1.number + (d.shift second).2 = 86400 * d.number + second := by
  unfold shift
  split_ifs with hneg hlt
  · refine ⟨h.prev, by simp only; omega, ?_⟩
    simp only [number_prev h]
    omega
  · exact ⟨h, by simp only; omega, by simp only; omega⟩
  · refine ⟨d.valid_next, by simp only; omega, ?_⟩
    simp only [number_next h]
    omega

end Day

namespace LocalTime

/-! ### Local times -/

/-- The day of a local time. -/
def onDay (t : LocalTime) : Day := { year := t.year, month := t.month, day := t.day }

/-- The second of the day of a local time. -/
def secondOfDay (t : LocalTime) : Nat := 3600 * t.hour + 60 * t.minute + t.second

/-- The local time at a second of a day. -/
def ofDay (d : Day) (second nanos : Nat) : LocalTime where
  year := d.year
  month := d.month
  day := d.day
  hour := second / 3600
  minute := second / 60 % 60
  second := second % 60
  nanos := nanos

/-- Calendar and clock have the local time. -/
def Valid (t : LocalTime) : Prop := t.onDay.Valid ∧ t.hour < 24 ∧ t.minute < 60 ∧ t.second < 60

instance (t : LocalTime) : Decidable t.Valid := inferInstanceAs (Decidable (_ ∧ _))

/-- The seconds from the start of the day in front of the first one. -/
def seconds (t : LocalTime) : Int := 86400 * t.onDay.number + t.secondOfDay

variable {t u : LocalTime}

theorem Valid.secondOfDay_lt (h : t.Valid) : t.secondOfDay < 86400 := by
  obtain ⟨-, hhour, hminute, hsecond⟩ := h
  unfold secondOfDay
  omega

theorem valid_ofDay {d : Day} {second : Nat} (hd : d.Valid) (hsecond : second < 86400)
    (nanos : Nat) :
    (ofDay d second nanos).Valid :=
  ⟨hd, Nat.div_lt_of_lt_mul hsecond, Nat.mod_lt _ (by decide), Nat.mod_lt _ (by decide)⟩

theorem seconds_ofDay (d : Day) (second nanos : Nat) :
    (ofDay d second nanos).seconds = 86400 * d.number + second := by
  have hday : (ofDay d second nanos).onDay = d := rfl
  rw [seconds, hday, secondOfDay]
  simp only [ofDay]
  omega

/-- A local time is determined by its seconds and the fraction of the last one. -/
theorem eq_of_seconds_eq (ht : t.Valid) (hu : u.Valid) (h : t.seconds = u.seconds)
    (hnanos : t.nanos = u.nanos) : t = u := by
  have hday : t.onDay = u.onDay := by
    refine Day.eq_of_number_eq ht.1 hu.1 ?_
    have htlt := ht.secondOfDay_lt
    have hult := hu.secondOfDay_lt
    unfold seconds at h
    omega
  obtain ⟨hyear, hmonth, hdate⟩ := Day.ext_iff.1 hday
  obtain ⟨-, hthour, htminute, htsecond⟩ := ht
  obtain ⟨-, huhour, huminute, husecond⟩ := hu
  have hclock : t.hour = u.hour ∧ t.minute = u.minute ∧ t.second = u.second := by
    rw [seconds, seconds, hday] at h
    unfold secondOfDay at h
    omega
  cases t
  cases u
  simp_all [onDay]

end LocalTime

/-! ### Instants -/

/-- Points in time as a library keeps them, each with an offset from universal time. -/
structure Chronology where
  Instant : Type
  /-- The instant of a local time at an offset in seconds, where the library has it. -/
  ofLocal : LocalTime → Int → Option Instant
  /-- The seconds of universal time. -/
  universal : Instant → Int
  /-- The seconds of the offset. -/
  offset : Instant → Int
  /-- The local time at the offset. -/
  toLocal : Instant → LocalTime

namespace Chronology

/-- The first day of a library. -/
def firstDay : Day := { year := -262143, month := 1, day := 1 }

/-- The first day that a library does not have any more. -/
def endDay : Day := { year := 262143, month := 1, day := 1 }

/-- What is relied on of a library: the offset is subtracted from local time, which fails only where
universal time leaves the days of the library, and is added to universal time, which never fails. -/
structure Lawful (k : Chronology) : Prop where
  exists_ofLocal : ∀ {t : LocalTime} {offset : Int}, t.Valid → -86400 < offset → offset < 86400 →
    86400 * firstDay.number ≤ t.seconds - offset → t.seconds - offset < 86400 * endDay.number →
    ∃ x, k.ofLocal t offset = some x
  universal_ofLocal : ∀ {t : LocalTime} {offset : Int} {x : k.Instant}, t.Valid →
    k.ofLocal t offset = some x → k.universal x = t.seconds - offset
  offset_ofLocal : ∀ {t : LocalTime} {offset : Int} {x : k.Instant}, t.Valid →
    k.ofLocal t offset = some x → k.offset x = offset
  nanos_ofLocal : ∀ {t : LocalTime} {offset : Int} {x : k.Instant}, t.Valid →
    k.ofLocal t offset = some x → (k.toLocal x).nanos = t.nanos
  valid_toLocal : ∀ x, (k.toLocal x).Valid
  seconds_toLocal : ∀ x, (k.toLocal x).seconds = k.universal x + k.offset x

namespace Lawful

variable {k : Chronology} {t : LocalTime} {offset : Int} {x : k.Instant}

/-- A local time is recovered from its instant, also where universal time is in another year. -/
theorem toLocal_ofLocal (h : k.Lawful) (ht : t.Valid) (hx : k.ofLocal t offset = some x) :
    k.toLocal x = t := by
  refine LocalTime.eq_of_seconds_eq (h.valid_toLocal x) ht ?_ (h.nanos_ofLocal ht hx)
  rw [h.seconds_toLocal, h.universal_ofLocal ht hx, h.offset_ofLocal ht hx, Int.sub_add_cancel]

/-- The days of four-digit years are more than a day away from the ends of the library. -/
theorem exists_ofLocal_of_year (h : k.Lawful) (ht : t.Valid) (hlow : 0 ≤ t.year)
    (hhigh : t.year ≤ 9999)
    (hgt : -86400 < offset) (hlt : offset < 86400) : ∃ x, k.ofLocal t offset = some x := by
  obtain ⟨hfirst, hlast, hyear⟩ := ht.1.number_bounds
  have hstart : daysBeforeYear 0 ≤ daysBeforeYear t.year := daysBeforeYear_mono hlow
  have hend : daysBeforeYear (t.year + 1) ≤ daysBeforeYear 10000 := daysBeforeYear_mono (by omega)
  have hsecond := ht.secondOfDay_lt
  have hday : t.onDay.year = t.year := rfl
  have hfirst₀ : firstDay.number < daysBeforeYear 0 - 1 := by decide
  have hend₀ : daysBeforeYear 10000 + 2 < endDay.number := by decide
  rw [hday] at hfirst hlast hyear
  refine h.exists_ofLocal ht hgt hlt ?_ ?_ <;> unfold LocalTime.seconds <;> omega

end Lawful

/-- A point in universal time and an offset. -/
structure UniversalTime where
  day : Day
  second : Nat
  nanos : Nat
  offset : Int
  valid : day.Valid
  second_lt : second < 86400
  offset_gt : -86400 < offset
  offset_lt : offset < 86400

/-- The library that keeps universal time by days and seconds. -/
def universalTimes : Chronology where
  Instant := UniversalTime
  ofLocal t offset :=
    if h : t.Valid ∧ -86400 < offset ∧ offset < 86400 then
      have hshift := Day.shift_spec h.1.1 (t.secondOfDay - offset)
        (by omega) (by have := h.1.secondOfDay_lt; omega)
      let shifted := t.onDay.shift (t.secondOfDay - offset)
      if firstDay.year ≤ shifted.1.year ∧ shifted.1.year < endDay.year then
        some { day := shifted.1, second := shifted.2, nanos := t.nanos, offset, valid := hshift.1,
               second_lt := hshift.2.1, offset_gt := h.2.1, offset_lt := h.2.2 }
      else none
    else none
  universal x := 86400 * x.day.number + x.second
  offset x := x.offset
  toLocal x :=
    let shifted := x.day.shift (x.second + x.offset)
    .ofDay shifted.1 shifted.2 x.nanos

theorem of_ofLocal_universalTimes {t : LocalTime} {offset : Int} {x : UniversalTime}
    (h : universalTimes.ofLocal t offset = some x) :
    x.day = (t.onDay.shift (t.secondOfDay - offset)).1 ∧
      x.second = (t.onDay.shift (t.secondOfDay - offset)).2 ∧ x.nanos = t.nanos ∧
      x.offset = offset := by
  unfold universalTimes at h
  dsimp only at h
  split_ifs at h
  obtain rfl := Option.some.inj h
  exact ⟨rfl, rfl, rfl, rfl⟩

theorem lawful_universalTimes : universalTimes.Lawful where
  exists_ofLocal := by
    intro t offset ht hgt hlt hlow hhigh
    have hsecond := ht.secondOfDay_lt
    obtain ⟨hvalid, hshift, hnumber⟩ := Day.shift_spec ht.1 (t.secondOfDay - offset)
      (by omega) (by omega)
    unfold LocalTime.seconds at hlow hhigh
    have hfirst : firstDay.year ≤ (t.onDay.shift (t.secondOfDay - offset)).1.year :=
      Day.year_le_of_number_le (by decide) hvalid (by omega)
    have hend : (t.onDay.shift (t.secondOfDay - offset)).1.year < endDay.year := by
      refine Int.not_le.1 fun hle => ?_
      have hmono := daysBeforeYear_mono hle
      have hbounds := hvalid.number_bounds
      have hnumber₀ : endDay.number = daysBeforeYear endDay.year + 1 := by decide
      omega
    exact ⟨_, (dif_pos ⟨ht, hgt, hlt⟩).trans (if_pos ⟨hfirst, hend⟩)⟩
  universal_ofLocal := by
    intro t offset x ht hx
    obtain ⟨hday, hshifted, -, hoffset⟩ := of_ofLocal_universalTimes hx
    have hsecond := ht.secondOfDay_lt
    have hgt : -86400 < offset := hoffset ▸ x.offset_gt
    have hlt : offset < 86400 := hoffset ▸ x.offset_lt
    obtain ⟨-, -, hnumber⟩ := Day.shift_spec ht.1 (t.secondOfDay - offset)
      (by omega) (by omega)
    rw [← hday, ← hshifted] at hnumber
    change 86400 * x.day.number + x.second = _
    unfold LocalTime.seconds
    omega
  offset_ofLocal _ hx := (of_ofLocal_universalTimes hx).2.2.2
  nanos_ofLocal _ hx := (of_ofLocal_universalTimes hx).2.2.1
  valid_toLocal x := by
    have hlt := x.second_lt
    have hgt := x.offset_gt
    have hoffset := x.offset_lt
    obtain ⟨hvalid, hsecond, -⟩ := Day.shift_spec x.valid (x.second + x.offset)
      (by omega) (by omega)
    exact LocalTime.valid_ofDay hvalid hsecond _
  seconds_toLocal x := by
    have hlt := x.second_lt
    have hgt := x.offset_gt
    have hoffset := x.offset_lt
    obtain ⟨-, -, hnumber⟩ := Day.shift_spec x.valid (x.second + x.offset)
      (by omega) (by omega)
    change (LocalTime.ofDay _ _ _).seconds = 86400 * x.day.number + x.second + x.offset
    rw [LocalTime.seconds_ofDay, hnumber, Int.add_assoc]

end Chronology

end ImapRequest
