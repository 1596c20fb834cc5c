import Dreamos64.Hardware.Rtc
import Mathlib.Algebra.BigOperators.Group.List.Basic
import Mathlib.Tactic.IntervalCases
import Mathlib.Tactic.Ring

/-!
# Dreamos64 — dates in the real time clock

What `read_rtc_time` makes of a date. The calendar is told on its own: a date has a Unix time
(`RtcDate.unixTime`), and it has registers in each of the four formats that status register B
selects (`RtcDate.registers`).

* `rtc_calendar_iff` — the conversion gives the Unix time, except in January and February of leap
  years;
* `rtc_formats_iff`  — the four formats give one value exactly in the hours from 1 to 11.
-/

namespace Dreamos64

open Machine

/-! ## The calendar -/

/-- The leap years of the Gregorian calendar. -/
def isLeap (year : Nat) : Bool := year % 4 = 0 ∧ (year % 100 ≠ 0 ∨ year % 400 = 0)

def daysInYear (year : Nat) : Nat := if isLeap year then 366 else 365

def daysInMonth (year : Nat) : Nat → Nat
  | 2 => if isLeap year then 29 else 28
  | 4 | 6 | 9 | 11 => 30
  | _ => 31

/-- A date and a time of day that the clock has a number for: its years have two digits. -/
structure RtcDate where
  year   : Nat
  month  : Nat
  day    : Nat
  hour   : Nat
  minute : Nat
  second : Nat
  year_range  : 2000 ≤ year ∧ year ≤ 2099
  month_range : 1 ≤ month ∧ month ≤ 12
  day_range   : 1 ≤ day ∧ day ≤ daysInMonth year month
  hour_lt     : hour < 24
  minute_lt   : minute < 60
  second_lt   : second < 60

/-- The days from 1970-01-01 to a date: whole years, whole months, and days. -/
def RtcDate.unixDays (d : RtcDate) : Nat :=
  ((List.range' 1970 (d.year - 1970)).map daysInYear).sum +
    ((List.range' 1 (d.month - 1)).map (daysInMonth d.year)).sum + (d.day - 1)

/-- The Unix time of a date. -/
def RtcDate.unixTime (d : RtcDate) : Nat :=
  d.unixDays * 86400 + d.hour * 3600 + d.minute * 60 + d.second

/-! ## Registers -/

/-- What status register B selects. -/
structure RtcFormat where
  isBinary  : Bool
  is24hours : Bool
  deriving DecidableEq, Repr

def RtcFormat.Selects (f : RtcFormat) (statusB : UInt8) : Prop :=
  (statusB &&& 0x04 != 0) = f.isBinary ∧ (statusB &&& 0x02 != 0) = f.is24hours

/-- A number below 100, as it is or with a decimal digit in each half of the byte. -/
def RtcFormat.number (f : RtcFormat) (n : Nat) : UInt8 :=
  if f.isBinary then n.toUInt8 else (n / 10 * 16 + n % 10).toUInt8

/-- The hour: from 0 to 23, or from 1 to 12 with bit 7 set in the afternoon. -/
def RtcFormat.hours (f : RtcFormat) (hour : Nat) : UInt8 :=
  if f.is24hours then f.number hour
  else f.number (if hour % 12 = 0 then 12 else hour % 12) ||| (if hour < 12 then 0 else 0x80)

/-- The registers of a date. -/
def RtcDate.registers (d : RtcDate) (f : RtcFormat) : RtcFields where
  seconds := f.number d.second
  minutes := f.number d.minute
  hours := f.hours d.hour
  year := f.number (d.year - 2000)
  dayofmonth := f.number d.day
  month := f.number d.month

/-! ## What the conversion makes of the registers -/

section Conversion

variable {f : RtcFormat} {statusB : UInt8} {d : RtcDate}

theorem convertBcdToBinary_number : ∀ n < 100,
    (convertBcdToBinary (n / 10 * 16 + n % 10).toUInt8).toNat = n := by decide

/-- A number is read back in both formats. -/
theorem toNat_number (f : RtcFormat) {n : Nat} (hn : n < 100) :
    (if f.isBinary then f.number n else convertBcdToBinary (f.number n)).toNat = n := by
  unfold RtcFormat.number
  cases f.isBinary with
  | true =>
    show n % 256 = n
    omega
  | false => exact convertBcdToBinary_number n hn

/-- What the conversion makes of the register for an hour. -/
def RtcFormat.readHour (f : RtcFormat) (hour : Nat) : Nat :=
  (rtcHours f.is24hours
    (if f.isBinary then f.hours hour else convertBcdToBinary (f.hours hour))).toNat

theorem readHour_24 {isBinary : Bool} {hour : Nat} (h : hour < 24) :
    RtcFormat.readHour ⟨isBinary, true⟩ hour = hour := by
  unfold RtcFormat.readHour rtcHours
  exact toNat_number ⟨isBinary, true⟩ (Nat.lt_trans h (by decide))

theorem daysBefore_eq {month : UInt8} (h : month.toNat ≤ 12) :
    daysBefore month = .ok (daysPerMonth.take (month.toNat - 1)).sum := by
  unfold daysBefore
  generalize month.toNat = m at h
  interval_cases m <;> rfl

/-- The days from 1970-01-01 to a date, as they are converted. -/
def RtcDate.rtcDays (d : RtcDate) : Nat :=
  ((d.year - 1970) * 365 - 1) +
    ((d.year - 1970) / 4 + if (d.year - 1970) % 4 > 1 then 1 else 0) +
    ((daysPerMonth.take (d.month - 1)).sum + d.day)

theorem RtcDate.day_le (d : RtcDate) : d.day ≤ 31 := by
  have hday := d.day_range.2
  unfold daysInMonth at hday
  split at hday
  · split at hday <;> omega
  all_goals omega

/-- **The value that is computed** from the registers of a date. -/
theorem rtcTime_registers (hformat : f.Selects statusB) (d : RtcDate) :
    rtcTime statusB (d.registers f) =
      .ok (d.rtcDays * 86400 + f.readHour d.hour * 3600 + d.minute * 60 + d.second) := by
  have ⟨hyear, hyear'⟩ := d.year_range
  have ⟨hmonth, hmonth'⟩ := d.month_range
  have hsecond := toNat_number f (Nat.lt_trans d.second_lt (by decide))
  have hminute := toNat_number f (Nat.lt_trans d.minute_lt (by decide))
  have hy := toNat_number f (n := d.year - 2000) (by omega)
  have hm := toNat_number f (n := d.month) (by omega)
  have hday := toNat_number f (Nat.lt_of_le_of_lt d.day_le (by decide))
  -- the six fields, each converted or not
  have hfields : (d.registers f).binary f.isBinary =
      { hours := if f.isBinary then f.hours d.hour else convertBcdToBinary (f.hours d.hour)
        seconds := if f.isBinary then f.number d.second else convertBcdToBinary (f.number d.second)
        minutes := if f.isBinary then f.number d.minute else convertBcdToBinary (f.number d.minute)
        year := if f.isBinary then f.number (d.year - 2000)
          else convertBcdToBinary (f.number (d.year - 2000))
        month := if f.isBinary then f.number d.month else convertBcdToBinary (f.number d.month)
        dayofmonth := if f.isBinary then f.number d.day
          else convertBcdToBinary (f.number d.day) } := by
    unfold RtcFields.binary RtcDate.registers
    cases f.isBinary <;> rfl
  unfold rtcTime
  dsimp only
  rw [hformat.1, hformat.2, hfields]
  dsimp only
  rw [daysBefore_eq (by omega), hm, hsecond, hminute, hy, hday, ok_bind]
  -- the century is added before 1970 is subtracted
  have hbase : baseCentury + (d.year - 2000) - 1970 = d.year - 1970 := by
    unfold baseCentury
    omega
  rw [hbase]
  refine congrArg Except.ok ?_
  unfold RtcDate.rtcDays RtcFormat.readHour
  ring

end Conversion

/-! ## The calendar of the conversion -/

section Calendar

/-- The years of the clock are leap years if they are multiples of four. -/
theorem daysInYear_eq {k : Nat} (h : k < 130) :
    daysInYear (1970 + k) = if k % 4 = 2 then 366 else 365 := by
  unfold daysInYear isLeap
  simp only [decide_eq_true_eq]
  refine if_congr ?_ rfl rfl
  omega

theorem sum_daysInYear {k : Nat} (h : k ≤ 130) :
    ((List.range' 1970 k).map daysInYear).sum = 365 * k + (k + 1) / 4 := by
  induction k with
  | zero => rfl
  | succ k ih =>
    rw [List.range'_1_concat, List.map_append, List.sum_append, ih (by omega), List.map_singleton,
      List.sum_singleton, daysInYear_eq (by omega)]
    split_ifs <;> omega

/-- The table of the source has the months of a common year. -/
theorem sum_daysInMonth (year : Nat) {month : Nat} (h : 1 ≤ month ∧ month ≤ 12) :
    ((List.range' 1 (month - 1)).map (daysInMonth year)).sum =
      (daysPerMonth.take (month - 1)).sum + if isLeap year ∧ 2 < month then 1 else 0 := by
  obtain ⟨hlow, hhigh⟩ := h
  interval_cases month <;> cases hleap : isLeap year <;>
    simp [List.range', daysInMonth, daysPerMonth, hleap]

/-- The leap day of a leap year is counted from its first day on. -/
theorem RtcDate.rtcDays_eq (d : RtcDate) :
    d.rtcDays = d.unixDays + if isLeap d.year ∧ d.month ≤ 2 then 1 else 0 := by
  have ⟨hyear, hyear'⟩ := d.year_range
  have hday := d.day_range.1
  obtain ⟨k, hk⟩ : ∃ k, d.year = 1970 + k := ⟨d.year - 1970, by omega⟩
  have hleap : isLeap d.year = true ↔ k % 4 = 2 := by
    unfold isLeap
    simp only [decide_eq_true_eq]
    omega
  unfold rtcDays unixDays
  rw [sum_daysInMonth d.year d.month_range, hk, Nat.add_sub_cancel_left,
    sum_daysInYear (by omega), ← hk]
  simp only [hleap]
  split_ifs <;> omega

end Calendar

/-- The function converts what was read last. -/
theorem readRtcTime_eq {rtc : Rtc} {fuel : Nat} {statusB : UInt8} {s : RtcReading} {f : RtcFormat}
    {d : RtcDate} (hread : readRtcPasses rtc fuel = .ok (statusB, s)) (hformat : f.Selects statusB)
    (hdate : s.now = d.registers f) : readRtcTime fuel rtc =
      .ok (d.rtcDays * 86400 + f.readHour d.hour * 3600 + d.minute * 60 + d.second) := by
  unfold readRtcTime
  rw [hread, ok_bind]
  dsimp only
  rw [hdate, rtcTime_registers hformat]

/-! ## Clocks that present a date -/

def RtcFormat.statusB (f : RtcFormat) : UInt8 :=
  (if f.isBinary then 0x04 else 0) ||| (if f.is24hours then 0x02 else 0)

theorem RtcFormat.selects_statusB (f : RtcFormat) : f.Selects f.statusB := by
  obtain ⟨isBinary, is24hours⟩ := f
  cases isBinary <;> cases is24hours <;> exact ⟨rfl, rfl⟩

/-- A clock that presents a date in every pass but the first, which has other seconds. -/
def tickingClock (d : RtcDate) (f : RtcFormat) : Rtc := fun n r =>
  match r with
  | .seconds => if n < 8 then (d.registers f).seconds + 1 else (d.registers f).seconds
  | .minutes => (d.registers f).minutes
  | .hours => (d.registers f).hours
  | .dayOfMonth => (d.registers f).dayofmonth
  | .month => (d.registers f).month
  | .year => (d.registers f).year
  | .statusRegisterA => 0
  | .statusRegisterB => f.statusB

theorem tickingClock_wait (d : RtcDate) (f : RtcFormat) (n : Nat) :
    waitRtc (tickingClock d f) 2 n = .ok (n + 1) := by
  have hover : tickingClock d f n .statusRegisterA &&& 0x80 = 0 := by
    show (0 : UInt8) &&& 0x80 = 0
    decide
  refine waitRtc_eq ⟨Nat.le_refl n, fun k hk hkn => ?_, hover⟩ (by omega)
  exact absurd hkn (Nat.not_lt.mpr hk)

/-- The function reads the date from it. -/
theorem tickingClock_reads (d : RtcDate) (f : RtcFormat) :
    ∃ s, readRtcPasses (tickingClock d f) 2 = .ok (f.statusB, s) ∧ s.now = d.registers f := by
  let first := { d.registers f with seconds := (d.registers f).seconds + 1 }
  have hne : first ≠ d.registers f := by
    intro heq
    have hseconds := congrArg RtcFields.seconds heq
    exact absurd (UInt8.left_eq_add.mp hseconds.symm) (by decide)
  have hbody : readPassBody (tickingClock d f) 2 ⟨first, [first], 8⟩ =
      .ok (.done ⟨d.registers f, [first, d.registers f], 15⟩) := by
    unfold readPassBody
    rw [tickingClock_wait, ok_bind]
    exact congrArg Except.ok (if_neg hne)
  refine ⟨⟨d.registers f, [first, d.registers f], 15⟩, ?_, rfl⟩
  unfold readRtcPasses
  rw [tickingClock_wait, ok_bind]
  exact congrArg (· >>= _) (loop_done hbody)

/-- **When the conversion gives the Unix time** of a date that the clock presents in 24 hour binary
format. -/
theorem rtc_calendar_iff (d : RtcDate) (rtc : Rtc) (fuel : Nat) (statusB : UInt8) (s : RtcReading)
    (hread : readRtcPasses rtc fuel = .ok (statusB, s))
    (hformat : (⟨true, true⟩ : RtcFormat).Selects statusB)
    (hdate : s.now = d.registers ⟨true, true⟩) :
    readRtcTime fuel rtc = .ok d.unixTime ↔ ¬ (isLeap d.year = true ∧ d.month ≤ 2) := by
  rw [readRtcTime_eq hread hformat hdate, readHour_24 d.hour_lt, Except.ok.injEq, d.rtcDays_eq]
  unfold RtcDate.unixTime
  split_ifs with hearly
  · exact iff_of_false (by omega) (not_not.mpr hearly)
  · exact iff_of_true (by omega) hearly

/-- 2024-03-01 12:00:00. -/
def marchFirst : RtcDate :=
  ⟨2024, 3, 1, 12, 0, 0, by decide, by decide, by decide, by decide, by decide, by decide⟩

theorem rtc_calendar_march :
    readRtcTime 2 (tickingClock marchFirst ⟨true, true⟩) = .ok marchFirst.unixTime := by
  obtain ⟨s, hread, hdate⟩ := tickingClock_reads marchFirst ⟨true, true⟩
  exact (rtc_calendar_iff marchFirst _ 2 _ s hread (RtcFormat.selects_statusB _) hdate).mpr
    (by decide)

/-- 2024-01-01 00:00:00. -/
def newYear : RtcDate :=
  ⟨2024, 1, 1, 0, 0, 0, by decide, by decide, by decide, by decide, by decide, by decide⟩

/-- On the first day of a leap year the time is a day ahead. -/
theorem rtc_calendar_january :
    (∃ s, readRtcPasses (tickingClock newYear ⟨true, true⟩) 2 = .ok (6, s) ∧
      s.now = newYear.registers ⟨true, true⟩) ∧
    (⟨true, true⟩ : RtcFormat).Selects 6 ∧
    newYear.unixTime = 1704067200 ∧
    readRtcTime 2 (tickingClock newYear ⟨true, true⟩) = .ok (1704067200 + 86400) := by
  obtain ⟨s, hread, hdate⟩ := tickingClock_reads newYear ⟨true, true⟩
  refine ⟨⟨s, hread, hdate⟩, RtcFormat.selects_statusB ⟨true, true⟩, by decide, ?_⟩
  rw [readRtcTime_eq hread (RtcFormat.selects_statusB _) hdate]
  decide

/-! ## The four formats -/

/-- The hours that are read back in both formats of 12 hours. -/
theorem readHour_iff : ∀ hour < 24,
    (RtcFormat.readHour ⟨true, false⟩ hour = hour ∧ RtcFormat.readHour ⟨false, false⟩ hour = hour) ↔
      1 ≤ hour ∧ hour ≤ 11 := by decide

/-- **When the four formats give one value.** -/
theorem rtc_formats_iff (d : RtcDate) (rtc : RtcFormat → Rtc) (fuel : RtcFormat → Nat)
    (statusB : RtcFormat → UInt8) (s : RtcFormat → RtcReading)
    (hread : ∀ f, readRtcPasses (rtc f) (fuel f) = .ok (statusB f, s f))
    (hformat : ∀ f : RtcFormat, f.Selects (statusB f)) (hdate : ∀ f, (s f).now = d.registers f) :
    (∃ t, ∀ f, readRtcTime (fuel f) (rtc f) = .ok t) ↔ 1 ≤ d.hour ∧ d.hour ≤ 11 := by
  have htime (f : RtcFormat) := readRtcTime_eq (hread f) (hformat f) (hdate f)
  rw [← readHour_iff d.hour d.hour_lt]
  simp only [htime, Except.ok.injEq]
  constructor
  · rintro ⟨t, ht⟩
    -- in 24 hour format the hour is the right one
    have h24 := ht ⟨true, true⟩
    rw [readHour_24 d.hour_lt] at h24
    have hbinary := ht ⟨true, false⟩
    have hbcd := ht ⟨false, false⟩
    omega
  · rintro ⟨hbinary, hbcd⟩
    refine ⟨d.rtcDays * 86400 + d.hour * 3600 + d.minute * 60 + d.second, fun f => ?_⟩
    have hhour : f.readHour d.hour = d.hour := by
      obtain ⟨isBinary, is24hours⟩ := f
      cases is24hours with
      | true => exact readHour_24 d.hour_lt
      | false =>
        cases isBinary with
        | true => exact hbinary
        | false => exact hbcd
    rw [hhour]

/-- 2024-03-01 09:30:00. -/
def morning : RtcDate :=
  ⟨2024, 3, 1, 9, 30, 0, by decide, by decide, by decide, by decide, by decide, by decide⟩

theorem rtc_formats_morning : ∃ t, ∀ f, readRtcTime 2 (tickingClock morning f) = .ok t := by
  have hreads := tickingClock_reads morning
  choose s hread hdate using hreads
  exact (rtc_formats_iff morning (tickingClock morning) (fun _ => 2) RtcFormat.statusB s hread
    RtcFormat.selects_statusB hdate).mpr (by decide)

/-- 2024-03-01 13:00:00. -/
def afternoon : RtcDate :=
  ⟨2024, 3, 1, 13, 0, 0, by decide, by decide, by decide, by decide, by decide, by decide⟩

/-- One o'clock in the afternoon is read as 81 o'clock, in BCD with 12 hours. -/
theorem rtc_formats_afternoon :
    (afternoon.registers ⟨false, false⟩).hours = 0x81 ∧
      readRtcTime 2 (tickingClock afternoon ⟨true, true⟩) = .ok afternoon.unixTime ∧
      readRtcTime 2 (tickingClock afternoon ⟨false, false⟩) =
        .ok (afternoon.unixTime + (81 - 13) * 3600) := by
  have htime (f : RtcFormat) : readRtcTime 2 (tickingClock afternoon f) =
      .ok (afternoon.rtcDays * 86400 + f.readHour afternoon.hour * 3600 + afternoon.minute * 60 +
        afternoon.second) := by
    obtain ⟨s, hread, hdate⟩ := tickingClock_reads afternoon f
    exact readRtcTime_eq hread f.selects_statusB hdate
  refine ⟨by decide, ?_, ?_⟩
  · rw [htime]
    decide
  · rw [htime]
    decide

end Dreamos64
